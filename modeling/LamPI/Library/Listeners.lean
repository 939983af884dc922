import LamPI.Library.Mealy
import Mathlib.Algebra.BigOperators.Group.Finset.Piecewise
import Mathlib.Algebra.BigOperators.Ring.Nat
import Mathlib.Logic.Function.Basic

/-!
# Listeners — machines that read the same inputs

The machines on a list read every input, in the order of the list.  What they emit is one list of
events, each of which says from which machine it is:

- `hear`   : one input, read by every machine on the list
- `final`  : the states after a list of inputs
- `events` : the events emitted on the way, in order
- `of`     : those of one machine

A machine that is on the list once does what it would do alone.
-/

namespace Listeners

variable {κ ι : Type*} [DecidableEq κ] {σ ε : κ → Type*}

/-- One input, read by the machines `ks`. -/
def hear (step : ∀ k, σ k → ι → σ k × Option (ε k)) (i : ι) :
    List κ → (∀ k, σ k) → (∀ k, σ k) × List (Sigma ε)
  | [], s => (s, [])
  | k :: ks, s =>
      let r := step k (s k) i
      let rest := hear step i ks (Function.update s k r.1)
      (rest.1, r.2.toList.map (Sigma.mk k) ++ rest.2)

/-- The states after a list of inputs. -/
def final (step : ∀ k, σ k → ι → σ k × Option (ε k)) (ks : List κ) :
    (∀ k, σ k) → List ι → ∀ k, σ k
  | s, [] => s
  | s, i :: is => final step ks (hear step i ks s).1 is

/-- The events emitted while reading a list of inputs. -/
def events (step : ∀ k, σ k → ι → σ k × Option (ε k)) (ks : List κ) :
    (∀ k, σ k) → List ι → List (Sigma ε)
  | _, [] => []
  | s, i :: is => (hear step i ks s).2 ++ events step ks (hear step i ks s).1 is

/-- The event, if it is one of the machine `k`. -/
def eventOf (k : κ) (e : Sigma ε) : Option (ε k) :=
  if h : e.1 = k then some (h ▸ e.2) else none

/-- The events of the machine `k`. -/
def of (k : κ) (es : List (Sigma ε)) : List (ε k) := es.filterMap (eventOf k)

variable {step : ∀ k, σ k → ι → σ k × Option (ε k)} {ks : List κ} {s : ∀ k, σ k} {k : κ}

@[simp] theorem final_nil : final step ks s [] = s := rfl

@[simp] theorem final_cons (i : ι) (is : List ι) :
    final step ks s (i :: is) = final step ks (hear step i ks s).1 is := rfl

@[simp] theorem events_nil : events step ks s [] = [] := rfl

@[simp] theorem events_cons (i : ι) (is : List ι) :
    events step ks s (i :: is) =
      (hear step i ks s).2 ++ events step ks (hear step i ks s).1 is := rfl

/-! ## The events of one machine -/

@[simp] theorem of_nil : of k ([] : List (Sigma ε)) = [] := rfl

@[simp] theorem of_append (es fs : List (Sigma ε)) : of k (es ++ fs) = of k es ++ of k fs :=
  List.filterMap_append

@[simp] theorem eventOf_self (e : ε k) : eventOf k ⟨k, e⟩ = some e := dif_pos rfl

theorem eventOf_ne {j : κ} (h : j ≠ k) (e : ε j) : eventOf k ⟨j, e⟩ = none := dif_neg h

@[simp] theorem of_map_self (es : List (ε k)) : of k (es.map (Sigma.mk k)) = es := by
  induction es with
  | nil => rfl
  | cons e es ih =>
      rw [List.map_cons, of, List.filterMap_cons, eventOf_self]
      exact congrArg (e :: ·) ih

theorem of_map_ne {j : κ} (h : j ≠ k) (es : List (ε j)) : of k (es.map (Sigma.mk j)) = [] := by
  induction es with
  | nil => rfl
  | cons e es ih =>
      rw [List.map_cons, of, List.filterMap_cons, eventOf_ne h]
      exact ih

theorem mem_of {es : List (Sigma ε)} {e : ε k} (h : ⟨k, e⟩ ∈ es) : e ∈ of k es :=
  List.mem_filterMap.2 ⟨⟨k, e⟩, h, eventOf_self e⟩

/-- Events that are all from one machine. -/
theorem eq_map_of {es : List (Sigma ε)} (h : ∀ e ∈ es, e.1 = k) :
    es = (of k es).map (Sigma.mk k) := by
  induction es with
  | nil => rfl
  | cons e es ih =>
      rcases e with ⟨j, e⟩
      obtain rfl : j = k := h _ List.mem_cons_self
      have htail := ih fun x hx => h x (List.mem_cons_of_mem _ hx)
      rw [of, List.filterMap_cons, eventOf_self, List.map_cons]
      exact congrArg (⟨j, e⟩ :: ·) htail

/-- All events, machine by machine. -/
theorem length_eq_sum (hks : ks.Nodup) (es : List (Sigma ε)) (hes : ∀ e ∈ es, e.1 ∈ ks) :
    es.length = (ks.map fun k => (of k es).length).sum := by
  rw [← List.sum_toFinset _ hks]
  induction es with
  | nil => simp
  | cons e es ih =>
      rcases e with ⟨j, e⟩
      have hj : j ∈ ks.toFinset := List.mem_toFinset.2 (hes _ List.mem_cons_self)
      have hcons : ∀ k, (of k (⟨j, e⟩ :: es)).length = (if j = k then 1 else 0) + (of k es).length := by
        intro k
        by_cases hjk : j = k
        · subst hjk
          rw [of, List.filterMap_cons, eventOf_self, if_pos rfl, Nat.add_comm]
          rfl
        · rw [of, List.filterMap_cons, eventOf_ne hjk, if_neg hjk, Nat.zero_add]
          rfl
      have htail := ih fun x hx => hes x (List.mem_cons_of_mem _ hx)
      rw [List.length_cons, htail, Nat.add_comm]
      simp only [hcons, Finset.sum_add_distrib, Finset.sum_ite_eq, if_pos hj]

/-! ## One input -/

variable (step s) in
/-- A machine that is not on the list reads nothing. -/
theorem hear_of_not_mem (i : ι) (hk : k ∉ ks) :
    (hear step i ks s).1 k = s k ∧ of k (hear step i ks s).2 = [] := by
  induction ks generalizing s with
  | nil => exact ⟨rfl, rfl⟩
  | cons j ks ih =>
      rw [List.mem_cons, not_or] at hk
      rcases ih (Function.update s j (step j (s j) i).1) hk.2 with ⟨hstate, hevents⟩
      constructor
      · rw [hear, hstate, Function.update_of_ne hk.1]
      · rw [hear, of_append, of_map_ne (Ne.symm hk.1), hevents]
        rfl

variable (step s) in
/-- A machine that is on it once reads the input once. -/
theorem hear_of_mem (i : ι) (hks : ks.Nodup) (hk : k ∈ ks) :
    (hear step i ks s).1 k = (step k (s k) i).1 ∧
      of k (hear step i ks s).2 = (step k (s k) i).2.toList := by
  induction ks generalizing s with
  | nil => cases hk
  | cons j ks ih =>
      rw [List.nodup_cons] at hks
      by_cases hj : j = k
      · subst hj
        rcases hear_of_not_mem step (Function.update s j (step j (s j) i).1) i hks.1 with
          ⟨hstate, hevents⟩
        constructor
        · rw [hear, hstate, Function.update_self]
        · rw [hear, of_append, of_map_self, hevents, List.append_nil]
      · have hmem : k ∈ ks := (List.mem_cons.1 hk).resolve_left (Ne.symm hj)
        rcases ih (Function.update s j (step j (s j) i).1) hks.2 hmem with ⟨hstate, hevents⟩
        rw [Function.update_of_ne (Ne.symm hj)] at hstate hevents
        constructor
        · rw [hear, hstate]
        · rw [hear, of_append, of_map_ne hj, hevents]
          rfl

/-! ## Runs -/

theorem final_append (s : ∀ k, σ k) (is js : List ι) :
    final step ks s (is ++ js) = final step ks (final step ks s is) js := by
  induction is generalizing s with
  | nil => rfl
  | cons i is ih => exact ih _

theorem events_append (s : ∀ k, σ k) (is js : List ι) :
    events step ks s (is ++ js) =
      events step ks s is ++ events step ks (final step ks s is) js := by
  induction is generalizing s with
  | nil => rfl
  | cons i is ih =>
      rw [List.cons_append, events_cons, ih, events_cons, final_cons, List.append_assoc]

/-- A machine that is on the list once runs as if it were alone. -/
theorem run_of_mem (hks : ks.Nodup) (hk : k ∈ ks) (is : List ι) :
    final step ks s is k = Mealy.final (step k) (s k) is ∧
      of k (events step ks s is) = Mealy.events (step k) (s k) is := by
  induction is generalizing s with
  | nil => exact ⟨rfl, rfl⟩
  | cons i is ih =>
      rcases hear_of_mem step s i hks hk with ⟨hstate, hevents⟩
      rcases ih (s := (hear step i ks s).1) with ⟨ihstate, ihevents⟩
      rw [hstate] at ihstate ihevents
      constructor
      · rw [final_cons, ihstate, Mealy.final_cons]
      · rw [events_cons, of_append, hevents, ihevents, Mealy.events_cons]

theorem run_of_not_mem (hk : k ∉ ks) (is : List ι) :
    final step ks s is k = s k ∧ of k (events step ks s is) = [] := by
  induction is generalizing s with
  | nil => exact ⟨rfl, rfl⟩
  | cons i is ih =>
      rcases hear_of_not_mem step s i hk with ⟨hstate, hevents⟩
      rcases ih (s := (hear step i ks s).1) with ⟨ihstate, ihevents⟩
      rw [hstate] at ihstate
      constructor
      · rw [final_cons, ihstate]
      · rw [events_cons, of_append, hevents, ihevents]
        rfl

/-- What is emitted while all machines but one are silent. -/
theorem events_of_silent (hks : ks.Nodup) (hk : k ∈ ks) {is : List ι}
    (hsilent : ∀ j ∈ ks, j ≠ k → Mealy.events (step j) (s j) is = []) :
    events step ks s is = (Mealy.events (step k) (s k) is).map (Sigma.mk k) := by
  rw [← (run_of_mem hks hk is).2]
  refine eq_map_of fun e he => ?_
  by_contra hne
  have hmem : e.2 ∈ of e.1 (events step ks s is) := mem_of he
  by_cases hj : e.1 ∈ ks
  · rw [(run_of_mem hks hj is).2, hsilent _ hj hne] at hmem
    cases hmem
  · rw [(run_of_not_mem hj is).2] at hmem
    cases hmem

end Listeners
