import Mathlib.Data.List.Basic
import Mathlib.Data.List.Induction

/-!
# Mealy — machines that now and then emit an event

A machine reads one input at a time and emits at most one event per input:

- `final`       : the state after a list of inputs
- `events`      : the events emitted on the way, in order
- `EmitsAtEnd`  : the run emits at its last input and at no other

The laws below are the ones a verification needs: how runs compose, that an invariant kept by
one step is kept by a run, and that a machine which decodes code words symbol by symbol, or symbols
part by part, decodes every concatenation of them.
-/

namespace Mealy

variable {σ ι ε α β π : Type*}

/-- The state reached after reading a list of inputs. -/
def final (step : σ → ι → σ × Option ε) : σ → List ι → σ
  | s, [] => s
  | s, i :: is => final step (step s i).1 is

/-- The events emitted while reading a list of inputs. -/
def events (step : σ → ι → σ × Option ε) : σ → List ι → List ε
  | _, [] => []
  | s, i :: is => (step s i).2.toList ++ events step (step s i).1 is

variable {step : σ → ι → σ × Option ε}

@[simp] theorem final_nil (s : σ) : final step s [] = s := rfl

@[simp] theorem final_cons (s : σ) (i : ι) (is : List ι) :
    final step s (i :: is) = final step (step s i).1 is := rfl

@[simp] theorem events_nil (s : σ) : events step s [] = [] := rfl

@[simp] theorem events_cons (s : σ) (i : ι) (is : List ι) :
    events step s (i :: is) = (step s i).2.toList ++ events step (step s i).1 is := rfl

theorem final_append (s : σ) (is js : List ι) :
    final step s (is ++ js) = final step (final step s is) js := by
  induction is generalizing s with
  | nil => rfl
  | cons i is ih => exact ih _

theorem events_append (s : σ) (is js : List ι) :
    events step s (is ++ js) = events step s is ++ events step (final step s is) js := by
  induction is generalizing s with
  | nil => rfl
  | cons i is ih => simp only [List.cons_append, events_cons, final_cons, ih, List.append_assoc]

theorem final_concat (s : σ) (is : List ι) (i : ι) :
    final step s (is ++ [i]) = (step (final step s is) i).1 := by
  rw [final_append, final_cons, final_nil]

/-- An event of a run is emitted by one of its steps. -/
theorem mem_events_iff {s : σ} {is : List ι} {e : ε} :
    e ∈ events step s is ↔
      ∃ pre i post, is = pre ++ i :: post ∧ (step (final step s pre) i).2 = some e := by
  induction is generalizing s with
  | nil => simp
  | cons j js ih =>
      rw [events_cons, List.mem_append, Option.mem_toList, ih]
      constructor
      · rintro (h | ⟨pre, i, post, rfl, h⟩)
        · exact ⟨[], j, js, rfl, h⟩
        · exact ⟨j :: pre, i, post, rfl, h⟩
      · rintro ⟨pre, i, post, heq, h⟩
        cases pre with
        | nil =>
            obtain ⟨rfl, rfl⟩ : j = i ∧ js = post := by simpa using heq
            exact Or.inl h
        | cons k pre =>
            obtain ⟨rfl, rfl⟩ : j = k ∧ js = pre ++ i :: post := by simpa using heq
            exact Or.inr ⟨pre, i, post, rfl, h⟩

/-! ## Invariants -/

/-- A property kept by every step is kept by every run. -/
theorem final_invariant {I : σ → Prop} (hstep : ∀ s i, I s → I (step s i).1)
    {s : σ} (h : I s) (is : List ι) : I (final step s is) := by
  induction is generalizing s with
  | nil => exact h
  | cons i is ih => exact ih (hstep s i h)

/-- What every step from a state with the invariant emits, every run emits. -/
theorem events_forall {I : σ → Prop} {P : ε → Prop}
    (hstep : ∀ s i, I s → I (step s i).1 ∧ ∀ e ∈ (step s i).2, P e)
    {s : σ} (h : I s) (is : List ι) : ∀ e ∈ events step s is, P e := by
  induction is generalizing s with
  | nil =>
      intro e he
      cases he
  | cons i is ih =>
      rcases hstep s i h with ⟨hnext, hout⟩
      intro e he
      rw [events_cons, List.mem_append, Option.mem_toList] at he
      cases he with
      | inl hfirst => exact hout e hfirst
      | inr hlater => exact ih hnext e hlater

/-- Inputs that are ignored in a state leave it as it is. -/
theorem run_ignored {s : σ} {is : List ι} (h : ∀ i ∈ is, step s i = (s, none)) :
    final step s is = s ∧ events step s is = [] := by
  induction is with
  | nil => exact ⟨rfl, rfl⟩
  | cons i is ih =>
      rcases ih (fun j hj => h j (by simp [hj])) with ⟨hfinal, hquiet⟩
      rw [final_cons, events_cons, h i (by simp)]
      exact ⟨hfinal, hquiet⟩

/-! ## Runs up to the first event -/

/-- The run emits at its last input and at no input before, and every input finds the machine in a
state with `P`. -/
inductive EmitsAtEnd (step : σ → ι → σ × Option ε) (P : σ → Prop) : σ → List ι → Prop
  | last {s : σ} {i : ι} {e : ε} (hP : P s) (he : (step s i).2 = some e) :
      EmitsAtEnd step P s [i]
  | more {s : σ} {i : ι} {is : List ι} (hP : P s) (hquiet : (step s i).2 = none)
      (hrest : EmitsAtEnd step P (step s i).1 is) : EmitsAtEnd step P s (i :: is)

theorem EmitsAtEnd.mono {P Q : σ → Prop} (hPQ : ∀ s, P s → Q s) {s : σ} {is : List ι}
    (h : EmitsAtEnd step P s is) : EmitsAtEnd step Q s is := by
  induction h with
  | last hP he => exact EmitsAtEnd.last (hPQ _ hP) he
  | more hP hquiet _ ih => exact EmitsAtEnd.more (hPQ _ hP) hquiet ih

/-! ## Code words -/

/-- The same symbol, again and again in the same word. -/
theorem forall₂_replicate {W : β → α → Prop} {b : β} {w : α} (h : W b w) (n : ℕ) :
    List.Forall₂ W (List.replicate n b) (List.replicate n w) := by
  induction n with
  | zero => exact List.Forall₂.nil
  | succ n ih => exact List.Forall₂.cons h ih

/-- If every code word of a symbol pushes that symbol into what has been decoded so far, silently,
and the last one of a frame of `n + 1` symbols also completes the frame, then so does every
concatenation of code words. -/
theorem run_frame {R : ℕ → α → σ → Prop} {Q : α → σ → Prop} {e : α → List ε}
    {p : ℕ → α → β → α} {W : β → List ι → Prop} {n : ℕ}
    (hword : ∀ k a s b w, k < n → R k a s → W b w →
      R (k + 1) (p k a b) (final step s w) ∧ events step s w = [])
    (hlast : ∀ a s b w, R n a s → W b w →
      Q (p n a b) (final step s w) ∧ events step s w = e (p n a b))
    {k : ℕ} {a : α} {s : σ} {bs : List β} {ws : List (List ι)}
    (h : R k a s) (hws : List.Forall₂ W bs ws) (hne : bs ≠ []) (hlen : k + bs.length = n + 1) :
    Q (bs.foldlIdx p a k) (final step s ws.flatten) ∧
      events step s ws.flatten = e (bs.foldlIdx p a k) := by
  -- induction on the words; the last one is the word `n`
  induction hws generalizing k a s with
  | nil => exact absurd rfl hne
  | @cons b w bs ws hb hbs ih =>
      rw [List.length_cons] at hlen
      cases hbs with
      | nil =>
          obtain rfl : k = n := by simpa using hlen
          simpa using hlast a s b w h hb
      | cons hb' hbs' =>
          rw [List.length_cons] at hlen
          rcases hword k a s b w (by omega) h hb with ⟨hR, hquiet⟩
          rcases ih hR (by simp) (by rw [List.length_cons]; omega) with ⟨hQ, hout⟩
          rw [List.flatten_cons, final_append, events_append, hquiet, hout, List.foldlIdx_cons]
          exact ⟨hQ, rfl⟩

/-! ## Symbols of several parts -/

/-- A machine that reads up to `N` symbols of `n` parts each: in the states `R bs ps` it has read
the symbols `bs` and the parts `ps` of the next one. -/
structure ReadsParts (step : σ → ι → σ × Option ε) (parts : β → List π) (W : π → ι → Prop)
    (ok : ℕ → β → Prop) (R : List β → List π → σ → Prop) (n N : ℕ) : Prop where
  length_parts : ∀ b, (parts b).length = n
  parts_lt : ∀ bs ps s, R bs ps s → ps.length < n
  more : ∀ bs ps s p i, R bs ps s → bs.length < N → ps.length + 1 < n → W p i →
    R bs (ps ++ [p]) (step s i).1 ∧ (step s i).2 = none
  last : ∀ bs ps s p i b, R bs ps s → bs.length < N → ps ++ [p] = parts b → ok bs.length b →
    W p i → R (bs ++ [b]) [] (step s i).1 ∧ (step s i).2 = none

variable {parts : β → List π} {W : π → ι → Prop} {ok : ℕ → β → Prop}
  {R : List β → List π → σ → Prop} {n N : ℕ}

/-- The parts of the symbols that are missing, read one by one. -/
theorem ReadsParts.run (h : ReadsParts step parts W ok R n N) {bs us : List β} {ps r : List π}
    {s : σ} {is : List ι} (hR : R bs ps s)
    (hok : ∀ k, ∀ hk : k < us.length, ok (bs.length + k) us[k])
    (hlen : bs.length + us.length ≤ N) (hr : ps ++ r = us.flatMap parts)
    (his : List.Forall₂ W r is) :
    R (bs ++ us) [] (final step s is) ∧ events step s is = [] := by
  have hlt := h.parts_lt bs ps s hR
  induction his generalizing s bs us ps with
  | nil =>
      rw [List.append_nil] at hr
      cases us with
      | nil =>
          rw [List.flatMap_nil] at hr
          rw [List.append_nil, ← hr]
          exact ⟨hR, rfl⟩
      | cons b us =>
          -- a whole symbol would have been stored
          have hcount := congrArg List.length hr
          rw [List.flatMap_cons, List.length_append, h.length_parts] at hcount
          omega
  | @cons p i r is hp _ ih =>
      cases us with
      | nil => simp at hr
      | cons b us =>
          rw [List.length_cons] at hlen
          rw [final_cons, events_cons]
          by_cases hmore : ps.length + 1 < n
          · rcases h.more bs ps s p i hR (by omega) hmore hp with ⟨hR', hquiet⟩
            rw [hquiet]
            refine ih hR' hok hlen ?_ (h.parts_lt _ _ _ hR')
            rw [List.append_assoc]
            exact hr
          · -- the last part of this symbol
            have hsplit : (ps ++ [p]) ++ r = parts b ++ us.flatMap parts := by
              rw [List.append_assoc]
              exact hr
            have hwhole : (ps ++ [p]).length = (parts b).length := by
              rw [h.length_parts, List.length_append, List.length_singleton]
              omega
            rcases List.append_inj hsplit hwhole with ⟨hb, hrest⟩
            rcases h.last bs ps s p i b hR (by omega) hb (hok 0 (Nat.succ_pos _)) hp with
              ⟨hR', hquiet⟩
            have hcount : (bs ++ [b]).length = bs.length + 1 := by
              rw [List.length_append, List.length_singleton]
            rw [hquiet, List.append_cons]
            refine ih hR' ?_ (by omega) (by rw [List.nil_append, hrest]) (h.parts_lt _ _ _ hR')
            intro k hk
            have hnext := hok (k + 1) (Nat.succ_lt_succ hk)
            rw [hcount, Nat.add_assoc, Nat.add_comm 1 k]
            exact hnext

end Mealy
