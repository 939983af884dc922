import LamPI.Library.Mealy

/-!
# Bystander — machines that hear what is not meant for them

A frame decoder that hears the frames of another protocol may begin to read one of its own.  It emits
nothing as long as something comes in time that breaks the frame off:

- `run_silent` : no input leads out of the silent states
- `Broken`     : the state bounds how many inputs have been read since the last one that broke a frame
-/

namespace Bystander

variable {σ ι ε : Type*} {step : σ → ι → σ × Option ε}

/-- Inputs with `P` keep a machine with the invariant silent. -/
theorem run_silent {inv : σ → Prop} {P : ι → Prop}
    (hstep : ∀ s i, inv s → P i → inv (step s i).1 ∧ (step s i).2 = none) {s : σ} (hs : inv s)
    {is : List ι} (his : ∀ i ∈ is, P i) :
    inv (Mealy.final step s is) ∧ Mealy.events step s is = [] := by
  induction is generalizing s with
  | nil => exact ⟨hs, rfl⟩
  | cons i is ih =>
      rcases hstep s i hs (his i List.mem_cons_self) with ⟨hnext, hquiet⟩
      rcases ih hnext fun j hj => his j (List.mem_cons_of_mem i hj) with ⟨hfinal, hrest⟩
      rw [Mealy.final_cons, Mealy.events_cons, hquiet, hrest]
      exact ⟨hfinal, rfl⟩

/-- Up to a depth of `N` an input with `P` makes the machine emit nothing and takes it one deeper at
most, and one that is `bad` takes it back. -/
structure Broken (step : σ → ι → σ × Option ε) (inv : σ → Prop) (depth : σ → ℕ) (P bad : ι → Prop)
    (N : ℕ) : Prop where
  step_inv : ∀ s i, inv s → P i → depth s < N → inv (step s i).1
  quiet : ∀ s i, inv s → P i → depth s < N → (step s i).2 = none
  deeper : ∀ s i, inv s → P i → depth s < N → depth (step s i).1 ≤ depth s + 1
  back : ∀ s i, inv s → P i → bad i → depth s < N → depth (step s i).1 ≤ 1

variable {inv : σ → Prop} {depth : σ → ℕ} {P bad : ι → Prop} {N L : ℕ} {s : σ}

/-- A few inputs, whatever they are. -/
theorem Broken.run_short (h : Broken step inv depth P bad N) (hs : inv s) {w : List ι}
    (hw : ∀ i ∈ w, P i) (hlen : depth s + w.length ≤ N) :
    inv (Mealy.final step s w) ∧ depth (Mealy.final step s w) ≤ depth s + w.length ∧
      Mealy.events step s w = [] := by
  induction w generalizing s with
  | nil => exact ⟨hs, Nat.le_refl _, rfl⟩
  | cons i w ih =>
      rw [List.length_cons] at hlen
      have hi := hw i List.mem_cons_self
      have hdepth : depth s < N := by omega
      have hdeeper := h.deeper s i hs hi hdepth
      rcases ih (h.step_inv s i hs hi hdepth) (fun j hj => hw j (List.mem_cons_of_mem i hj))
        (by omega) with ⟨hinv, hle, hquiet⟩
      rw [Mealy.final_cons, Mealy.events_cons, h.quiet s i hs hi hdepth, hquiet, List.length_cons]
      exact ⟨hinv, by omega, rfl⟩

/-- A block with a bad input does not take the machine deeper than its length. -/
theorem Broken.run_block (h : Broken step inv depth P bad N) (hL : 2 * L ≤ N) (hs : inv s)
    (hdepth : depth s ≤ L) {w : List ι} (hw : ∀ i ∈ w, P i) (hbad : ∃ i ∈ w, bad i)
    (hlen : w.length ≤ L) :
    inv (Mealy.final step s w) ∧ depth (Mealy.final step s w) ≤ L ∧ Mealy.events step s w = [] := by
  rcases hbad with ⟨i, hi, hbad⟩
  rcases List.append_of_mem hi with ⟨pre, post, rfl⟩
  rw [List.length_append, List.length_cons] at hlen
  -- the inputs before the bad one, this one, and those behind it
  rcases h.run_short hs (fun j hj => hw j (List.mem_append_left _ hj)) (by omega) with
    ⟨hpre, hpredepth, hprequiet⟩
  have hlt : depth (Mealy.final step s pre) < N := by omega
  have hPi := hw i hi
  have hback := h.back _ i hpre hPi hbad hlt
  rcases h.run_short (h.step_inv _ i hpre hPi hlt)
    (fun j hj => hw j (List.mem_append_right _ (List.mem_cons_of_mem i hj))) (by omega) with
    ⟨hpost, hpostdepth, hpostquiet⟩
  rw [Mealy.final_append, Mealy.events_append, Mealy.final_cons, Mealy.events_cons, hprequiet,
    h.quiet _ i hpre hPi hlt, hpostquiet]
  exact ⟨hpost, by omega, rfl⟩

/-- Blocks with a bad input each. -/
theorem Broken.run_blocks (h : Broken step inv depth P bad N) (hL : 2 * L ≤ N) (hs : inv s)
    (hdepth : depth s ≤ L) {ws : List (List ι)}
    (hws : ∀ w ∈ ws, (∀ i ∈ w, P i) ∧ (∃ i ∈ w, bad i) ∧ w.length ≤ L) :
    inv (Mealy.final step s ws.flatten) ∧ depth (Mealy.final step s ws.flatten) ≤ L ∧
      Mealy.events step s ws.flatten = [] := by
  induction ws generalizing s with
  | nil => exact ⟨hs, hdepth, rfl⟩
  | cons w ws ih =>
      rcases hws w List.mem_cons_self with ⟨hw, hbad, hlen⟩
      rcases h.run_block hL hs hdepth hw hbad hlen with ⟨hinv, hle, hquiet⟩
      rcases ih hinv hle fun v hv => hws v (List.mem_cons_of_mem w hv) with
        ⟨hfinal, hfinaldepth, hrest⟩
      rw [List.flatten_cons, Mealy.final_append, Mealy.events_append, hquiet, hrest]
      exact ⟨hfinal, hfinaldepth, rfl⟩

end Bystander
