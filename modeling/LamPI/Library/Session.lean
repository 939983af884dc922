import LamPI.Library.Mealy

/-!
# Session — machines that wait for a gap and then read frames back to back

An idle machine waits for a gap.  The gap opens a session, which fixes the parameters by which the
machine then reads one frame after the other, until it gives up.

- `Since` : the part of a run since the gap that opened the session
- `Laws`  : what one input does to such a machine
- `Kept`  : what a run has done, read off its state

A session ends without a word when an input fits no frame; the law says that every event ends a
frame, and that nothing but well-formed frames lies between the gap and the event.
-/

namespace Session

variable {σ ι ε ρ : Type*}

/-- The run `past` from `s₀` ends with `rest`, read in the session that `gap` opened. -/
structure Since (step : σ → ι → σ × Option ε) (idle : σ → Prop) (opens : ι → Prop) (s₀ : σ)
    (past before : List ι) (gap : ι) (rest : List ι) : Prop where
  split : past = before ++ gap :: rest
  waited : idle (Mealy.final step s₀ before)
  opened : opens gap
  awake : ∀ w i w', rest = w ++ i :: w' → ¬idle (Mealy.final step s₀ (before ++ gap :: w))

/-- What an input does to a machine that keeps `inv`: `reading q u` are the states in a frame, after
`u`; `counted q frames` says what the frames of the session have done to the state, `emits q frames`
what an event at the end of the last of them says. -/
structure Laws (step : σ → ι → σ × Option ε) (inv idle lost : σ → Prop) (opens : ι → Prop)
    (tune : ι → ρ) (reading : ρ → List ι → σ → Prop) (frame : ρ → List ι → Prop)
    (counted : ρ → List (List ι) → σ → Prop) (emits : ρ → List (List ι) → ε → Prop) : Prop where
  inv_step : ∀ s i, inv s → inv (step s i).1
  not_idle : ∀ q u s, reading q u s → ¬idle s
  idle_step : ∀ s i, inv s → idle s → (step s i).2 = none ∧
    (idle (step s i).1 ∨
      opens i ∧ reading (tune i) [] (step s i).1 ∧ counted (tune i) [] (step s i).1)
  lost_step : ∀ s i, inv s → lost s → (step s i).2 = none ∧
    (idle (step s i).1 ∨ lost (step s i).1)
  reading_step : ∀ q frames u s i, inv s → reading q u s → counted q frames s →
    ((step s i).2 = none ∧
      (idle (step s i).1 ∨ lost (step s i).1 ∨
        reading q (u ++ [i]) (step s i).1 ∧ counted q frames (step s i).1)) ∨
    (frame q (u ++ [i]) ∧ (∀ e, (step s i).2 = some e → emits q (frames ++ [u ++ [i]]) e) ∧
      (idle (step s i).1 ∨
        reading q [] (step s i).1 ∧ counted q (frames ++ [u ++ [i]]) (step s i).1))

variable {step : σ → ι → σ × Option ε} {inv idle lost : σ → Prop} {opens : ι → Prop}
  {tune : ι → ρ} {reading : ρ → List ι → σ → Prop} {frame : ρ → List ι → Prop}
  {counted : ρ → List (List ι) → σ → Prop} {emits : ρ → List (List ι) → ε → Prop} {s₀ : σ}

/-- A gap that an idle machine takes opens a session. -/
theorem Since.opening {past : List ι} {gap : ι} (hidle : idle (Mealy.final step s₀ past))
    (hopens : opens gap) : Since step idle opens s₀ (past ++ [gap]) past gap [] := by
  refine ⟨rfl, hidle, hopens, ?_⟩
  intro w i w' h
  exact absurd h (by simp)

/-- The session goes on as long as the machine is not idle. -/
theorem Since.extend {past before rest : List ι} {gap : ι}
    (h : Since step idle opens s₀ past before gap rest)
    (hawake : ¬idle (Mealy.final step s₀ past)) (i : ι) :
    Since step idle opens s₀ (past ++ [i]) before gap (rest ++ [i]) := by
  refine ⟨?_, h.waited, h.opened, ?_⟩
  · rw [h.split, List.append_assoc, List.cons_append]
  · intro w j w' hrest
    rcases List.eq_nil_or_concat w' with rfl | ⟨v, k, rfl⟩
    · -- the new input came last
      have hw : rest = w := (List.append_inj' hrest rfl).1
      rw [← hw, ← h.split]
      exact hawake
    · have hw : rest = w ++ j :: v := by
        have hsplit : rest ++ [i] = (w ++ j :: v) ++ [k] := by
          rw [hrest]
          simp
        exact (List.append_inj' hsplit rfl).1
      exact h.awake w j v hw

/-- What a run `past` has done: the machine is in a frame of the current session, after nothing but
well-formed frames, unless it waits or is lost. -/
def Kept (step : σ → ι → σ × Option ε) (idle lost : σ → Prop) (opens : ι → Prop) (tune : ι → ρ)
    (reading : ρ → List ι → σ → Prop) (frame : ρ → List ι → Prop)
    (counted : ρ → List (List ι) → σ → Prop) (s₀ : σ) (past : List ι) (s : σ) : Prop :=
  idle s ∨ lost s ∨ ∃ before gap frames u,
    Since step idle opens s₀ past before gap (frames.flatten ++ u) ∧
      (∀ f ∈ frames, frame (tune gap) f) ∧ reading (tune gap) u s ∧ counted (tune gap) frames s

variable (laws : Laws step inv idle lost opens tune reading frame counted emits)

include laws in
/-- One input, in a machine that has done what `Kept` says. -/
theorem Laws.step_kept {past : List ι} (hinv : inv (Mealy.final step s₀ past))
    (h : Kept step idle lost opens tune reading frame counted s₀ past (Mealy.final step s₀ past))
    (i : ι) :
    Kept step idle lost opens tune reading frame counted s₀ (past ++ [i])
        (step (Mealy.final step s₀ past) i).1 ∧
      ∀ e, (step (Mealy.final step s₀ past) i).2 = some e → ∃ before gap frames,
        Since step idle opens s₀ (past ++ [i]) before gap frames.flatten ∧
          (∀ f ∈ frames, frame (tune gap) f) ∧ emits (tune gap) frames e := by
  rcases h with hidle | hlost | ⟨before, gap, frames, u, hsince, hframes, hreading, hcounted⟩
  · -- it waits, and the input may be a gap
    rcases laws.idle_step _ i hinv hidle with ⟨hquiet, hnext⟩
    refine ⟨?_, fun e he => by rw [hquiet] at he; cases he⟩
    rcases hnext with hidle' | ⟨hopens, hreading, hcounted⟩
    · exact Or.inl hidle'
    · exact Or.inr (Or.inr ⟨past, i, [], [], Since.opening hidle hopens, by simp, hreading,
        hcounted⟩)
  · -- it is lost, and cannot open a session
    rcases laws.lost_step _ i hinv hlost with ⟨hquiet, hnext⟩
    refine ⟨?_, fun e he => by rw [hquiet] at he; cases he⟩
    rcases hnext with hidle' | hlost'
    · exact Or.inl hidle'
    · exact Or.inr (Or.inl hlost')
  · -- it reads, and the input may end a frame
    have hmore := hsince.extend (laws.not_idle _ _ _ hreading) i
    rw [List.append_assoc] at hmore
    have hflat : (frames ++ [u ++ [i]]).flatten = frames.flatten ++ (u ++ [i]) := by simp
    rcases laws.reading_step _ frames u _ i hinv hreading hcounted with
      ⟨hquiet, hnext⟩ | ⟨hframe, hemits, hnext⟩
    · refine ⟨?_, fun e he => by rw [hquiet] at he; cases he⟩
      rcases hnext with hidle' | hlost' | ⟨hreading', hcounted'⟩
      · exact Or.inl hidle'
      · exact Or.inr (Or.inl hlost')
      · exact Or.inr (Or.inr ⟨before, gap, frames, u ++ [i], hmore, hframes, hreading', hcounted'⟩)
    · have hall : ∀ f ∈ frames ++ [u ++ [i]], frame (tune gap) f := by
        intro f hf
        rcases List.mem_append.1 hf with hf | hf
        · exact hframes f hf
        · rw [List.mem_singleton.1 hf]
          exact hframe
      constructor
      · rcases hnext with hidle' | ⟨hreading', hcounted'⟩
        · exact Or.inl hidle'
        · refine Or.inr (Or.inr ⟨before, gap, frames ++ [u ++ [i]], [], ?_, hall, hreading',
            hcounted'⟩)
          rw [List.append_nil, hflat]
          exact hmore
      · intro e he
        refine ⟨before, gap, frames ++ [u ++ [i]], ?_, hall, hemits e he⟩
        rw [hflat]
        exact hmore

include laws in
/-- Every run from an idle state does what `Kept` says. -/
theorem Laws.run_kept (hinv : inv s₀) (hidle : idle s₀) (past : List ι) :
    inv (Mealy.final step s₀ past) ∧
      Kept step idle lost opens tune reading frame counted s₀ past
        (Mealy.final step s₀ past) := by
  induction past using List.reverseRecOn with
  | nil => exact ⟨hinv, Or.inl hidle⟩
  | append_singleton past i ih =>
      rw [Mealy.final_concat]
      exact ⟨laws.inv_step _ i ih.1, (laws.step_kept ih.1 ih.2 i).1⟩

include laws in
/-- Every event ends a session of well-formed frames back to back, and says what they say. -/
theorem Laws.event (hinv : inv s₀) (hidle : idle s₀) {past : List ι} {i : ι} {e : ε}
    (he : (step (Mealy.final step s₀ past) i).2 = some e) :
    ∃ before gap frames, Since step idle opens s₀ (past ++ [i]) before gap frames.flatten ∧
      (∀ f ∈ frames, frame (tune gap) f) ∧ emits (tune gap) frames e := by
  rcases laws.run_kept hinv hidle past with ⟨hinv', hkept⟩
  exact (laws.step_kept hinv' hkept i).2 e he

end Session
