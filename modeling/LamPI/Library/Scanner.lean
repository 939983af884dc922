import LamPI.Library.Mealy

/-!
# Scanner — decoders that follow a frame by its position

A frame decoder keeps a position in the frame.  Each input makes it abort, go on, or finish:

- `Move`      : what an input does at a position
- `Completes` : the inputs that take a position to the end of a frame
- `Tracks`    : a Mealy machine that moves as a scanner says and emits exactly when a frame ends
- `Window`    : the part of a run that is one frame

The laws say that a tracking machine emits exactly at the ends of windows, and that the window of
an event is unique.
-/

namespace Scanner

variable {π σ ι ε : Type*}

/-- What an input does at a position of a frame. -/
inductive Move (π : Type*) where
  | abort
  | go (p : π)
  | done
  deriving DecidableEq, Repr

variable (next : π → ι → Move π)

/-- From position `p` the inputs lead to the end of the frame, and not beyond. -/
def Completes : π → List ι → Prop
  | _, [] => False
  | p, i :: is =>
      match next p i with
      | .abort => False
      | .go q => Completes q is
      | .done => is = []

variable {next}

theorem Completes.ne_nil {p : π} {is : List ι} (h : Completes next p is) : is ≠ [] := by
  rintro rfl
  exact h

theorem completes_cons_go {p q : π} {i : ι} (h : next p i = .go q) (is : List ι) :
    Completes next p (i :: is) ↔ Completes next q is := by
  simp only [Completes, h]

theorem completes_cons_done {p : π} {i : ι} (h : next p i = .done) (is : List ι) :
    Completes next p (i :: is) ↔ is = [] := by
  simp only [Completes, h]

instance decidableCompletes : (p : π) → (is : List ι) → Decidable (Completes next p is)
  | _, [] => isFalse id
  | p, i :: is =>
      match h : next p i with
      | .abort => isFalse (by simp only [Completes, h]; exact id)
      | .go q =>
          have := decidableCompletes q is
          decidable_of_iff (Completes next q is) (completes_cons_go h is).symm
      | .done => decidable_of_iff (is = []) (completes_cons_done h is).symm

/-- A complete frame cannot be continued to another one. -/
theorem Completes.eq_nil_of_append {p : π} {is js : List ι} (h : Completes next p is)
    (h' : Completes next p (is ++ js)) : js = [] := by
  induction is generalizing p with
  | nil => exact absurd rfl h.ne_nil
  | cons i is ih =>
      rw [List.cons_append] at h'
      rcases hnext : next p i with _ | q | _
      · simp only [Completes, hnext] at h
      · rw [completes_cons_go hnext] at h h'
        exact ih h h'
      · rw [completes_cons_done hnext] at h'
        exact (List.append_eq_nil_iff.1 h').2

/-! ## Machines that track a scanner -/

/-- A machine whose states, as long as they satisfy `inv`, have a position that the inputs move as
the scanner says; `start` holds of the positions between frames, and of no others. -/
structure Tracks (next : π → ι → Move π) (start : π → Prop) (step : σ → ι → σ × Option ε)
    (pos : σ → π) (inv : σ → Prop) : Prop where
  step_inv : ∀ s i, inv s → inv (step s i).1
  abort : ∀ s i, inv s → next (pos s) i = .abort →
    start (pos (step s i).1) ∧ (step s i).2 = none
  go : ∀ s i q, inv s → next (pos s) i = .go q →
    ¬start q ∧ pos (step s i).1 = q ∧ (step s i).2 = none
  done : ∀ s i, inv s → next (pos s) i = .done →
    start (pos (step s i).1) ∧ ∃ e, (step s i).2 = some e

variable {start : π → Prop} {step : σ → ι → σ × Option ε} {pos : σ → π} {inv : σ → Prop}

/-- Between `before` and the end of `w` the run reads one frame. -/
def Window (next : π → ι → Move π) (start : π → Prop) (step : σ → ι → σ × Option ε)
    (pos : σ → π) (s : σ) (before w : List ι) : Prop :=
  start (pos (Mealy.final step s before)) ∧ Completes next (pos (Mealy.final step s before)) w

variable {s : σ}

theorem Tracks.final_inv (T : Tracks next start step pos inv) (hs : inv s) (is : List ι) :
    inv (Mealy.final step s is) :=
  Mealy.final_invariant (fun t i h => T.step_inv t i h) hs is

/-- Inside a frame the position is no start. -/
theorem Tracks.not_start_of_completes (T : Tracks next start step pos inv) (hs : inv s)
    {u w : List ι} (hu : u ≠ []) (hw : w ≠ []) (h : Completes next (pos s) (u ++ w)) :
    ¬start (pos (Mealy.final step s u)) := by
  induction u generalizing s with
  | nil => exact absurd rfl hu
  | cons i u ih =>
      rw [List.cons_append] at h
      rcases hnext : next (pos s) i with _ | q | _
      · simp only [Completes, hnext] at h
      · rcases T.go s i q hs hnext with ⟨hq, hpos, -⟩
        rw [completes_cons_go hnext] at h
        rw [Mealy.final_cons]
        by_cases hu' : u = []
        · subst hu'
          rwa [Mealy.final_nil, hpos]
        · exact ih (T.step_inv s i hs) hu' (by rwa [hpos])
      · rw [completes_cons_done hnext] at h
        exact absurd (List.append_eq_nil_iff.1 h).2 hw

/-- The last input of a window, and no input before it, makes the machine emit. -/
theorem Tracks.emits_of_completes (T : Tracks next start step pos inv) (hs : inv s)
    {w : List ι} (h : Completes next (pos s) w) :
    ∃ u i e, w = u ++ [i] ∧ Mealy.events step s u = [] ∧
      (step (Mealy.final step s u) i).2 = some e := by
  induction w generalizing s with
  | nil => exact absurd rfl h.ne_nil
  | cons i w ih =>
      rcases hnext : next (pos s) i with _ | q | _
      · simp only [Completes, hnext] at h
      · rcases T.go s i q hs hnext with ⟨-, hpos, hquiet⟩
        rw [completes_cons_go hnext, ← hpos] at h
        rcases ih (T.step_inv s i hs) h with ⟨u, j, e, rfl, hu, he⟩
        refine ⟨i :: u, j, e, rfl, ?_, he⟩
        rw [Mealy.events_cons, hquiet, hu]
        rfl
      · rw [completes_cons_done hnext] at h
        subst h
        rcases T.done s i hs hnext with ⟨-, e, he⟩
        exact ⟨[], i, e, rfl, rfl, he⟩

/-- After any inputs the machine has read part of a frame since a start, and what is still
missing is what its position asks for. -/
theorem Tracks.exists_window (T : Tracks next start step pos inv) (hs : inv s)
    (hstart : start (pos s)) (past : List ι) :
    ∃ before u, past = before ++ u ∧ start (pos (Mealy.final step s before)) ∧
      ∀ w, Completes next (pos (Mealy.final step s past)) w →
        Completes next (pos (Mealy.final step s before)) (u ++ w) := by
  induction past using List.reverseRecOn with
  | nil => exact ⟨[], [], rfl, hstart, fun _ h => h⟩
  | append_singleton past i ih =>
      have hpast := T.final_inv hs past
      rw [Mealy.final_concat]
      -- an input that goes on extends the window; after the other two a new one begins
      rcases hnext : next (pos (Mealy.final step s past)) i with _ | q | _
      · rcases T.abort _ i hpast hnext with ⟨hidle, -⟩
        refine ⟨past ++ [i], [], (List.append_nil _).symm, ?_, fun w h => ?_⟩
        · rwa [Mealy.final_concat]
        · rwa [Mealy.final_concat]
      · rcases ih with ⟨before, u, hpast', hbefore, hrest⟩
        rcases T.go _ i q hpast hnext with ⟨-, hpos, -⟩
        refine ⟨before, u ++ [i], by rw [hpast', List.append_assoc], hbefore, fun w h => ?_⟩
        rw [List.append_assoc]
        apply hrest
        rw [List.singleton_append, completes_cons_go hnext, ← hpos]
        exact h
      · rcases T.done _ i hpast hnext with ⟨hidle, -⟩
        refine ⟨past ++ [i], [], (List.append_nil _).symm, ?_, fun w h => ?_⟩
        · rwa [Mealy.final_concat]
        · rwa [Mealy.final_concat]

/-- Every event ends a window, and is the only one in it. -/
theorem Tracks.window_of_emits (T : Tracks next start step pos inv) (hs : inv s)
    (hstart : start (pos s)) {past : List ι} {i : ι} {e : ε}
    (h : (step (Mealy.final step s past) i).2 = some e) :
    ∃ before w, past ++ [i] = before ++ w ∧ Window next start step pos s before w ∧
      Mealy.events step (Mealy.final step s before) w = [e] := by
  have hpast := T.final_inv hs past
  have hdone : next (pos (Mealy.final step s past)) i = .done := by
    rcases hnext : next (pos (Mealy.final step s past)) i with _ | q | _
    · rw [(T.abort _ i hpast hnext).2] at h
      cases h
    · rw [(T.go _ i q hpast hnext).2.2] at h
      cases h
    · rfl
  -- the window that is open then ends with this interval
  rcases T.exists_window hs hstart past with ⟨before, u, rfl, hbefore, hrest⟩
  have hcompletes := hrest [i] (by rw [completes_cons_done hdone])
  refine ⟨before, u ++ [i], List.append_assoc _ _ _, ⟨hbefore, hcompletes⟩, ?_⟩
  rcases T.emits_of_completes (T.final_inv hs before) hcompletes with ⟨u', j, e', hsplit, hu, he⟩
  obtain ⟨rfl, hj⟩ := List.append_inj' hsplit rfl
  obtain rfl : i = j := by simpa using hj
  rw [Mealy.final_append, he] at h
  rw [Mealy.events_append, hu, Mealy.events_cons, he, h]
  rfl

/-- Two windows with the same end are the same. -/
theorem Tracks.window_unique (T : Tracks next start step pos inv) (hs : inv s)
    {before before' w w' : List ι} (h : Window next start step pos s before w)
    (h' : Window next start step pos s before' w') (heq : before ++ w = before' ++ w') :
    w = w' := by
  have hsplit : ∀ {b b' v v' : List ι}, Window next start step pos s b v →
      Window next start step pos s b' v' → b ++ v = b' ++ v' → ∀ u, b' = b ++ u → u = [] := by
    intro b b' v v' hb hb' hbv u hu
    by_contra hne
    subst hu
    have hv : v = u ++ v' := by
      rw [List.append_assoc] at hbv
      exact List.append_cancel_left hbv
    subst hv
    -- the start of the second window lies inside the first one
    have hinside := T.not_start_of_completes (T.final_inv hs b) hne hb'.2.ne_nil hb.2
    rw [← Mealy.final_append] at hinside
    exact hinside hb'.1
  rcases List.append_eq_append_iff.1 heq with ⟨u, hu, hw⟩ | ⟨u, hu, hw⟩
  · rw [hsplit h h' heq u hu] at hw
    exact hw
  · rw [hsplit h' h heq.symm u hu] at hw
    exact hw.symm

end Scanner
