import LamPI.Receiver
import LamPI.Library.Scanner

/-!
# Windows — the part of a run that is a frame

A frame decoder that tracks a scanner completes a frame at the end of a window and nowhere else.
For the handlers this says which of the measured intervals an edge makes a frame of.
-/

namespace LamPI

open PulseLine

namespace Sampled

variable {δ γ π : Type}

/-- Every part of the input that the receiver, being between frames, reads as a complete frame
satisfies `Q`. -/
def EveryFrame (next : π → ℕ → Scanner.Move π) (start : π → Prop)
    (decode : δ → ℕ → δ × Option (Completion γ)) (pos : δ → π) (Q : List ℕ → Prop)
    (s : Sampled δ) (times : List ℕ) : Prop :=
  ∀ before w post, measured s.edge2 times = before ++ (w ++ post) →
    Scanner.Window next start decode pos s.decoder before w → Q w

/-- Every edge that calls the callback ends a frame that satisfies `Q`. -/
def EveryCallback (next : π → ℕ → Scanner.Move π) (start : π → Prop)
    (decode : δ → ℕ → δ × Option (Completion γ)) (pos : δ → π) (Q : List ℕ → Prop)
    (s : Sampled δ) (times : List ℕ) : Prop :=
  ∀ pre t post c, times = pre ++ t :: post →
    (onEdge decode (Mealy.final (onEdge decode) s pre) t).2 = some ⟨c, true⟩ →
      ∃ before w, measured s.edge2 (pre ++ [t]) = before ++ w ∧
        Scanner.Window next start decode pos s.decoder before w ∧ Q w

variable {next : π → ℕ → Scanner.Move π} {start : π → Prop}
  {decode : δ → ℕ → δ × Option (Completion γ)} {pos : δ → π} {inv : δ → Prop}
  {Q : List ℕ → Prop} {s : Sampled δ} {times : List ℕ}

/-- The intervals that an edge at which a frame is completed ends, and the one event among them. -/
theorem window_of_event (T : Scanner.Tracks next start decode pos inv)
    (henabled : s.enabled = true) (hinv : inv s.decoder) (hstart : start (pos s.decoder))
    {pre : List ℕ} {t : ℕ} {e : Completion γ}
    (he : (onEdge decode (Mealy.final (onEdge decode) s pre) t).2 = some e) :
    ∃ before w, measured s.edge2 (pre ++ [t]) = before ++ w ∧
      Scanner.Window next start decode pos s.decoder before w ∧
      Mealy.events decode (Mealy.final decode s.decoder before) w = [e] := by
  rcases onEdge_last henabled pre t with ⟨gap, hgap, hout⟩
  rw [hout] at he
  rcases T.window_of_emits hinv hstart he with ⟨before, w, hsplit, hwindow, hevents⟩
  rw [← hgap] at hsplit
  exact ⟨before, w, hsplit, hwindow, hevents⟩

/-- A receiver only reads what is on the air. -/
theorem everyCallback_of_everyFrame (T : Scanner.Tracks next start decode pos inv)
    (henabled : s.enabled = true) (hinv : inv s.decoder) (hstart : start (pos s.decoder))
    (h : EveryFrame next start decode pos Q s times) :
    EveryCallback next start decode pos Q s times := by
  intro pre t post c htimes hcall
  rcases window_of_event T henabled hinv hstart hcall with ⟨before, w, hsplit, hwindow, -⟩
  refine ⟨before, w, hsplit, hwindow, ?_⟩
  rcases measured_append s.edge2 (pre ++ [t]) post with ⟨rest, hrest⟩
  apply h before w rest _ hwindow
  rw [htimes, ← List.append_assoc, ← hsplit, ← hrest, List.append_assoc, List.singleton_append]

/-- On a run that is one frame, whose end calls back, both say the same. -/
theorem everyCallback_iff (T : Scanner.Tracks next start decode pos inv)
    (henabled : s.enabled = true) (hinv : inv s.decoder) (hstart : start (pos s.decoder))
    (hcomplete : Scanner.Completes next (pos s.decoder) (measured s.edge2 times))
    (hcalled : ∀ e ∈ Mealy.events decode s.decoder (measured s.edge2 times),
      e.calledBack = true) :
    EveryCallback next start decode pos Q s times ↔ Q (measured s.edge2 times) := by
  have hwhole : Scanner.Window next start decode pos s.decoder [] (measured s.edge2 times) :=
    ⟨hstart, hcomplete⟩
  constructor
  · intro h
    rcases T.emits_of_completes hinv hcomplete with ⟨u, gap, e, hu, -, he⟩
    have hmem : e ∈ Mealy.events decode s.decoder (measured s.edge2 times) :=
      Mealy.mem_events_iff.2 ⟨u, gap, [], hu, he⟩
    have hcall := hcalled e hmem
    -- the last edge is the one that ends the frame
    rcases List.eq_nil_or_concat times with rfl | ⟨pre, t, rfl⟩
    · exact absurd rfl hcomplete.ne_nil
    · rcases onEdge_last henabled pre t with ⟨gap', hgap, hout⟩
      rw [List.concat_eq_append] at *
      rw [hgap] at hu
      rcases List.append_inj' hu rfl with ⟨rfl, hlast⟩
      injection hlast with hlast
      subst hlast
      rcases h pre t [] e.code rfl (by rw [hout, he, ← hcall]) with ⟨before, w, hw, hwindow, hQ⟩
      have hsame := T.window_unique hinv hwhole hwindow (by rw [List.nil_append, hw])
      rwa [hsame]
  · intro hQ
    apply everyCallback_of_everyFrame T henabled hinv hstart
    intro before w post hsplit hwindow
    rcases before with _ | ⟨d, before⟩
    · -- a window at the start is the whole run
      have hpost : post = [] := by
        refine hwindow.2.eq_nil_of_append ?_
        rw [← List.nil_append (w ++ post), ← hsplit]
        exact hcomplete
      rw [hsplit, hpost, List.nil_append, List.append_nil] at hQ
      exact hQ
    · -- a later one would start where the decoder is inside this one
      rw [hsplit] at hcomplete
      have hrest : w ++ post ≠ [] := fun h => hwindow.2.ne_nil (List.append_eq_nil_iff.1 h).1
      exact absurd hwindow.1
        (T.not_start_of_completes hinv (List.cons_ne_nil d before) hrest hcomplete)

end Sampled

end LamPI
