import LamPI.Quhwa.Receiver
import LamPI.Windows

/-!
# Quhwa bands

The outer range of the handler goes from the shortest 0 to the longest 1, and within it one
threshold tells the bits apart.  The lower limit of a 1 is defined, but no test uses it.
-/

namespace LamPI
namespace Quhwa

open PulseLine BigEndian

def min3Period : ℕ := 900

/-! ## Frames -/

def Takes (b : Board) (state : ℤ) (gap : ℕ) : Prop :=
  if state = -1 then Start b gap else min1Period ≤ gap ∧ gap ≤ max3Period

instance (b : Board) (state : ℤ) (gap : ℕ) : Decidable (Takes b state gap) := by
  unfold Takes Start
  infer_instance

def next (b : Board) (state : ℤ) (gap : ℕ) : Scanner.Move ℤ :=
  if Takes b state gap then if state + 1 = 35 then .done else .go (state + 1) else .abort

def Decoder.Running (s : Decoder) : Prop := -1 ≤ s.state ∧ s.state < 35

theorem init_running (minRepeats : ℕ) (edge2 : ULong) :
    (init minRepeats edge2).decoder.Running :=
  ⟨le_refl (-1 : ℤ), (by decide : (-1 : ℤ) < 35)⟩

def Waiting (state : ℤ) : Prop := state = -1

variable {b : Board} {s : Decoder} {gap : ℕ}

theorem decode_takes (h : s.Running) (htakes : Takes b s.state gap) :
    ∃ rb c, decode b s gap = advance { s with receivedBit := rb, receivedCode := c } := by
  unfold Takes at htakes
  unfold decode
  by_cases hidle : s.state = -1
  · rw [if_pos hidle] at htakes
    unfold Start at htakes
    rw [if_neg (by omega)]
    simp only [if_pos hidle, if_pos htakes]
    exact ⟨_, _, rfl⟩
  · rw [if_neg hidle] at htakes
    rw [if_neg (by omega)]
    simp only [if_neg hidle]
    by_cases h27 : s.state < 27
    · simp only [if_pos h27]
      exact ⟨_, _, rfl⟩
    · simp only [if_neg h27, if_pos h.2]
      exact ⟨_, _, rfl⟩

theorem decode_not_takes (h : s.Running) (htakes : ¬Takes b s.state gap) :
    (decode b s gap).1.state = -1 ∧ (decode b s gap).2 = none := by
  unfold Takes at htakes
  by_cases hidle : s.state = -1
  · rw [if_pos hidle] at htakes
    rw [decode_idle hidle htakes]
    exact ⟨hidle, rfl⟩
  · rw [if_neg hidle] at htakes
    have hfilter : 0 ≤ s.state ∧ (gap < min1Period ∨ max3Period < gap) := by
      have := h.1
      omega
    rw [decode, if_pos hfilter]
    exact ⟨rfl, rfl⟩

theorem tracks_decode (b : Board) :
    Scanner.Tracks (next b) Waiting (decode b) Decoder.state Decoder.Running := by
  refine ⟨?_, ?_, ?_, ?_⟩
  · intro s gap h
    by_cases htakes : Takes b s.state gap
    · rcases decode_takes h htakes with ⟨rb, c, hstep⟩
      rw [hstep, advance]
      split
      · exact ⟨le_refl (-1 : ℤ), (by decide : (-1 : ℤ) < 35)⟩
      · next hnot =>
        have hlo : -1 ≤ s.state + 1 := by have := h.1; omega
        have hhi : s.state + 1 < 35 := by have := h.2; simp only at hnot; omega
        exact ⟨hlo, hhi⟩
    · have hstate := (decode_not_takes h htakes).1
      exact ⟨hstate.ge, by omega⟩
  · intro s gap h hnext
    have htakes : ¬Takes b s.state gap := by
      intro htakes
      rw [next, if_pos htakes] at hnext
      split at hnext <;> cases hnext
    exact decode_not_takes h htakes
  · intro s gap q h hnext
    unfold next at hnext
    split at hnext
    · next htakes =>
      split at hnext
      · cases hnext
      · next hnot =>
        injection hnext with hq
        rcases decode_takes h htakes with ⟨rb, c, hstep⟩
        -- a state that has moved on is not the one that waits for a start pulse
        have hwaiting : ¬Waiting q := by
          intro hq'
          have := h.1
          unfold Waiting at hq'
          omega
        rw [hstep, advance, if_neg hnot]
        exact ⟨hwaiting, hq, rfl⟩
    · cases hnext
  · intro s gap h hnext
    unfold next at hnext
    split at hnext
    · next htakes =>
      split at hnext
      · next hend =>
        rcases decode_takes h htakes with ⟨rb, c, hstep⟩
        rw [hstep, advance, if_pos hend]
        exact ⟨rfl, _, rfl⟩
      · cases hnext
    · cases hnext

/-- The intervals of a frame behind the start pulse. -/
theorem bits_of_completes {k : ℕ} {ds : List ℕ} (h : Scanner.Completes (next b) k ds) :
    k + ds.length = 35 ∧ ∀ d ∈ ds, min1Period ≤ d ∧ d ≤ max3Period := by
  induction ds generalizing k with
  | nil => exact absurd rfl h.ne_nil
  | cons d ds ih =>
      have htakes : Takes b k d := by
        by_contra hnot
        rw [Scanner.Completes, next, if_neg hnot] at h
        exact h
      have hrange := htakes
      rw [Takes, if_neg (by omega)] at hrange
      -- the 35th interval is the last one
      by_cases hend : (k : ℤ) + 1 = 35
      · have hdone : next b k d = .done := by rw [next, if_pos htakes, if_pos hend]
        rw [Scanner.completes_cons_done hdone] at h
        subst h
        refine ⟨by rw [List.length_singleton]; omega, fun x hx => ?_⟩
        rw [List.mem_singleton.1 hx]
        exact hrange
      · have hgo : next b k d = .go ((k + 1 : ℕ) : ℤ) := by
          rw [next, if_pos htakes, if_neg hend]
          rfl
        rw [Scanner.completes_cons_go hgo] at h
        rcases ih h with ⟨hlen, hbits⟩
        refine ⟨by rw [List.length_cons]; omega, fun x hx => ?_⟩
        rcases List.mem_cons.1 hx with rfl | hx
        · exact hrange
        · exact hbits x hx

/-- A frame is a start pulse and 35 intervals, and its code that of their bits. -/
theorem frame_of_completes {w : List ℕ} (hs : s.state = -1)
    (h : Scanner.Completes (next b) s.state w) :
    ∃ start ds, w = start :: ds ∧ ds.length = 35 ∧
      (∀ d ∈ ds, min1Period ≤ d ∧ d ≤ max3Period) ∧
      codes (Mealy.events (decode b) s w) = [frameCode (b.uint start) (ds.map bitOf)] := by
  rcases w with _ | ⟨start, ds⟩
  · exact absurd rfl h.ne_nil
  have htakes : Takes b s.state start := by
    by_contra hnot
    rw [Scanner.Completes, next, if_neg hnot] at h
    exact h
  have hgo : next b s.state start = .go ((0 : ℕ) : ℤ) := by
    rw [next, if_pos htakes, hs]
    rfl
  rw [Scanner.completes_cons_go hgo] at h
  rw [Takes, if_pos hs] at htakes
  rcases bits_of_completes h with ⟨hlen, hbits⟩
  -- what the range lets pass is a bit, whatever it is read as
  have hwords : List.Forall₂ Bit (ds.map bitOf) ds := by
    rw [List.forall₂_map_left_iff, List.forall₂_same]
    intro d hd
    exact ⟨(hbits d hd).1, (hbits d hd).2, rfl⟩
  have hevents := (run_frame hs htakes (by rw [List.length_map]; omega) hwords).2
  exact ⟨start, ds, rfl, by omega, hbits, by rw [hevents]; rfl⟩

/-! ## Bits by band -/

/-- The band that an interval of a bit lies in. -/
def Band : Bool → ℕ → Prop
  | false, d => min1Period ≤ d ∧ d ≤ max1Period
  | true, d => min3Period ≤ d ∧ d ≤ max3Period

/-- The intervals `ds` lie in the bands of 35 bits, and the code is that of the bits. -/
def Banded (c : Code) (ds : List ℕ) : Prop :=
  ∃ bs, List.Forall₂ Band bs ds ∧ c.address = ofBits (bs.take 27) ∧ c.unit = ofBits (bs.drop 27)

/-- An interval of a frame lies in the band of the bit that it is read as, unless it lies between
the bands, or on the threshold. -/
theorem band_bitOf_iff {d : ℕ} (hd : min1Period ≤ d ∧ d ≤ max3Period) :
    Band (bitOf d) d ↔ d < max1Period ∨ min3Period ≤ d := by
  unfold bitOf
  by_cases hshort : d < max1Period
  · simp only [hshort, not_true_eq_false, decide_false, Band, true_or, iff_true]
    exact ⟨hd.1, hshort.le⟩
  · simp only [hshort, not_false_eq_true, decide_true, Band, false_or]
    exact and_iff_left hd.2

theorem banded_iff {start : ℕ} {ds : List ℕ} (hlen : ds.length = 35)
    (hds : ∀ d ∈ ds, min1Period ≤ d ∧ d ≤ max3Period) :
    Banded (frameCode start (ds.map bitOf)) ds ↔ ∀ d ∈ ds, d < max1Period ∨ min3Period ≤ d := by
  have hbands : List.Forall₂ Band (ds.map bitOf) ds ↔
      ∀ d ∈ ds, d < max1Period ∨ min3Period ≤ d := by
    rw [List.forall₂_map_left_iff, List.forall₂_same]
    exact forall₂_congr fun d hd => band_bitOf_iff (hds d hd)
  rw [← hbands]
  constructor
  · rintro ⟨bs, hbs, haddress, hunit⟩
    -- the code determines the bits
    have hlen' : bs.length = 35 := hbs.length_eq.trans hlen
    have htake := ofBits_inj (by simp [hlen, hlen']) haddress
    have hdrop := ofBits_inj (by simp [hlen, hlen']) hunit
    have hsame : ds.map bitOf = bs := by
      rw [← List.take_append_drop 27 (ds.map bitOf), htake, hdrop, List.take_append_drop]
    rwa [hsame]
  · intro h
    exact ⟨_, h, rfl, rfl⟩

/-- In every run of a receiver, a completed frame lies in the bands of the bits it is read as
exactly if none of its intervals is from 450 µs up to 900 µs long. -/
theorem completed_banded_iff (b : Board) (minRepeats : ℕ) (edge2 : ULong) (pre : List ℕ) (t : ℕ)
    {e : Completion Code}
    (he : (interruptHandler b (Mealy.final (interruptHandler b) (init minRepeats edge2) pre) t).2 =
      some e) :
    ∃ before start ds, measured edge2 (pre ++ [t]) = before ++ start :: ds ∧ ds.length = 35 ∧
      Scanner.Window (next b) Waiting (decode b) Decoder.state (init minRepeats edge2).decoder
        before (start :: ds) ∧
      (Banded e.code ds ↔ ∀ d ∈ ds, ¬(450 ≤ d ∧ d < 900)) := by
  rcases Sampled.window_of_event (s := init minRepeats edge2) (tracks_decode b) rfl
      (init_running minRepeats edge2) rfl he with ⟨before, w, hsplit, hwindow, hevents⟩
  rcases frame_of_completes hwindow.1 hwindow.2 with ⟨start, ds, rfl, hlen, hds, hcode⟩
  refine ⟨before, start, ds, hsplit, hlen, hwindow, ?_⟩
  rw [hevents] at hcode
  have he' : e.code = frameCode (b.uint start) (ds.map bitOf) := List.singleton_injective hcode
  rw [he', banded_iff hlen hds]
  refine forall₂_congr fun d _ => ?_
  unfold max1Period min3Period
  omega

/-- A start pulse of 6000 µs at 6000, and 34 intervals of `width` µs. -/
def evenEdges (width : ℕ) : List ℕ := (List.range 35).map fun k => 6000 + width * k

/-- Zeros in their band. -/
theorem completed_banded_short :
    ∃ before start ds, measured (0 : ULong) (evenEdges 350 ++ [18250]) = before ++ start :: ds ∧
      ds.length = 35 ∧
      Scanner.Window (next .avr) Waiting (decode .avr) Decoder.state (init 1 0).decoder
        before (start :: ds) ∧
      (Banded (frameCode 6000 (List.replicate 35 false)) ds ↔
        ∀ d ∈ ds, ¬(450 ≤ d ∧ d < 900)) :=
  completed_banded_iff .avr 1 0 (evenEdges 350) 18250
    (e := ⟨frameCode 6000 (List.replicate 35 false), true⟩) (by decide +kernel)

/-- Intervals of 600 µs are in neither band, and are read as ones. -/
theorem not_completed_banded :
    ¬∀ (b : Board) (minRepeats : ℕ) (edge2 : ULong) (pre : List ℕ) (t : ℕ) (e : Completion Code),
      (interruptHandler b (Mealy.final (interruptHandler b) (init minRepeats edge2) pre) t).2 =
        some e →
      ∃ before start ds, measured edge2 (pre ++ [t]) = before ++ start :: ds ∧ ds.length = 35 ∧
        Scanner.Window (next b) Waiting (decode b) Decoder.state (init minRepeats edge2).decoder
          before (start :: ds) ∧
        Banded e.code ds := by
  intro h
  rcases h .avr 1 0 (evenEdges 600) 27000 ⟨frameCode 6000 (List.replicate 35 true), true⟩
    (by decide +kernel) with ⟨before, start, ds, hsplit, hlen, hwindow, bs, hbands, -⟩
  -- the whole run is one frame
  have hwhole : Scanner.Window (next .avr) Waiting (decode .avr) Decoder.state (init 1 0).decoder
      [] (6000 :: List.replicate 35 600) := ⟨rfl, by decide +kernel⟩
  have hmeasured :
      measured (0 : ULong) (evenEdges 600 ++ [27000]) = 6000 :: List.replicate 35 600 := by
    decide +kernel
  have hsame := (tracks_decode .avr).window_unique (init_running 1 0) hwhole hwindow
    (by rw [List.nil_append, ← hsplit, hmeasured])
  injection hsame with _ hds
  rw [← hds] at hbands
  rw [List.replicate_succ] at hbands
  cases hbands with
  | @cons bit _ _ _ hband _ =>
      cases bit with
      | false => exact absurd hband.2 (by decide)
      | true => exact absurd hband.1 (by decide)

end Quhwa
end LamPI
