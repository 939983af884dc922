import LamPI.Kaku.RoundTrip
import LamPI.Library.Bystander

/-!
# The KlikAanKlikUit receiver as a bystander

The decoder takes every long interval for a stop gap and derives its thresholds from it.  The start
pulse behind the gap has a low half of seven periods or more; if no interval of a transmission is so
long, the decoder gives up.  And if all long intervals are about the same, each of them is too long for
a part of the frame that the one before began.
-/

namespace LamPI
namespace Kaku

open PulseLine Bystander

variable {b : Board} {s : Decoder} {gap gap' d : ℕ}

/-! ## The decoder -/

/-- A decoder that reads a frame has been synchronised by a gap between `gap` and `gap'`. -/
def Decoder.Misled (b : Board) (gap gap' : ℕ) (s : Decoder) : Prop :=
  -1 ≤ s.state ∧ (s.state ≠ -1 → ∃ q, gap / 40 ≤ q ∧ 40 * q ≤ gap' ∧ s.Tuned b q)

/-- The intervals are short, or gaps of about the same length. -/
def Heard (gap gap' d : ℕ) : Prop := d ≤ 4800 ∨ gap ≤ d ∧ d ≤ gap'

def depth (s : Decoder) : ℕ := (s.state + 1).toNat

theorem misled_decode (hs : s.Misled b gap gap') (hgap' : gap' < 65536) (hd : Heard gap gap' d)
    (hdepth : depth s < 132) :
    (decode b s d).1.Misled b gap gap' ∧ (decode b s d).2 = none ∧
      depth (decode b s d).1 ≤ depth s + 1 := by
  rcases hs with ⟨hlo, htuned⟩
  unfold depth at *
  have hstate : s.state < 131 := by omega
  have hnext : Int.bmod (s.state + 1) 65536 = s.state + 1 := by
    rw [Int.bmod_eq_of_le (by omega) (by omega)]
  have houtcome := decode_outcome b s d
  generalize decode b s d = r at houtcome ⊢
  cases houtcome with
  | idle hs hd => exact ⟨⟨hlo, htuned⟩, rfl, Nat.le_succ _⟩
  | sync hs hsync =>
      have hzero : (advance (synchronise b s d)).1.state = 0 := by
        rw [advance, synchronise]
        simp only [hs]
        rfl
      have hlong : gap ≤ d ∧ d ≤ gap' := hd.resolve_left (Nat.not_le.2 hsync)
      have hq : b.uint (d / 40) = d / 40 := b.uint_of_lt (by omega)
      refine ⟨⟨by omega, fun _ => ⟨b.uint (d / 40), ?_, ?_, rfl, rfl, rfl, rfl, rfl⟩⟩, rfl, by omega⟩
      · omega
      · omega
  | reset hs rb c hc hdim =>
      exact ⟨⟨le_rfl, fun h => absurd rfl h⟩, rfl, by simp⟩
  | advance hs rb c hc hdim hstop =>
      rcases htuned hs with ⟨q, hq, hq', ht⟩
      clear htuned
      refine ⟨⟨?_, fun _ => ⟨q, hq, hq', hc.trans ht.1, ht.2, ht.3, ht.4, ht.5⟩⟩, rfl, ?_⟩
      · simp only [advance, hnext]
        omega
      · simp only [advance, hnext]
        omega
  | complete hs rb => omega

/-- A gap within a frame is too long for all that the frame may go on with. -/
theorem decode_gap (hs : s.Misled b gap gap') (hgap' : gap' < 65536) (hle : gap' ≤ 2 * gap)
    (hgap : 0 < gap) (hd : gap ≤ d) (hne : s.state ≠ -1) (hdepth : depth s < 132) :
    (decode b s d).1.state = -1 := by
  rcases hs with ⟨hlo, htuned⟩
  rcases htuned hne with ⟨q, -, hq, ht⟩
  clear htuned
  have hu : ∀ {n : ℕ}, n < 65536 → b.uint n = n := fun h => b.uint_of_lt h
  unfold depth at hdepth
  have hmax1 : s.max1Period = q * 3 := ht.max1Period.trans (hu (by omega))
  have hmax5 : s.max5Period = q * 8 := ht.max5Period.trans (hu (by omega))
  rw [decode, if_neg hne]
  by_cases h0 : s.state = 0
  · rw [if_pos h0, if_pos (by omega)]
    rfl
  rw [if_neg h0]
  by_cases h1 : s.state = 1
  · have h15 : b.uint (15 * s.receivedCode.period) < d := by
      rw [ht.period, hu (by omega)]
      omega
    rw [if_pos h1, if_pos (Or.inr h15)]
    rfl
  -- no part, and not in one of the two states that read a stop gap
  rw [if_neg h1, if_pos (by omega), decodePart, if_neg (by omega), if_neg (by omega),
    if_neg (by omega)]
  rfl

/-- A gap breaks off the frame that the gap before has begun. -/
theorem broken_decode (b : Board) (hgap' : gap' < 65536) (hle : gap' ≤ 2 * gap) (hgap : 0 < gap) :
    Broken (decode b) (Decoder.Misled b gap gap') depth (Heard gap gap') (fun d => gap ≤ d) 132 := by
  have hstep : ∀ s d, Decoder.Misled b gap gap' s → Heard gap gap' d → depth s < 132 →
      (decode b s d).1.Misled b gap gap' ∧ (decode b s d).2 = none ∧
        depth (decode b s d).1 ≤ depth s + 1 :=
    fun s d hs hd hdepth => misled_decode hs hgap' hd hdepth
  refine ⟨fun s d hs hd h => (hstep s d hs hd h).1, fun s d hs hd h => (hstep s d hs hd h).2.1,
    fun s d hs hd h => (hstep s d hs hd h).2.2, ?_⟩
  intro s d hs hd hbad h
  by_cases hidle : s.state = -1
  · have hdepth := (hstep s d hs hd h).2.2
    have hzero : depth s = 0 := by simp [depth, hidle]
    omega
  · rw [depth, decode_gap hs hgap' hle hgap hbad hidle h]
    decide

/-- Without an interval of seven periods the decoder does not get beyond the start pulse. -/
theorem silent_of_narrow (hs : s.state = -1) (hgap' : gap' < 65536) (hle : gap' ≤ 2 * gap)
    (hgap : 40 ≤ gap) {ds : List ℕ}
    (hds : ∀ d ∈ ds, Heard gap gap' d ∧ (d < 7 * (gap / 40) ∨ gap ≤ d)) :
    Mealy.events (decode b) s ds = [] := by
  suffices hstep : ∀ s d, Decoder.Misled b gap gap' s ∧ s.state ≤ 1 →
      Heard gap gap' d ∧ (d < 7 * (gap / 40) ∨ gap ≤ d) →
      ((decode b s d).1.Misled b gap gap' ∧ (decode b s d).1.state ≤ 1) ∧
        (decode b s d).2 = none from
    (run_silent hstep ⟨⟨hs.ge, fun hne => absurd hs hne⟩, by omega⟩ hds).2
  rintro s d ⟨hmisled, hstate⟩ ⟨hheard, hnarrow⟩
  have hdepth : depth s < 132 := by
    unfold depth
    omega
  rcases misled_decode hmisled hgap' hheard hdepth with ⟨hnext, hquiet, hdeeper⟩
  refine ⟨⟨hnext, ?_⟩, hquiet⟩
  by_cases h1 : s.state = 1
  · rcases hnarrow with hnarrow | hnarrow
    · rcases hmisled.2 (by omega) with ⟨q, hq, hq', ht⟩
      have h7 : d < b.uint (7 * s.receivedCode.period) := by
        rw [ht.period, b.uint_of_lt (by omega)]
        omega
      rw [decode, if_neg (by omega), if_neg (by omega), if_pos h1, if_pos (Or.inl h7)]
      exact Int.le_of_lt (by decide : (-1 : ℤ) < 1)
    · rw [decode_gap hmisled hgap' hle (by omega) hnarrow (by omega) hdepth]
      decide
  · have hlo := hmisled.1
    unfold depth at hdeeper
    have hlo' := hnext.1
    clear hmisled hnext
    omega

/-! ## The handler -/

/-- A receiver that waits, and to which the edge at `t` is no end of a gap. -/
structure Listening (b : Board) (s : State) (t : ℕ) : Prop where
  enabled : s.enabled = true
  state : s.decoder.state = -1
  skip : s.lowPass.skip = false
  pending : b.uint (s.lowPass.edge2 - s.lowPass.edge0).toNat ≤ 4800
  pause : b.uint (micros t - s.lowPass.edge2).toNat ≤ 4800

variable {r : State} {t m last : ℕ} {ds : List ℕ}

/-- While no pulse is shorter than what the filter lets through, the decoder gets the transmission. -/
theorem Listening.events_eq (h : Listening b r t) (hgap' : gap' < 65536) (hm : 3 * gap' ≤ 400 * m)
    (hds : ∀ d ∈ ds ++ [last], m ≤ d ∧ d ≤ gap') :
    Mealy.events (interruptHandler b) r (stamps t (0 :: (ds ++ [last]))) =
      Mealy.events (decode b) r.decoder ds := by
  refine Filtered.events_first (D := pulseDecoder b) (I := Open m) (m := m) h.enabled h.skip
    (decide_eq_false (by rw [h.state]; decide)) (fun hne => absurd h.state hne) ?_
    (decode_idle h.state h.pending) (decode_idle h.state h.pause) ?_ ?_
  · intro dec hopen hactive
    have hnonneg : 0 ≤ dec.state := of_decide_eq_true hactive
    exact hopen (by omega)
  · intro dec d hd hopen
    refine open_decode (fun hgap => ?_) hopen
    rcases List.mem_cons.1 hd with rfl | hd
    · exact absurd h.pause (Nat.not_le.2 hgap)
    · have hle := (hds d hd).2
      omega
  · intro d hd
    have hle := hds d hd
    omega

end Kaku
end LamPI
