import LamPI.Kaku.Receiver
import LamPI.Remote.Receiver

/-!
# Two cores — a 16-bit and a 32-bit `unsigned int`

On the AVR boards a duration and every product of the period are cut to 16 bits.  A duration that
is decoded outside a frame is a single interval, but within a frame it may span edges that the
low-pass filter has dropped.  The two builds do the same as long as no comparison comes out
differently for what is left of a duration or a threshold.
-/

namespace LamPI

open PulseLine

variable {δ ε : Type}

/-- No interval between the edges has 65536 µs or more. -/
def Train (times : List ℕ) : Prop := times.IsChain fun t t' => t ≤ t' ∧ t' < t + 65536

instance (times : List ℕ) : Decidable (Train times) := by
  unfold Train
  infer_instance

/-- What the clock measures between two such edges. -/
theorem gap_lt {t t' : ℕ} (hle : t ≤ t') (hlt : t' < t + 65536) :
    (micros t' - micros t).toNat < 65536 := by
  obtain ⟨x, rfl⟩ := Nat.exists_eq_add_of_le hle
  calc
    (micros (t + x) - micros t).toNat = x := clock_sub t (by omega)
    _ < 65536 := Nat.lt_of_add_lt_add_left hlt

namespace Filtered

/-- The durations that are decoded along a run meet a condition on the decoder's state. -/
def Meets (b : Board) (D : PulseDecoder δ ε) (Same : δ → ℕ → Prop) : Filtered δ → List ℕ → Prop
  | _, [] => True
  | s, t :: ts =>
      (∀ d ∈ s.interval b D t, Same s.decoder d) ∧ Meets b D Same (s.onEdge b D t).1 ts

instance (b : Board) (D : PulseDecoder δ ε) (Same : δ → ℕ → Prop)
    [∀ s d, Decidable (Same s d)] : ∀ (s : Filtered δ) (ts : List ℕ),
      Decidable (s.Meets b D Same ts)
  | _, [] => inferInstanceAs (Decidable True)
  | s, t :: ts =>
      have := instDecidableMeets b D Same (s.onEdge b D t).1 ts
      inferInstanceAs (Decidable (_ ∧ _))

/-- The decoder `D` for 16 bits does what the decoder `D'` for 32 bits does, for durations of which
`Same` holds; `narrow` is what 16 bits make of a state, and `I` an invariant. -/
structure Narrows (D D' : PulseDecoder δ ε) (narrow : δ → δ) (I : δ → Prop)
    (Same : δ → ℕ → Prop) : Prop where
  active : ∀ s, D.active (narrow s) = D'.active s
  min1Period : ∀ s, D.min1Period (narrow s) = D'.min1Period s
  decode : ∀ s d, I s → (D'.active s = false → d < 65536) → Same s d →
    I (D'.decode s d).1 ∧
      D.decode (narrow s) (d % 65536) = (narrow (D'.decode s d).1, (D'.decode s d).2)

def map (f : δ → δ) (s : Filtered δ) : Filtered δ := { s with decoder := f s.decoder }

/-- What is known of the 32-bit handler after the edge at `e`: a duration that is decoded outside a
frame is that of one interval. -/
structure Measures (D : PulseDecoder δ ε) (I : δ → Prop) (s : Filtered δ) (e : ℕ) : Prop where
  enabled : s.enabled = true
  edge2 : s.lowPass.edge2 = micros e
  skip : s.lowPass.skip = true → D.active s.decoder = true
  single : D.active s.decoder = false → (s.lowPass.edge2 - s.lowPass.edge0).toNat < 65536
  decoder : I s.decoder

variable {D D' : PulseDecoder δ ε} {narrow : δ → δ} {I : δ → Prop} {Same : δ → ℕ → Prop}
  {s : Filtered δ} {e t : ℕ}

/-- The filter of the 16-bit handler does the same, and cuts the duration. -/
theorem Narrows.filter_eq (h : Narrows D D' narrow I Same) (s : Filtered δ) (t : ℕ) :
    (s.map narrow).filter .avr D t =
      ((s.filter .esp8266 D' t).1, (s.filter .esp8266 D' t).2.map (· % 65536)) := by
  have huint : ∀ x : ULong, Board.uint .avr x.toNat = Board.uint .esp8266 x.toNat % 65536 := by
    intro x
    rw [Board.uint_mod]
    rfl
  unfold filter LowPass.onEdge
  simp only [map, h.active, h.min1Period, huint]
  split
  · rfl
  · split <;> rfl

/-- One edge. -/
theorem Narrows.edge (h : Narrows D D' narrow I Same) (hs : s.Measures D' I e) (het : e ≤ t)
    (hte : t < e + 65536) (hsame : ∀ d ∈ s.interval .esp8266 D' t, Same s.decoder d) :
    (s.onEdge .esp8266 D' t).1.Measures D' I t ∧
      (s.map narrow).onEdge .avr D t =
        ((s.onEdge .esp8266 D' t).1.map narrow, (s.onEdge .esp8266 D' t).2) := by
  have henabled := hs.enabled
  have hgap : (micros t - s.lowPass.edge2).toNat < 65536 := by
    rw [hs.edge2]
    exact gap_lt het hte
  have hfilter := h.filter_eq s t
  have hnarrow : (s.map narrow).enabled = true := henabled
  have hesp : ∀ x : ULong, Board.uint .esp8266 x.toNat = x.toNat := fun x =>
    Nat.mod_eq_of_lt x.isLt
  rw [interval, if_pos henabled] at hsame
  simp only [Filtered.onEdge, hnarrow, henabled, if_true, hfilter]
  unfold filter LowPass.onEdge at *
  by_cases hskip : s.lowPass.skip = true
  · -- the edge after a dropped one
    simp only [hskip, if_true, Option.map_none]
    refine ⟨⟨rfl, rfl, ?_, ?_, hs.decoder⟩, rfl⟩
    · exact fun hset => absurd hset Bool.false_ne_true
    · exact fun hidle => absurd (hs.skip hskip) (by simp [hidle])
  · rw [Bool.not_eq_true] at hskip
    by_cases hshort : (D'.active s.decoder && decide ((micros t - s.lowPass.edge2).toNat <
        D'.min1Period s.decoder)) = true
    · -- an edge that comes too soon
      have hactive : D'.active s.decoder = true := (Bool.and_eq_true_iff.1 hshort).1
      simp only [hskip, hshort, if_true, Bool.false_eq_true, if_false, Option.map_none]
      refine ⟨⟨rfl, rfl, fun _ => hactive, ?_, hs.decoder⟩, rfl⟩
      exact fun hidle => absurd hactive (by simp [hidle])
    · -- any other edge hands the duration before it to the decoder
      simp only [hskip, hshort, Bool.false_eq_true, if_false, Option.map_some, hesp,
        Option.mem_some_iff, forall_eq'] at hsame ⊢
      rcases h.decode s.decoder _ hs.decoder hs.single hsame with ⟨hI, hdecode⟩
      refine ⟨⟨rfl, rfl, fun hset => absurd hset (by simp), fun _ => hgap, hI⟩, ?_⟩
      simp only [map, hdecode]

/-- A run. -/
theorem Narrows.run (h : Narrows D D' narrow I Same) {times : List ℕ} (hs : s.Measures D' I e)
    (htrain : Train (e :: times)) (hmeets : s.Meets .esp8266 D' Same times) :
    Mealy.final (onEdge .avr D) (s.map narrow) times =
        (Mealy.final (onEdge .esp8266 D') s times).map narrow ∧
      Mealy.events (onEdge .avr D) (s.map narrow) times =
        Mealy.events (onEdge .esp8266 D') s times := by
  induction times generalizing s e with
  | nil => exact ⟨rfl, rfl⟩
  | cons t ts ih =>
      rcases List.isChain_cons_cons.1 htrain with ⟨⟨het, hte⟩, hrest⟩
      rcases hmeets with ⟨hsame, hmeets⟩
      rcases h.edge hs het hte hsame with ⟨hmeasures, hedge⟩
      rcases ih hmeasures hrest hmeets with ⟨hfinal, hevents⟩
      rw [Mealy.final_cons, Mealy.events_cons, hedge, hfinal, hevents]
      exact ⟨rfl, rfl⟩

end Filtered

/-! ## Kaku -/

namespace Kaku

def Decoder.Accepts (s : Decoder) (d : ℕ) : Prop :=
  s.state = 0 ∧ d ≤ s.max1Period ∨
    s.state = 1 ∧ 7 * s.receivedCode.period ≤ d ∧ d ≤ 15 * s.receivedCode.period ∨
    (1 < s.state ∧ s.state < 148) ∧ s.ReadsPart d

/-- The duration is taken for the stop gap, whose bounds are `unsigned int`. -/
def Decoder.Closes (b : Board) (s : Decoder) (d : ℕ) : Prop :=
  ¬s.ReadsPart d ∧
    (b.uint (20 * s.receivedCode.period) ≤ d ∧ d ≤ b.uint (80 * s.receivedCode.period)) ∧
      s.receivedBit <<< 1 &&& 0b10#8 = 0b00#8 ∧ (s.state = 147 ∨ s.state = 131)

/-- What 16 bits leave of the duration is taken for the same. -/
def Decoder.SameTests (s : Decoder) (d : ℕ) : Prop :=
  (s.Accepts (d % 65536) ↔ s.Accepts d) ∧ (s.Closes .avr (d % 65536) ↔ s.Closes .esp8266 d)

instance (s : Decoder) (d : ℕ) : Decidable (s.SameTests d) := by
  unfold Decoder.SameTests Decoder.Accepts Decoder.Closes Decoder.ReadsPart
  infer_instance

/-- The period was measured in a 16-bit interval, and the bounds are made of it. -/
structure Decoder.Measured (s : Decoder) : Prop where
  period : s.receivedCode.period ≤ 1638
  max1Period : s.max1Period = s.receivedCode.period * 3
  min5Period : s.min5Period = s.receivedCode.period * 3
  max5Period : s.max5Period = s.receivedCode.period * 8

variable {s : Decoder} {d low : ℕ} {b b' : Board}

theorem synchronise_eq (b : Board) (s : Decoder) (hd : d < 65536) :
    synchronise b s d =
      { s with
        filter := { s.filter with repeats := 0 }
        receivedCode := { s.receivedCode with period := d / 40 }
        min1Period := d / 40 * 3 / 10
        max1Period := d / 40 * 3
        min5Period := d / 40 * 3
        max5Period := d / 40 * 8 } := by
  have hperiod : d / 40 ≤ 1638 := by omega
  rw [synchronise, b.uint_of_lt (by omega), b.uint_of_lt (by omega), b.uint_of_lt (by omega)]

theorem Decoder.Measured.of_eq {s' : Decoder} (h : s.Measured)
    (hperiod : s'.receivedCode.period = s.receivedCode.period)
    (hmax1 : s'.max1Period = s.max1Period) (hmin5 : s'.min5Period = s.min5Period)
    (hmax5 : s'.max5Period = s.max5Period) : s'.Measured := by
  refine ⟨?_, ?_, ?_, ?_⟩
  · rw [hperiod]
    exact h.period
  · rw [hmax1, hperiod, h.max1Period]
  · rw [hmin5, hperiod, h.min5Period]
  · rw [hmax5, hperiod, h.max5Period]

theorem Decoder.Measured.decode (h : s.Measured) (hd : s.state = -1 → d < 65536) :
    (decode .esp8266 s d).1.Measured := by
  have houtcome := decode_outcome .esp8266 s d
  generalize Kaku.decode .esp8266 s d = r at houtcome ⊢
  cases houtcome with
  | idle => exact h
  | sync hs =>
      have hlt := hd hs
      have hperiod : d / 40 ≤ 1638 := by omega
      rw [synchronise_eq _ _ hlt]
      exact ⟨hperiod, rfl, rfl, rfl⟩
  | reset hs rb c hc hdim => exact h.of_eq hc rfl rfl rfl
  | advance hs rb c hc hdim hstop => exact h.of_eq hc rfl rfl rfl
  | complete hs rb =>
      refine h.of_eq ?_ rfl rfl rfl
      simp only [complete]
      split <;> rfl

/-- A part is decoded by the outcome of the comparisons only. -/
theorem decodePart_congr (hshort : low ≤ s.max1Period ↔ d ≤ s.max1Period)
    (hlong : s.min5Period ≤ low ∧ low ≤ s.max5Period ↔ s.min5Period ≤ d ∧ d ≤ s.max5Period)
    (hstop : s.Closes b low ↔ s.Closes b' d) : decodePart b s low = decodePart b' s d := by
  have hpart : s.ReadsPart low ↔ s.ReadsPart d := or_congr hshort hlong
  unfold decodePart
  by_cases hone : d ≤ s.max1Period
  · rw [if_pos hone, if_pos (hshort.2 hone)]
  · rw [if_neg hone, if_neg (mt hshort.1 hone)]
    by_cases hfive : s.min5Period ≤ d ∧ d ≤ s.max5Period
    · rw [if_pos hfive, if_pos (hlong.2 hfive)]
    · rw [if_neg hfive, if_neg (mt hlong.1 hfive)]
      have hnot : ¬s.ReadsPart d := not_or.2 ⟨hone, hfive⟩
      rw [Decoder.Closes, Decoder.Closes, hpart] at hstop
      exact if_congr (by simpa only [hnot, not_false_eq_true, true_and] using hstop) rfl rfl

/-- A duration of more than 16 bits is never a part. -/
theorem Decoder.Measured.not_accepts (h : s.Measured) (hd : 65536 ≤ d) :
    ¬s.Accepts d ∧ ¬s.ReadsPart d := by
  have hperiod := h.period
  have hmax1 := h.max1Period
  have hmin5 := h.min5Period
  have hmax5 := h.max5Period
  have hpart : ¬s.ReadsPart d := by
    rintro (hone | ⟨-, hfive⟩) <;> omega
  refine ⟨?_, hpart⟩
  rintro (⟨-, hone⟩ | ⟨-, -, hstart⟩ | ⟨-, hread⟩)
  · omega
  · omega
  · exact hpart hread

/-- With the same outcomes the 16-bit decoder does the same. -/
theorem decode_avr (h : s.Measured) (hd : decide (0 ≤ s.state) = false → d < 65536)
    (hsame : s.SameTests d) : decode .avr s (d % 65536) = decode .esp8266 s d := by
  rcases hsame with ⟨haccepts, hcloses⟩
  have hperiod := h.period
  unfold decode
  by_cases hwait : s.state = -1
  · have hlt : d < 65536 := hd (by rw [hwait]; rfl)
    rw [if_pos hwait, if_pos hwait, Nat.mod_eq_of_lt hlt, synchronise_eq _ _ hlt,
      synchronise_eq _ _ hlt]
  · rw [if_neg hwait, if_neg hwait]
    by_cases h0 : s.state = 0
    · -- the start pulse
      have hone : d % 65536 ≤ s.max1Period ↔ d ≤ s.max1Period := by
        simpa [Decoder.Accepts, h0] using haccepts
      rw [if_pos h0, if_pos h0]
      exact if_congr (by rw [← Nat.not_le, ← Nat.not_le, hone]) rfl rfl
    · rw [if_neg h0, if_neg h0]
      by_cases h1 : s.state = 1
      · -- and the gap of the start pulse
        have hstart : (7 * s.receivedCode.period ≤ d % 65536 ∧
            d % 65536 ≤ 15 * s.receivedCode.period) ↔
            7 * s.receivedCode.period ≤ d ∧ d ≤ 15 * s.receivedCode.period := by
          simpa [Decoder.Accepts, h1] using haccepts
        rw [if_pos h1, if_pos h1]
        simp only [Board.uint_of_lt _ (show 7 * s.receivedCode.period < 65536 by omega),
          Board.uint_of_lt _ (show 15 * s.receivedCode.period < 65536 by omega)]
        refine if_congr ?_ rfl rfl
        rw [← Nat.not_le, ← Nat.not_le, ← Nat.not_le, ← Nat.not_le, ← not_and_or, ← not_and_or,
          hstart]
      · rw [if_neg h1, if_neg h1]
        by_cases hpart : s.state < 148
        · rw [if_pos hpart, if_pos hpart]
          by_cases hlt : d < 65536
          · rw [Nat.mod_eq_of_lt hlt] at hcloses ⊢
            exact decodePart_congr Iff.rfl Iff.rfl hcloses
          · -- the duration is too long for a part, and so its low half may not be one
            rcases h.not_accepts (Nat.le_of_not_lt hlt) with ⟨hnot, hread⟩
            have hstate : 1 < s.state ∧ s.state < 148 := by
              have hactive : ¬decide (0 ≤ s.state) = false := mt hd hlt
              rw [decide_eq_false_iff_not, not_not] at hactive
              omega
            have hlow : ¬s.ReadsPart (d % 65536) := fun hread =>
              hnot (haccepts.1 (Or.inr (Or.inr ⟨hstate, hread⟩)))
            rcases not_or.1 hread with ⟨hone, hfive⟩
            rcases not_or.1 hlow with ⟨hone', hfive'⟩
            exact decodePart_congr (iff_of_false hone' hone) (iff_of_false hfive' hfive) hcloses
        · rw [if_neg hpart, if_neg hpart]

/-- The 16-bit decoder keeps the same state. -/
theorem narrows : Filtered.Narrows (pulseDecoder .avr) (pulseDecoder .esp8266) id
    Decoder.Measured Decoder.SameTests where
  active _ := rfl
  min1Period _ := rfl
  decode s d h hd hsame := by
    refine ⟨h.decode fun hwait => hd (decide_eq_false ?_), decode_avr h hd hsame⟩
    rw [hwait]
    decide

/-- For a duration of 16 bits only the upper bound of the stop gap can make a difference. -/
theorem Decoder.Measured.sameTests_iff (h : s.Measured) (hd : d < 65536) :
    s.SameTests d ↔ (s.Closes .esp8266 d → d ≤ 80 * s.receivedCode.period % 65536) := by
  have hperiod := h.period
  have hlow : ∀ b : Board, b.uint (20 * s.receivedCode.period) = 20 * s.receivedCode.period :=
    fun b => b.uint_of_lt (by omega)
  have hesp : Board.uint .esp8266 (80 * s.receivedCode.period) = 80 * s.receivedCode.period :=
    Nat.mod_eq_of_lt (lt_of_le_of_lt (Nat.mul_le_mul_left 80 hperiod) (by decide))
  have havr : Board.uint .avr (80 * s.receivedCode.period) =
      80 * s.receivedCode.period % 65536 := rfl
  unfold Decoder.SameTests Decoder.Closes
  simp only [Nat.mod_eq_of_lt hd, hlow, hesp, havr, true_and]
  constructor
  · intro hsame hcloses
    exact (hsame.2 hcloses).2.1.2
  · intro hwrapped
    constructor
    · rintro ⟨hpart, ⟨hlower, hupper⟩, hrest⟩
      exact ⟨hpart, ⟨hlower, hupper.trans (Nat.mod_le _ _)⟩, hrest⟩
    · intro hcloses
      exact ⟨hcloses.1, ⟨hcloses.2.1.1, hwrapped hcloses⟩, hcloses.2.2⟩

/-- For a fast remote nothing wraps. -/
theorem Decoder.sameTests_of_fast (hd : d < 65536) (hfast : 80 * s.receivedCode.period < 65536) :
    s.SameTests d := by
  have hlow : 20 * s.receivedCode.period < 65536 := by omega
  unfold Decoder.SameTests Decoder.Closes
  simp only [Nat.mod_eq_of_lt hd, Board.uint_of_lt _ hfast, Board.uint_of_lt _ hlow, and_self]

end Kaku

/-! ## Remote -/

namespace Remote

/-- The duration is taken for what the state waits for; the bounds are `unsigned int`. -/
def Decoder.Accepts (b : Board) (s : Decoder) (d : ℕ) : Prop :=
  (0 ≤ s.state ∧ s.state < 48) ∧
      (d ≤ s.max1Period ∨ s.min3Period ≤ d ∧ d ≤ b.uint (s.period * 37) / 10) ∨
    s.state = 48 ∧ d ≤ s.max1Period ∨
    48 < s.state ∧ b.uint (s.period * 25) ≤ d ∧ d ≤ b.uint (s.period * 36)

def Decoder.SameTests (s : Decoder) (d : ℕ) : Prop :=
  s.Accepts .avr (d % 65536) ↔ s.Accepts .esp8266 d

instance (s : Decoder) (d : ℕ) : Decidable (s.SameTests d) := by
  unfold Decoder.SameTests Decoder.Accepts
  infer_instance

structure Decoder.Measured (s : Decoder) : Prop where
  state : -1 ≤ s.state
  period : s.period ≤ 2114
  max1Period : s.max1Period = s.period * 15 / 10
  min3Period : s.min3Period = s.period * 23 / 10
  max3Period : s.max3Period = s.period * 37 / 10

/-- The upper bound of a long part is cut to 16 bits before it is divided. -/
def Decoder.narrow (s : Decoder) : Decoder :=
  { s with max3Period := s.period * 37 % 65536 / 10 }

variable {s : Decoder} {d : ℕ}

theorem synchronise_eq (b : Board) (s : Decoder) (hd : d < 65536) :
    synchronise b s d =
      { s with
        period := d / 31
        receivedCode := 0
        filter := { s.filter with previousCode := 0, repeats := 0 }
        min1Period := d / 31 * 5 / 10
        max1Period := d / 31 * 15 / 10
        min3Period := d / 31 * 23 / 10
        max3Period := b.uint (d / 31 * 37) / 10 } := by
  have hperiod : d / 31 ≤ 2114 := by omega
  rw [synchronise, b.uint_of_lt (by omega), b.uint_of_lt (by omega), b.uint_of_lt (by omega),
    b.uint_of_lt (by omega)]

theorem uint_esp8266_product {n : ℕ} (h : s.Measured) (hn : n ≤ 37) :
    Board.uint .esp8266 (s.period * n) = s.period * n := by
  have hproduct : s.period * n ≤ 2114 * 37 := Nat.mul_le_mul h.period hn
  exact Nat.mod_eq_of_lt (lt_of_le_of_lt hproduct (by decide))

theorem Decoder.Measured.decode (h : s.Measured) (hd : s.state = -1 → d < 65536) :
    (decode .esp8266 s d).1.Measured := by
  rcases h with ⟨hstate, hperiod, hmax1, hmin3, hmax3⟩
  have houtcome := decode_outcome .esp8266 s d
  generalize Remote.decode .esp8266 s d = r at houtcome ⊢
  cases houtcome with
  | idle => exact ⟨hstate, hperiod, hmax1, hmin3, hmax3⟩
  | sync hs =>
      have hlt := hd hs
      have hmeasured : d / 31 ≤ 2114 := by omega
      have hproduct : Board.uint .esp8266 (d / 31 * 37) = d / 31 * 37 :=
        Nat.mod_eq_of_lt (lt_of_le_of_lt (Nat.mul_le_mul_right 37 hmeasured) (by decide))
      rw [synchronise_eq _ _ hlt, hproduct]
      exact ⟨by simp only [advance, hs]; decide, hmeasured, rfl, rfl, rfl⟩
  | reset hs rb c => exact ⟨le_rfl, hperiod, hmax1, hmin3, hmax3⟩
  | advance hs rb c => exact ⟨by simp only [advance]; omega, hperiod, hmax1, hmin3, hmax3⟩
  | complete hs =>
      unfold complete
      dsimp only
      split
      · exact ⟨le_rfl, hperiod, hmax1, hmin3, hmax3⟩
      · exact ⟨(by decide : (-1 : ℤ) ≤ 0), hperiod, hmax1, hmin3, hmax3⟩

/-- What follows a part does not look at the bounds. -/
theorem decodePart_narrow (s : Decoder) (rb : BitVec 8) :
    decodePart { s.narrow with receivedBit := rb } =
      ((decodePart { s with receivedBit := rb }).1.narrow,
        (decodePart { s with receivedBit := rb }).2) := by
  unfold decodePart Decoder.narrow
  dsimp only
  split
  · split <;> rfl
  · rfl

theorem complete_narrow (s : Decoder) :
    complete s.narrow = ((complete s).1.narrow, (complete s).2) := by
  unfold complete Decoder.narrow
  dsimp only
  split <;> rfl

/-- A duration of more than 16 bits is never a part. -/
theorem Decoder.Measured.not_part (h : s.Measured) (hd : 65536 ≤ d) :
    ¬d ≤ s.max1Period ∧ ¬d ≤ s.period * 37 / 10 := by
  have hperiod := h.period
  have hmax1 := h.max1Period
  omega

/-- With the same outcomes the 16-bit decoder does the same. -/
theorem decode_avr (h : s.Measured) (hd : decide (0 ≤ s.state) = false → d < 65536)
    (hsame : s.SameTests d) :
    decode .avr s.narrow (d % 65536) =
      ((decode .esp8266 s d).1.narrow, (decode .esp8266 s d).2) := by
  have hstates : s.narrow.state = s.state ∧ s.narrow.max1Period = s.max1Period ∧
      s.narrow.min3Period = s.min3Period ∧ s.narrow.period = s.period ∧
      s.narrow.max3Period = Board.uint .avr (s.period * 37) / 10 ∧
      s.narrow.receivedBit = s.receivedBit := ⟨rfl, rfl, rfl, rfl, rfl, rfl⟩
  rcases hstates with ⟨hstate, hmax1, hmin3, hperiod, hmax3, hbit⟩
  have hproduct := @uint_esp8266_product s
  unfold Decoder.SameTests Decoder.Accepts at hsame
  unfold decode
  rw [hstate, hmax1, hmin3, hperiod, hmax3, hbit]
  by_cases hwait : s.state = -1
  · have hlt : d < 65536 := hd (by rw [hwait]; rfl)
    rw [if_pos hwait, if_pos hwait, Nat.mod_eq_of_lt hlt, synchronise_eq _ _ hlt,
      synchronise_eq _ _ hlt]
    split <;> rfl
  · have hactive : 0 ≤ s.state := by
      have hlower := h.state
      omega
    rw [if_neg hwait, if_neg hwait]
    by_cases hpart : s.state < 48
    · -- a short part or a long one
      have h48 : s.state ≠ 48 ∧ ¬48 < s.state := by omega
      simp only [hactive, hpart, h48.1, h48.2, true_and, false_and, or_false,
        hproduct h (le_refl 37), ← h.max3Period] at hsame
      rw [if_pos hpart, if_pos hpart]
      have hshort : d % 65536 ≤ s.max1Period ↔ d ≤ s.max1Period := by
        by_cases hlt : d < 65536
        · rw [Nat.mod_eq_of_lt hlt]
        · rcases h.not_part (Nat.le_of_not_lt hlt) with ⟨hone, hthree⟩
          rw [h.max3Period] at hsame
          refine iff_of_false (fun hlow => ?_) hone
          rcases hsame.1 (Or.inl hlow) with hbad | ⟨-, hbad⟩
          · exact hone hbad
          · exact hthree hbad
      by_cases hone : d ≤ s.max1Period
      · rw [if_pos hone, if_pos (hshort.2 hone)]
        exact decodePart_narrow s _
      · have hlong := hsame
        simp only [hone, mt hshort.1 hone, false_or] at hlong
        rw [if_neg hone, if_neg (mt hshort.1 hone)]
        by_cases hthree : s.min3Period ≤ d ∧ d ≤ s.max3Period
        · rw [if_pos hthree, if_pos (hlong.2 hthree)]
          exact decodePart_narrow s _
        · rw [if_neg hthree, if_neg (mt hlong.1 hthree)]
          rfl
    · rw [if_neg hpart, if_neg hpart]
      by_cases h48 : s.state = 48
      · -- the sync pulse
        have hone : d % 65536 ≤ s.max1Period ↔ d ≤ s.max1Period := by
          simpa [h48] using hsame
        rw [if_pos h48, if_pos h48]
        by_cases hlong : s.max1Period < d
        · rw [if_pos hlong, if_pos (Nat.lt_of_not_le (mt hone.1 (Nat.not_le.2 hlong)))]
          rfl
        · rw [if_neg hlong, if_neg (Nat.not_lt.2 (hone.2 (Nat.le_of_not_lt hlong)))]
          rfl
      · -- and the gap behind it
        have hgap : 48 < s.state := by omega
        simp only [hpart, h48, hgap, and_false, false_and, false_or, true_and] at hsame
        rw [if_neg h48, if_neg h48]
        by_cases hin : Board.uint .esp8266 (s.period * 25) ≤ d ∧
            d ≤ Board.uint .esp8266 (s.period * 36)
        · have hin' := hsame.2 hin
          rw [if_neg (not_or.2 ⟨Nat.not_lt.2 hin.1, Nat.not_lt.2 hin.2⟩),
            if_neg (not_or.2 ⟨Nat.not_lt.2 hin'.1, Nat.not_lt.2 hin'.2⟩)]
          exact complete_narrow s
        · have hout := mt hsame.1 hin
          rw [if_pos (by omega), if_pos (by omega)]
          rfl

/-- The 16-bit decoder has another upper bound of a long part, and otherwise the same state. -/
theorem narrows : Filtered.Narrows (pulseDecoder .avr) (pulseDecoder .esp8266) Decoder.narrow
    Decoder.Measured Decoder.SameTests where
  active _ := rfl
  min1Period _ := rfl
  decode s d h hd hsame := by
    refine ⟨h.decode fun hwait => hd (decide_eq_false ?_), decode_avr h hd hsame⟩
    rw [hwait]
    decide

theorem init_measured (minRepeats : ℕ) (edge0 edge2 : ULong) :
    (init minRepeats edge0 edge2).decoder.Measured := by
  refine ⟨le_rfl, Nat.zero_le _, ?_, ?_, ?_⟩ <;> simp [init]

theorem map_narrow_init (minRepeats : ℕ) (edge0 edge2 : ULong) :
    (init minRepeats edge0 edge2).map Decoder.narrow = init minRepeats edge0 edge2 := by
  simp [Filtered.map, init, Decoder.narrow]

/-- For a duration of 16 bits only the upper bounds of a long part and of the sync gap can make a
difference. -/
theorem Decoder.Measured.sameTests_iff (h : s.Measured) (hd : d < 65536) :
    s.SameTests d ↔
      (s.state < 48 → 0 ≤ s.state → s.max1Period < d → s.min3Period ≤ d →
        d ≤ s.period * 37 / 10 → d ≤ s.period * 37 % 65536 / 10) ∧
      (48 < s.state → s.period * 25 ≤ d → d ≤ s.period * 36 → d ≤ s.period * 36 % 65536) := by
  have hperiod := h.period
  have hlow : ∀ b : Board, b.uint (s.period * 25) = s.period * 25 :=
    fun b => b.uint_of_lt (by omega)
  have hesp : ∀ n ≤ 37, Board.uint .esp8266 (s.period * n) = s.period * n :=
    fun n hn => uint_esp8266_product h hn
  have havr : ∀ n, Board.uint .avr (s.period * n) = s.period * n % 65536 := fun _ => rfl
  -- a bound that has wrapped is lower than the exact one
  have hlong : s.period * 37 % 65536 / 10 ≤ s.period * 37 / 10 :=
    Nat.div_le_div_right (Nat.mod_le _ _)
  have hgap : s.period * 36 % 65536 ≤ s.period * 36 := Nat.mod_le _ _
  unfold Decoder.SameTests Decoder.Accepts
  rw [Nat.mod_eq_of_lt hd, hlow, hlow, hesp 37 (by decide), hesp 36 (by decide), havr, havr]
  constructor
  · intro hsame
    constructor
    · intro hstate hactive hone hthree hupper
      have haccepted := hsame.2 (Or.inl ⟨⟨hactive, hstate⟩, Or.inr ⟨hthree, hupper⟩⟩)
      omega
    · intro hstate hlower hupper
      have haccepted := hsame.2 (Or.inr (Or.inr ⟨hstate, hlower, hupper⟩))
      omega
  · rintro ⟨hpart, hsync⟩
    constructor
    · rintro (⟨hstate, hone | ⟨hthree, hupper⟩⟩ | hpulse | ⟨hstate, hlower, hupper⟩)
      · exact Or.inl ⟨hstate, Or.inl hone⟩
      · exact Or.inl ⟨hstate, Or.inr ⟨hthree, hupper.trans hlong⟩⟩
      · exact Or.inr (Or.inl hpulse)
      · exact Or.inr (Or.inr ⟨hstate, hlower, hupper.trans hgap⟩)
    · rintro (⟨hstate, hone | ⟨hthree, hupper⟩⟩ | hpulse | ⟨hstate, hlower, hupper⟩)
      · exact Or.inl ⟨hstate, Or.inl hone⟩
      · by_cases hone : d ≤ s.max1Period
        · exact Or.inl ⟨hstate, Or.inl hone⟩
        · have hfits := hpart hstate.2 hstate.1 (Nat.lt_of_not_le hone) hthree hupper
          exact Or.inl ⟨hstate, Or.inr ⟨hthree, hfits⟩⟩
      · exact Or.inr (Or.inl hpulse)
      · exact Or.inr (Or.inr ⟨hstate, hlower, hsync hstate hlower hupper⟩)

/-- For a fast remote nothing wraps. -/
theorem Decoder.sameTests_of_fast (hd : d < 65536) (hfast : s.period * 37 < 65536) :
    s.SameTests d := by
  have hupper : s.period * 36 < 65536 := by omega
  have hlower : s.period * 25 < 65536 := by omega
  unfold Decoder.SameTests Decoder.Accepts
  rw [Nat.mod_eq_of_lt hd, Board.uint_of_lt _ hfast, Board.uint_of_lt _ hupper,
    Board.uint_of_lt _ hlower, Board.uint_of_lt _ hfast, Board.uint_of_lt _ hupper,
    Board.uint_of_lt _ hlower]

end Remote

/-! ## Both receivers -/

/-- From their start on, the two builds of a receiver make the same callbacks for every train of
intervals below 65536 µs, that from `edge0` and `edge2` of `init` to the first edge being one of them,
as long as no duration is taken for something else once it and the bounds are cut to 16 bits. -/
theorem boards_agree (minRepeats a e : ℕ) (times : List ℕ) (htrain : Train (a :: e :: times)) :
    ((Kaku.init minRepeats (micros a) (micros e)).Meets .esp8266 (Kaku.pulseDecoder .esp8266)
        Kaku.Decoder.SameTests times →
      Mealy.events (Kaku.interruptHandler .avr) (Kaku.init minRepeats (micros a) (micros e)) times =
        Mealy.events (Kaku.interruptHandler .esp8266)
          (Kaku.init minRepeats (micros a) (micros e)) times) ∧
    ((Remote.init minRepeats (micros a) (micros e)).Meets .esp8266 (Remote.pulseDecoder .esp8266)
        Remote.Decoder.SameTests times →
      Mealy.events (Remote.interruptHandler .avr) (Remote.init minRepeats (micros a) (micros e))
          times =
        Mealy.events (Remote.interruptHandler .esp8266)
          (Remote.init minRepeats (micros a) (micros e)) times) := by
  rcases List.isChain_cons_cons.1 htrain with ⟨⟨hae, hlt⟩, hrest⟩
  -- nothing has been dropped before the first two edges
  have hsingle : (micros e - micros a).toNat < 65536 := gap_lt hae hlt
  constructor
  · intro hmeets
    have hstart : (Kaku.init minRepeats (micros a) (micros e)).Measures
        (Kaku.pulseDecoder .esp8266) Kaku.Decoder.Measured e :=
      ⟨rfl, rfl, fun hset => absurd hset Bool.false_ne_true, fun _ => hsingle,
        ⟨Nat.zero_le _, rfl, rfl, rfl⟩⟩
    exact (Kaku.narrows.run hstart hrest hmeets).2
  · intro hmeets
    have hstart : (Remote.init minRepeats (micros a) (micros e)).Measures
        (Remote.pulseDecoder .esp8266) Remote.Decoder.Measured e :=
      ⟨rfl, rfl, fun hset => absurd hset Bool.false_ne_true, fun _ => hsingle,
        Remote.init_measured _ _ _⟩
    -- the start values are those of either board
    have hevents := (Remote.narrows.run hstart hrest hmeets).2
    rwa [Remote.map_narrow_init] at hevents

/-- The edges of a telegram of twelve zeros behind its synchronisation gap. -/
def zeros (period : ℕ) : List ℕ :=
  stamps 0 ([1000, 31 * period] ++
    (List.replicate 12 [period, 3 * period, period, 3 * period]).flatten ++
      [period, 31 * period, period])

/-- At a period of 350 µs. -/
theorem boards_agree_example :
    Mealy.events (Kaku.interruptHandler .avr) (Kaku.init 1 (micros 0) (micros 0)) (zeros 350) =
        Mealy.events (Kaku.interruptHandler .esp8266) (Kaku.init 1 (micros 0) (micros 0))
          (zeros 350) ∧
      Mealy.events (Remote.interruptHandler .avr) (Remote.init 1 (micros 0) (micros 0))
          (zeros 350) =
        Mealy.events (Remote.interruptHandler .esp8266) (Remote.init 1 (micros 0) (micros 0))
          (zeros 350) := by
  have h := boards_agree 1 0 0 (zeros 350) (by decide +kernel)
  exact ⟨h.1 (by decide +kernel), h.2 (by decide +kernel)⟩

/-- At a period of 1800 µs: `37 * 1800` wraps to 1064, and no long part is accepted any more. -/
theorem slow_remote_lost : Train (0 :: 0 :: zeros 1800) ∧
    Mealy.events (Remote.interruptHandler .avr) (Remote.init 1 0 0) (zeros 1800) ≠
      Mealy.events (Remote.interruptHandler .esp8266) (Remote.init 1 0 0) (zeros 1800) := by
  decide +kernel

end LamPI
