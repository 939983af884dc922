import LamPI.BitParts

/-!
# Remote receiver — `RemoteReceiver.cpp`

A telegram is 12 trits of four parts each and a synchronisation pulse: one period high, 31 low.
`-1` waits for that gap, the states `0..47` read the parts, 48 and 49 the synchronisation pulse.
-/

namespace LamPI
namespace Remote

open BigEndian

structure Decoder where
  state : ℤ
  period : ℕ
  receivedBit : BitVec 8
  receivedCode : ℕ
  min1Period : ℕ
  max1Period : ℕ
  min3Period : ℕ
  max3Period : ℕ
  filter : RepeatFilter ℕ
  deriving DecidableEq, Repr

structure Received where
  code : ℕ
  period : ℕ
  deriving DecidableEq, Repr

def Decoder.reset (s : Decoder) : Decoder := { s with state := -1 }

def advance (s : Decoder) : Decoder × Option (Completion Received) :=
  ({ s with state := s.state + 1 }, none)

/-- What an accepted synchronisation gap sets. -/
def synchronise (b : Board) (s : Decoder) (duration : ℕ) : Decoder :=
  let period := b.uint (duration / 31)
  { s with
    period := period
    receivedCode := 0
    filter := { s.filter with previousCode := 0, repeats := 0 }
    min1Period := b.uint (period * 5) / 10
    max1Period := b.uint (period * 15) / 10
    min3Period := b.uint (period * 23) / 10
    max3Period := b.uint (period * 37) / 10 }

/-- The trit that the last four parts are. -/
def trit (receivedBit : BitVec 8) : Option ℕ :=
  if lowNibble receivedBit = 0b0101#8 then some 0
  else if lowNibble receivedBit = 0b1010#8 then some 1
  else if lowNibble receivedBit = 0b0110#8 then some 2
  else none

/-- What follows a valid part: after the fourth one the trit is stored. -/
def decodePart (s : Decoder) : Decoder × Option (Completion Received) :=
  if s.state % 4 = 3 then
    -- the fourth part completes a trit, which goes into the low place
    let s := { s with receivedCode := s.receivedCode * 3 % 2 ^ 32 }
    match trit s.receivedBit with
    | some t => advance { s with receivedCode := (s.receivedCode + t) % 2 ^ 32 }
    | none => (s.reset, none)
  else advance s

def complete (s : Decoder) : Decoder × Option (Completion Received) :=
  let filter := s.filter.count (· == ·) s.receivedCode
  let calledBack := (filter.completion s.receivedCode).calledBack
  -- after a callback a new sync gap is waited for
  (if filter.reached then { s with state := -1, filter := filter }
    else { s with state := 0, receivedCode := 0, filter := filter },
    some ⟨⟨s.receivedCode, s.period⟩, calledBack⟩)

/-- `RemoteReceiver::interruptHandler` after the low-pass filter. -/
def decode (b : Board) (s : Decoder) (duration : ℕ) : Decoder × Option (Completion Received) :=
  if s.state = -1 then
    -- the sync gap sets the period
    if 3720 < duration then advance (synchronise b s duration) else (s, none)
  else if s.state < 48 then
    -- the parts of the twelve trits, short or long
    if duration ≤ s.max1Period then
      decodePart { s with receivedBit := shiftIn s.receivedBit false }
    else if s.min3Period ≤ duration ∧ duration ≤ s.max3Period then
      decodePart { s with receivedBit := shiftIn s.receivedBit true }
    else ({ s.reset with receivedBit := s.receivedBit <<< 1 }, none)
  -- the sync pulse
  else if s.state = 48 then
    if s.max1Period < duration then (s.reset, none) else advance s
  -- the sync gap behind it
  else if duration < b.uint (s.period * 25) ∨ b.uint (s.period * 36) < duration then
    (s.reset, none)
  else complete s

def pulseDecoder (b : Board) : PulseDecoder Decoder (Completion Received) :=
  { active := fun s => decide (0 ≤ s.state), min1Period := Decoder.min1Period, decode := decode b }

abbrev State := Filtered Decoder

def interruptHandler (b : Board) : State → ℕ → State × Option (Completion Received) :=
  Filtered.onEdge b (pulseDecoder b)

/-- The static variables after `RemoteReceiver::init(_, minRepeats, _)`, the last edges having been
seen at `edge0` and `edge2`. -/
def init (minRepeats : ℕ) (edge0 edge2 : ULong) : State :=
  { enabled := true
    lowPass := { edge0 := edge0, edge2 := edge2, skip := false }
    decoder :=
      { state := -1, period := 0, receivedBit := 0, receivedCode := 0, min1Period := 0,
        max1Period := 0, min3Period := 0, max3Period := 0,
        filter :=
          { minRepeats := minRepeats, inCallback := false, previousCode := 0, repeats := 0 } } }

/-! ## What an interval can do -/

/-- The outcomes of one interval: nothing, a session opened, the telegram given up, the state moved
on, or the telegram completed.  The byte `receivedBit` and the code may change on the way. -/
inductive Outcome (b : Board) (s : Decoder) (duration : ℕ) :
    Decoder × Option (Completion Received) → Prop where
  | idle (hs : s.state = -1) (hd : duration ≤ 3720) : Outcome b s duration (s, none)
  | sync (hs : s.state = -1) (hd : 3720 < duration) :
      Outcome b s duration (advance (synchronise b s duration))
  | reset (hs : s.state ≠ -1) (rb : BitVec 8) (c : ℕ) :
      Outcome b s duration ({ s with state := -1, receivedBit := rb, receivedCode := c }, none)
  | advance (hs : s.state ≠ -1) (rb : BitVec 8) (c : ℕ) :
      Outcome b s duration (advance { s with receivedBit := rb, receivedCode := c })
  | complete (hs : s.state ≠ -1) : Outcome b s duration (complete s)

theorem decodePart_outcome {b : Board} {s : Decoder} {d : ℕ} (rb : BitVec 8)
    (hs : s.state ≠ -1) : Outcome b s d (decodePart { s with receivedBit := rb }) := by
  unfold decodePart
  split
  · simp only
    split
    · exact Outcome.advance hs rb _
    · exact Outcome.reset hs rb _
  · exact Outcome.advance hs rb s.receivedCode

theorem decode_outcome (b : Board) (s : Decoder) (d : ℕ) : Outcome b s d (decode b s d) := by
  unfold decode
  split
  · next hs =>
    split
    · next hd => exact Outcome.sync hs hd
    · next hd => exact Outcome.idle hs (Nat.le_of_not_lt hd)
  · next hs =>
    split
    · split
      · exact decodePart_outcome _ hs
      · split
        · exact decodePart_outcome _ hs
        · exact Outcome.reset hs _ s.receivedCode
    · split
      · split
        · exact Outcome.reset hs s.receivedBit s.receivedCode
        · exact Outcome.advance hs s.receivedBit s.receivedCode
      · split
        · exact Outcome.reset hs s.receivedBit s.receivedCode
        · exact Outcome.complete hs

/-! ## Telegrams on the air -/

abbrev Trit := Fin 3

/-- The parts of a trit; `true` is a long one. -/
def parts : Trit → List Bool
  | 0 => [false, true, false, true]
  | 1 => [true, false, true, false]
  | 2 => [false, true, true, false]

/-- The kinds of intervals of a telegram. -/
inductive Part where
  | short
  | long
  | gap
  deriving DecidableEq, Repr

/-- The part of a trit as a kind of interval. -/
def part (long : Bool) : Part := if long then .long else .short

def Band (b : Board) (q : ℕ) : Part → ℕ → Prop
  | .short, d => d ≤ b.uint (q * 15) / 10
  | .long, d => ¬d ≤ b.uint (q * 15) / 10 ∧ b.uint (q * 23) / 10 ≤ d ∧ d ≤ b.uint (q * 37) / 10
  | .gap, d => b.uint (q * 25) ≤ d ∧ d ≤ b.uint (q * 36)

def layout (ts : List Trit) : List Part :=
  ts.flatMap (fun t => (parts t).map part) ++ [.short, .gap]

def value (ts : List Trit) : ℕ := ofDigits 3 (ts.map Fin.val)

def IsTelegram (b : Board) (q : ℕ) (ts : List Trit) (f : List ℕ) : Prop :=
  ts.length = 12 ∧ List.Forall₂ (Band b q) (layout ts) f

/-! ## Reading parts -/

structure Decoder.Tuned (b : Board) (q : ℕ) (s : Decoder) : Prop where
  period : s.period = q
  min1Period : s.min1Period = b.uint (q * 5) / 10
  max1Period : s.max1Period = b.uint (q * 15) / 10
  min3Period : s.min3Period = b.uint (q * 23) / 10
  max3Period : s.max3Period = b.uint (q * 37) / 10

structure Decoder.Reading (b : Board) (q : ℕ) (ts : List Trit) (ps : List Bool) (s : Decoder) :
    Prop where
  tuned : s.Tuned b q
  trits : ts.length ≤ 12
  parts : ps.length < 4
  whole : ts.length = 12 → ps = []
  state : s.state = (4 * ts.length + ps.length : ℕ)
  bits : Holds s.receivedBit ps
  code : s.receivedCode = value ts

variable {b : Board} {q d : ℕ} {s : Decoder} {ts : List Trit} {ps : List Bool} {p : Bool}

theorem value_concat (ts : List Trit) (t : Trit) : value (ts ++ [t]) = value ts * 3 + t.val := by
  simp [value, ofDigits, List.foldl_append]

theorem value_lt (ts : List Trit) : value ts < 3 ^ ts.length := by
  have hdigits : ∀ d ∈ ts.map Fin.val, d < 3 := by
    intro d hd
    rcases List.mem_map.1 hd with ⟨t, -, rfl⟩
    exact t.isLt
  simpa [value] using ofDigits_lt hdigits

/-- The value determines the trits. -/
theorem value_inj {ts us : List Trit} (hlen : ts.length = us.length) (h : value ts = value us) :
    ts = us := by
  induction ts using List.reverseRecOn generalizing us with
  | nil => exact (List.eq_nil_of_length_eq_zero hlen.symm).symm
  | append_singleton ts t ih =>
      rcases List.eq_nil_or_concat' us with rfl | ⟨us, u, rfl⟩
      · simp at hlen
      · rw [value_concat, value_concat] at h
        have ht := t.isLt
        have hu := u.isLt
        have hlast : t = u := Fin.ext (by omega)
        have hlen' : ts.length = us.length := by simpa using hlen
        rw [ih hlen' (by omega), hlast]

@[simp] theorem length_parts : ∀ t, (parts t).length = 4 := by decide

/-- The low nibble of the parts of a trit is that trit. -/
theorem trit_parts (t : Trit) (h : Holds s.receivedBit (parts t)) :
    trit s.receivedBit = some t.val := by
  have hall : ∀ t : Trit,
      (if BitVec.ofNat 8 (ofBits (parts t)) = 0b0101#8 then some 0
        else if BitVec.ofNat 8 (ofBits (parts t)) = 0b1010#8 then some 1
        else if BitVec.ofNat 8 (ofBits (parts t)) = 0b0110#8 then some 2
        else none) = some t.val := by decide
  rw [trit, h.lowNibble (length_parts t)]
  exact hall t

/-- The low nibble of any other parts is no trit. -/
theorem trit_none (hps : ps.length = 4) (hno : ∀ t, parts t ≠ ps)
    (h : Holds s.receivedBit ps) : trit s.receivedBit = none := by
  have hlow := h.lowNibble hps
  have hall : ∀ a₁ a₂ a₃ a₄ : Bool, (∀ t, parts t ≠ [a₁, a₂, a₃, a₄]) →
      BitVec.ofNat 8 (ofBits [a₁, a₂, a₃, a₄]) ≠ 0b0101#8 ∧
      BitVec.ofNat 8 (ofBits [a₁, a₂, a₃, a₄]) ≠ 0b1010#8 ∧
      BitVec.ofNat 8 (ofBits [a₁, a₂, a₃, a₄]) ≠ 0b0110#8 := by decide
  match ps, hps with
  | [a₁, a₂, a₃, a₄], _ =>
      rcases hall a₁ a₂ a₃ a₄ hno with ⟨h0, h1, h2⟩
      rw [trit, hlow, if_neg h0, if_neg h1, if_neg h2]

/-- The parts of a trit go through `decodePart`. -/
theorem decode_part (h : s.Reading b q ts ps) (hts : ts.length < 12) (hd : Band b q (part p) d) :
    decode b s d = decodePart { s with receivedBit := shiftIn s.receivedBit p } := by
  have hidle : s.state ≠ -1 := by have := h.state; omega
  have hlt : s.state < 48 := by have := h.state; have := h.parts; omega
  rw [decode, if_neg hidle, if_pos hlt]
  cases p with
  | false =>
      have hshort : d ≤ s.max1Period := by
        rw [h.tuned.max1Period]
        exact hd
      rw [if_pos hshort]
  | true =>
      have hshort : ¬d ≤ s.max1Period := by
        rw [h.tuned.max1Period]
        exact hd.1
      have hlong : s.min3Period ≤ d ∧ d ≤ s.max3Period := by
        rw [h.tuned.min3Period, h.tuned.max3Period]
        exact hd.2
      rw [if_neg hshort, if_pos hlong]

/-- A part that does not end a trit. -/
theorem decode_part_inner (h : s.Reading b q ts ps) (hts : ts.length < 12)
    (hps : ps.length < 3) (hd : Band b q (part p) d) :
    ∃ s', decode b s d = (s', none) ∧ s'.Reading b q ts (ps ++ [p]) ∧ s'.filter = s.filter := by
  have hinner : ¬s.state % 4 = 3 := by have := h.state; omega
  rw [decode_part h hts hd, decodePart, if_neg hinner]
  refine ⟨_, rfl, ⟨⟨h.tuned.1, h.tuned.2, h.tuned.3, h.tuned.4, h.tuned.5⟩, h.trits, ?_, ?_, ?_,
    h.bits.shiftIn h.parts p, h.code⟩, rfl⟩
  · rw [List.length_append, List.length_singleton]
    omega
  · intro hwhole
    omega
  · simp only [h.state, List.length_append, List.length_singleton]
    push_cast
    ring

/-- The part that ends a trit. -/
theorem decode_part_last (h : s.Reading b q ts ps) (hts : ts.length < 12) {t : Trit}
    (ht : ps ++ [p] = parts t) (hd : Band b q (part p) d) :
    ∃ s', decode b s d = (s', none) ∧ s'.Reading b q (ts ++ [t]) [] ∧ s'.filter = s.filter := by
  have hlen : ps.length + 1 = 4 := by
    have hparts := length_parts t
    rw [← ht, List.length_append, List.length_singleton] at hparts
    exact hparts
  have hlast : s.state % 4 = 3 := by have := h.state; omega
  have hholds : Holds (shiftIn s.receivedBit p) (parts t) := ht ▸ h.bits.shiftIn h.parts p
  have htrit := trit_parts (s := { s with receivedBit := shiftIn s.receivedBit p }) t hholds
  -- twelve trits fit the register
  have hlt : value (ts ++ [t]) < 2 ^ 32 := by
    have hle : (ts ++ [t]).length ≤ 12 := by
      rw [List.length_append, List.length_singleton]
      exact hts
    exact (value_lt _).trans_le ((Nat.pow_le_pow_right (by decide) hle).trans (by decide))
  have hcode : (s.receivedCode * 3 % 2 ^ 32 + t.val) % 2 ^ 32 = value (ts ++ [t]) := by
    rw [h.code, Nat.mod_add_mod, ← value_concat, Nat.mod_eq_of_lt hlt]
  rw [decode_part h hts hd, decodePart, if_pos hlast]
  simp only at htrit
  simp only [htrit, hcode]
  refine ⟨_, rfl, ⟨⟨h.tuned.1, h.tuned.2, h.tuned.3, h.tuned.4, h.tuned.5⟩, ?_, by decide,
    fun _ => rfl, ?_, holds_nil _, rfl⟩, rfl⟩
  · rw [List.length_append, List.length_singleton]
    exact hts
  · simp only [h.state, List.length_append, List.length_singleton, List.length_nil]
    push_cast
    omega

/-- Parts that are no trit abort the telegram. -/
theorem decode_part_rubbish (h : s.Reading b q ts ps) (hts : ts.length < 12)
    (hps : ps.length = 3) (hno : ∀ t, parts t ≠ ps ++ [p]) (hd : Band b q (part p) d) :
    ∃ s', decode b s d = (s', none) ∧ s'.state = -1 ∧ s'.filter = s.filter := by
  have hlast : s.state % 4 = 3 := by have := h.state; omega
  have hholds : Holds (shiftIn s.receivedBit p) (ps ++ [p]) := h.bits.shiftIn h.parts p
  have htrit := trit_none (s := { s with receivedBit := shiftIn s.receivedBit p })
    (by rw [List.length_append, hps]; rfl) hno hholds
  rw [decode_part h hts hd, decodePart, if_pos hlast]
  simp only at htrit
  simp only [htrit]
  exact ⟨_, rfl, rfl, rfl⟩

/-- An interval that is no part aborts the telegram. -/
theorem decode_no_part (h : s.Reading b q ts ps) (hts : ts.length < 12)
    (hd : ∀ p, ¬Band b q (part p) d) :
    ∃ s', decode b s d = (s', none) ∧ s'.state = -1 ∧ s'.filter = s.filter := by
  have hidle : s.state ≠ -1 := by have := h.state; omega
  have hlt : s.state < 48 := by have := h.state; have := h.parts; omega
  have hshort : ¬d ≤ s.max1Period := by
    rw [h.tuned.max1Period]
    exact hd false
  have hlong : ¬(s.min3Period ≤ d ∧ d ≤ s.max3Period) := by
    rw [h.tuned.min3Period, h.tuned.max3Period]
    exact fun hband => hd true ⟨hd false, hband⟩
  rw [decode, if_neg hidle, if_pos hlt, if_neg hshort, if_neg hlong]
  exact ⟨_, rfl, rfl, rfl⟩

/-! ## Reading telegrams -/

/-- All trits have been read, and the first part of the synchronisation pulse. -/
structure Decoder.AwaitingGap (b : Board) (q : ℕ) (ts : List Trit) (s : Decoder) : Prop where
  tuned : s.Tuned b q
  trits : ts.length = 12
  state : s.state = 49
  code : s.receivedCode = value ts

/-- The first part of the synchronisation pulse. -/
theorem decode_pulse (h : s.Reading b q ts []) (hts : ts.length = 12) :
    (Band b q .short d → ∃ s', decode b s d = (s', none) ∧ s'.AwaitingGap b q ts ∧
      s'.filter = s.filter) ∧
    (¬Band b q .short d → ∃ s', decode b s d = (s', none) ∧ s'.state = -1 ∧
      s'.filter = s.filter) := by
  have hstate : s.state = 48 := by rw [h.state, hts]; rfl
  -- state 48 only looks at the length of the pulse
  have hdecode : decode b s d =
      if s.max1Period < d then (s.reset, none) else advance s := by
    rw [decode, if_neg (by omega), if_neg (by omega), if_pos hstate]
  rw [hdecode]
  constructor
  · intro hd
    have hshort : ¬s.max1Period < d := by
      rw [h.tuned.max1Period]
      exact Nat.not_lt.2 hd
    rw [if_neg hshort]
    refine ⟨_, rfl, ⟨⟨h.tuned.1, h.tuned.2, h.tuned.3, h.tuned.4, h.tuned.5⟩, hts, ?_, h.code⟩, rfl⟩
    simp only [hstate]
    rfl
  · intro hd
    have hlong : s.max1Period < d := by
      rw [h.tuned.max1Period]
      exact Nat.lt_of_not_le hd
    rw [if_pos hlong]
    exact ⟨_, rfl, rfl, rfl⟩

def completion (f : RepeatFilter ℕ) (q : ℕ) (ts : List Trit) : Completion Received :=
  ⟨⟨value ts, q⟩, ((f.count (· == ·) (value ts)).completion (value ts)).calledBack⟩

/-- The decoder between two telegrams: it waits for a gap, or reads on. -/
structure Decoder.Between (b : Board) (q : ℕ) (f : RepeatFilter ℕ) (s : Decoder) : Prop where
  filter : s.filter = f
  idle : f.reached = true → s.state = -1
  reading : f.reached = false → s.Reading b q [] []

/-- The gap completes the telegram. -/
theorem decode_gap (h : s.AwaitingGap b q ts) :
    (Band b q .gap d → ∃ s', decode b s d = (s', some (completion s.filter q ts)) ∧
      s'.Between b q (s.filter.count (· == ·) (value ts))) ∧
    (¬Band b q .gap d → ∃ s', decode b s d = (s', none) ∧ s'.state = -1 ∧
      s'.filter = s.filter) := by
  -- state 49 looks at the length of the gap, in periods
  have hdecode : decode b s d =
      if d < b.uint (s.period * 25) ∨ b.uint (s.period * 36) < d then (s.reset, none)
      else complete s := by
    have hstate := h.state
    rw [decode, if_neg (by omega), if_neg (by omega), if_neg (by omega)]
  rw [hdecode, h.tuned.period]
  constructor
  · intro hd
    have hgap : ¬(d < b.uint (q * 25) ∨ b.uint (q * 36) < d) := by
      rintro (hlt | hlt)
      · exact absurd hd.1 (Nat.not_le.2 hlt)
      · exact absurd hd.2 (Nat.not_le.2 hlt)
    rw [if_neg hgap, complete, h.code, h.tuned.period]
    refine ⟨_, rfl, ?_⟩
    -- the callback sends the decoder back to -1; otherwise it reads the next telegram
    cases hreached : (s.filter.count (· == ·) (value ts)).reached with
    | true =>
        refine ⟨?_, ?_, ?_⟩
        · simp
        · intro _
          simp
        · intro hfalse
          rw [hreached] at hfalse
          cases hfalse
    | false =>
        refine ⟨?_, ?_, ?_⟩
        · simp
        · intro htrue
          rw [hreached] at htrue
          cases htrue
        · intro _
          simp only [Bool.false_eq_true, if_false]
          exact ⟨⟨rfl, h.tuned.2, h.tuned.3, h.tuned.4, h.tuned.5⟩, by decide, by decide,
            fun _ => rfl, rfl, holds_nil _, rfl⟩
  · intro hd
    have hgap : d < b.uint (q * 25) ∨ b.uint (q * 36) < d := by
      by_contra hnot
      exact hd ⟨by omega, by omega⟩
    rw [if_pos hgap]
    exact ⟨_, rfl, rfl, rfl⟩

/-- The decoder reads a telegram trit by trit, and a trit part by part. -/
theorem decode_readsParts (b : Board) (q : ℕ) (f : RepeatFilter ℕ) :
    Mealy.ReadsParts (decode b) parts (fun p d => Band b q (part p) d) (fun _ _ => True)
      (fun ts ps s => s.Reading b q ts ps ∧ s.filter = f) 4 12 := by
  refine ⟨length_parts, fun _ _ _ h => h.1.parts, ?_, ?_⟩
  · rintro ts ps s p d ⟨h, hf⟩ hts hps hd
    rcases decode_part_inner h hts (by omega) hd with ⟨s', hdecode, hreading, hfilter⟩
    rw [hdecode]
    exact ⟨⟨hreading, hfilter.trans hf⟩, rfl⟩
  · rintro ts ps s p d t ⟨h, hf⟩ hts ht - hd
    rcases decode_part_last h hts ht hd with ⟨s', hdecode, hreading, hfilter⟩
    rw [hdecode]
    exact ⟨⟨hreading, hfilter.trans hf⟩, rfl⟩

/-- The decoder reads the trits of a telegram without an event. -/
theorem run_trits {w : List ℕ} (h : s.Reading b q [] []) (hts : ts.length = 12)
    (hw : List.Forall₂ (Band b q) ((ts.flatMap parts).map part) w) :
    (Mealy.final (decode b) s w).Reading b q ts [] ∧ Mealy.events (decode b) s w = [] ∧
      (Mealy.final (decode b) s w).filter = s.filter := by
  rcases (decode_readsParts b q s.filter).run ⟨h, rfl⟩ (fun _ _ => trivial)
    (by rw [List.length_nil, hts]) (List.nil_append _) (List.forall₂_map_left_iff.1 hw) with
    ⟨⟨hreading, hfilter⟩, hquiet⟩
  exact ⟨hreading, hquiet, hfilter⟩

/-- A well-formed telegram is completed. -/
theorem run_telegram {f : List ℕ} (h : s.Reading b q [] []) (hf : IsTelegram b q ts f) :
    (Mealy.final (decode b) s f).Between b q (s.filter.count (· == ·) (value ts)) ∧
      Mealy.events (decode b) s f = [completion s.filter q ts] := by
  rcases hf with ⟨hts, hf⟩
  rcases forall₂_append_left hf with ⟨w, stop, rfl, hw, hstop⟩
  rw [← List.map_flatMap] at hw
  rcases run_trits h hts hw with ⟨hreading, hquiet, hfilter⟩
  rcases hstop with _ | ⟨hpulse, hgap⟩
  rcases hgap with _ | ⟨hgap, hnil⟩
  cases hnil
  rcases (decode_pulse hreading hts).1 hpulse with ⟨s₁, e₁, hawaiting, hfilter₁⟩
  rcases (decode_gap hawaiting).1 hgap with ⟨s₂, e₂, hbetween⟩
  rw [hfilter₁, hfilter] at hbetween e₂
  rw [Mealy.final_append, Mealy.events_append, hquiet, Mealy.final_cons, Mealy.events_cons, e₁,
    Mealy.final_cons, Mealy.events_cons, e₂]
  exact ⟨hbetween, rfl⟩

/-- An accepted gap. -/
theorem decode_sync (hs : s.state = -1) (hd : 3720 < d) :
    ∃ s', decode b s d = (s', none) ∧ s'.Reading b (b.uint (d / 31)) [] [] ∧
      s'.filter = { s.filter with previousCode := 0, repeats := 0 } := by
  rw [decode, if_pos hs, if_pos hd, advance]
  refine ⟨_, rfl, ⟨⟨rfl, rfl, rfl, rfl, rfl⟩, by decide, by decide, fun _ => rfl, ?_, holds_nil _,
    rfl⟩, rfl⟩
  simp only [synchronise, hs]
  rfl

theorem decode_idle (hs : s.state = -1) (hd : d ≤ 3720) : decode b s d = (s, none) := by
  rw [decode, if_pos hs, if_neg (Nat.not_lt.2 hd)]

end Remote
end LamPI
