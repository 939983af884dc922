import LamPI.Kaku.Receiver

/-!
# KlikAanKlikUit frames

What a frame carries, the intervals it is made of, and what the decoder does with each of them.
-/

namespace LamPI
namespace Kaku

open BigEndian

/-! ## Frames on the air -/

structure Telegram where
  address : Fin (2 ^ 26)
  groupBit : Bool
  switchType : SwitchType
  unit : Fin 16
  dim : Option (Fin 16)
  deriving DecidableEq, Repr

def Symbol.ofBool (bit : Bool) : Symbol := if bit then .one else .zero

def Symbol.isOne (y : Symbol) : Bool := decide (y = .one)

def SwitchType.symbol : SwitchType → Symbol
  | .off => .zero
  | .on => .one
  | .dim => .dim

def Symbol.switchType : Symbol → SwitchType
  | .zero => .off
  | .one => .on
  | .dim => .dim

def dimBits : Option (Fin 16) → List Bool
  | none => []
  | some d => bits 4 d

def Telegram.symbols (y : Telegram) : List Symbol :=
  (bits 26 y.address ++ [y.groupBit]).map Symbol.ofBool ++
    (y.switchType.symbol :: (bits 4 y.unit ++ dimBits y.dim).map Symbol.ofBool)

/-- The parts of a bit; `true` is a long one. -/
def parts : Symbol → List Bool
  | .zero => [false, false, false, true]
  | .one => [false, true, false, false]
  | .dim => [false, false, false, false]

/-- The kinds of intervals of a frame. -/
inductive Part where
  | short
  | long
  | start
  | stop
  deriving DecidableEq, Repr

/-- The part of a bit as a kind of interval. -/
def part (long : Bool) : Part := if long then .long else .short

/-- The durations that the receiver takes for a part when the period is `q`. -/
def Band (b : Board) (q : ℕ) : Part → ℕ → Prop
  | .short, d => d ≤ b.uint (q * 3)
  | .long, d => ¬d ≤ b.uint (q * 3) ∧ b.uint (q * 3) ≤ d ∧ d ≤ b.uint (q * 8)
  | .start, d => b.uint (7 * q) ≤ d ∧ d ≤ b.uint (15 * q)
  | .stop, d => (¬d ≤ b.uint (q * 3) ∧ ¬(b.uint (q * 3) ≤ d ∧ d ≤ b.uint (q * 8))) ∧
      b.uint (20 * q) ≤ d ∧ d ≤ b.uint (80 * q)

/-- The intervals of a frame. -/
def layout (y : Telegram) : List Part :=
  [.short, .start] ++ ((y.symbols.flatMap parts).map part ++ [.short, .stop])

/-- The intervals `f` are a well-formed frame for the period `q`. -/
def IsFrame (b : Board) (q : ℕ) (y : Telegram) (f : List ℕ) : Prop :=
  List.Forall₂ (Band b q) (layout y) f

/-! ## Symbols -/

@[simp] theorem length_parts (y : Symbol) : (parts y).length = 4 := by
  cases y <;> rfl

@[simp] theorem isOne_ofBool (bit : Bool) : (Symbol.ofBool bit).isOne = bit := by
  cases bit <;> rfl

@[simp] theorem switchType_symbol (t : SwitchType) : t.symbol.switchType = t := by
  cases t <;> rfl

theorem symbol_switchType (y : Symbol) : y.switchType.symbol = y := by
  cases y <;> rfl

variable {b : Board} {q d : ℕ} {s : Decoder} {c : Code} {ys : List Symbol} {ps : List Bool}
  {p : Bool}

/-- The low nibble of the parts of a bit is that bit. -/
theorem symbol_parts {receivedBit : BitVec 8} (y : Symbol) (h : Holds receivedBit (parts y)) :
    symbol receivedBit = some y := by
  have hall : ∀ y : Symbol,
      (if BitVec.ofNat 8 (ofBits (parts y)) = 0b0001#8 then some Symbol.zero
        else if BitVec.ofNat 8 (ofBits (parts y)) = 0b0100#8 then some .one
        else if BitVec.ofNat 8 (ofBits (parts y)) = 0b0000#8 then some .dim
        else none) = some y := by
    intro y
    cases y <;> decide
  rw [symbol, h.lowNibble (length_parts y)]
  exact hall y

/-- The low nibble of any other parts is no bit. -/
theorem symbol_none {receivedBit : BitVec 8} (hps : ps.length = 4) (hno : ∀ y, parts y ≠ ps)
    (h : Holds receivedBit ps) : symbol receivedBit = none := by
  have hlow := h.lowNibble hps
  have hall : ∀ a₁ a₂ a₃ a₄ : Bool,
      (parts .zero ≠ [a₁, a₂, a₃, a₄] ∧ parts .one ≠ [a₁, a₂, a₃, a₄] ∧
        parts .dim ≠ [a₁, a₂, a₃, a₄]) →
      BitVec.ofNat 8 (ofBits [a₁, a₂, a₃, a₄]) ≠ 0b0001#8 ∧
      BitVec.ofNat 8 (ofBits [a₁, a₂, a₃, a₄]) ≠ 0b0100#8 ∧
      BitVec.ofNat 8 (ofBits [a₁, a₂, a₃, a₄]) ≠ 0b0000#8 := by decide
  match ps, hps with
  | [a₁, a₂, a₃, a₄], _ =>
      rcases hall a₁ a₂ a₃ a₄ ⟨hno .zero, hno .one, hno .dim⟩ with ⟨h0, h1, h2⟩
      rw [symbol, hlow, if_neg h0, if_neg h1, if_neg h2]

def Allowed (i : ℕ) (y : Symbol) : Prop := y = .dim → i = 27

def push (i : ℕ) (c : Code) (y : Symbol) : Code :=
  if i < 26 then storeAddress y.isOne (shiftAddress c)
  else if i < 27 then storeGroupBit y.isOne c
  else if i < 28 then storeSwitchType y.switchType c
  else if i < 32 then storeUnit y.isOne (shiftUnit c)
  else storeDimLevel y.isOne (shiftDimLevel c)

def readCode (c : Code) (ys : List Symbol) : Code := ys.foldlIdx push c

theorem readCode_concat (c : Code) (ys : List Symbol) (y : Symbol) :
    readCode c (ys ++ [y]) = push ys.length (readCode c ys) y := by
  rw [readCode, foldlIdx_append]
  simp [readCode]

/-! ## Reading parts -/

structure Decoder.Tuned (b : Board) (q : ℕ) (s : Decoder) : Prop where
  period : s.receivedCode.period = q
  min1Period : s.min1Period = b.uint (q * 3) / 10
  max1Period : s.max1Period = b.uint (q * 3)
  min5Period : s.min5Period = b.uint (q * 3)
  max5Period : s.max5Period = b.uint (q * 8)

structure Decoder.AtStart (b : Board) (q : ℕ) (s : Decoder) : Prop where
  tuned : s.Tuned b q
  state : s.state = 0

/-- The decoder has read the bits `ys` and the parts `ps` of a frame, into the code `c`. -/
structure Decoder.Reading (b : Board) (q : ℕ) (c : Code) (ys : List Symbol) (ps : List Bool)
    (s : Decoder) : Prop where
  tuned : s.Tuned b q
  allowed : ∀ i, ∀ h : i < ys.length, Allowed i ys[i]
  state : s.state = (2 + 4 * ys.length + ps.length : ℕ)
  parts : ps.length < 4
  range : 2 + 4 * ys.length + ps.length < 148
  bits : Holds s.receivedBit ps
  code : s.receivedCode = readCode (cleanUp c) ys

theorem advance_state {n : ℕ} (hs : s.state = n) (hn : n < 32767) :
    advance s = ({ s with state := (n + 1 : ℕ) }, none) := by
  rw [advance, hs, Int.bmod_eq_of_le (by omega) (by omega)]
  rfl

theorem push_period (i : ℕ) (c : Code) (y : Symbol) : (push i c y).period = c.period := by
  unfold push
  split
  · rfl
  · split
    · rfl
    · split
      · rfl
      · split <;> rfl

/-- The states of the fourth parts, by the place of the bit. -/
theorem decodeBit_eq {i : ℕ} (hs : s.state = (5 + 4 * i : ℕ)) (hi : i < 36) :
    decodeBit s =
      if i < 26 then storeBit storeAddress { s with receivedCode := shiftAddress s.receivedCode }
      else if i < 27 then storeBit storeGroupBit s
      else if i < 28 then storeSwitch s
      else if i < 32 then storeBit storeUnit { s with receivedCode := shiftUnit s.receivedCode }
      else storeBit storeDimLevel { s with receivedCode := shiftDimLevel s.receivedCode } := by
  -- the last part of a bit comes in the states 5, 9, 13, ..
  have hmod : Int.tmod s.state 4 = 1 := by
    rw [Int.tmod_eq_emod_of_nonneg (by omega)]
    omega
  rw [decodeBit, if_pos hmod]
  -- the bounds on the state are the places of the fields
  by_cases h26 : i < 26
  · rw [if_pos (by omega), if_pos h26]
  · rw [if_neg (by omega), if_neg h26]
    by_cases h27 : i < 27
    · rw [if_pos (by omega), if_pos h27]
    · rw [if_neg (by omega), if_neg h27]
      by_cases h28 : i < 28
      · rw [if_pos (by omega), if_pos h28]
      · rw [if_neg (by omega), if_neg h28]
        by_cases h32 : i < 32
        · rw [if_pos (by omega), if_pos h32]
        · rw [if_neg (by omega), if_neg h32, if_pos (by omega)]

/-- The bit that the fourth part ends is stored in its field. -/
theorem decodeBit_symbol {i : ℕ} {y : Symbol} (hs : s.state = (5 + 4 * i : ℕ)) (hi : i < 36)
    (hy : symbol s.receivedBit = some y) (hallowed : Allowed i y) :
    decodeBit s = ({ s with state := (6 + 4 * i : ℕ), receivedCode := push i s.receivedCode y },
      none) := by
  have hnext : ∀ s' : Decoder, s'.state = s.state →
      advance s' = ({ s' with state := (6 + 4 * i : ℕ) }, none) := by
    intro s' hs'
    rw [advance_state (hs'.trans hs) (by omega)]
    congr 3
    omega
  have hbit : y ≠ .dim → ∀ (store : Bool → Code → Code) (s' : Decoder), s'.state = s.state →
      s'.receivedBit = s.receivedBit →
      storeBit store s' =
        ({ s' with state := (6 + 4 * i : ℕ), receivedCode := store y.isOne s'.receivedCode },
          none) := by
    intro hdim store s' hs' hbits
    rw [storeBit, hbits, hy]
    cases y with
    | zero => exact hnext _ hs'
    | one => exact hnext _ hs'
    | dim => exact absurd rfl hdim
  -- only the switch type has a third value
  have hother : i ≠ 27 → y ≠ .dim := fun hne hdim => hne (hallowed hdim)
  rw [decodeBit_eq hs hi, push]
  by_cases h26 : i < 26
  · rw [if_pos h26, if_pos h26]
    exact hbit (hother (by omega)) storeAddress _ rfl rfl
  · rw [if_neg h26, if_neg h26]
    by_cases h27 : i < 27
    · rw [if_pos h27, if_pos h27]
      exact hbit (hother (by omega)) storeGroupBit _ rfl rfl
    · rw [if_neg h27, if_neg h27]
      by_cases h28 : i < 28
      · rw [if_pos h28, if_pos h28, storeSwitch, hy]
        cases y with
        | zero => exact hnext _ rfl
        | one => exact hnext _ rfl
        | dim => exact hnext _ rfl
      · rw [if_neg h28, if_neg h28]
        by_cases h32 : i < 32
        · rw [if_pos h32, if_pos h32]
          exact hbit (hother (by omega)) storeUnit _ rfl rfl
        · rw [if_neg h32, if_neg h32]
          exact hbit (hother (by omega)) storeDimLevel _ rfl rfl

/-- Parts that are no bit, or no bit of this place, abort the frame. -/
theorem decodeBit_rubbish {i : ℕ} (hs : s.state = (5 + 4 * i : ℕ)) (hi : i < 36)
    (hbad : ∀ y, symbol s.receivedBit = some y → ¬Allowed i y) :
    ∃ s', decodeBit s = (s', none) ∧ s'.state = -1 ∧ s'.filter = s.filter := by
  -- in the fields of bits, anything but a zero or a one resets the decoder
  have hbit : ∀ (store : Bool → Code → Code) (s' : Decoder), s'.receivedBit = s.receivedBit →
      s'.filter = s.filter →
      ∃ s'', storeBit store s' = (s'', none) ∧ s''.state = -1 ∧ s''.filter = s.filter := by
    intro store s' hbits hfilter
    rw [storeBit, hbits]
    rcases hsymbol : symbol s.receivedBit with _ | y
    · exact ⟨_, rfl, rfl, hfilter⟩
    · cases y with
      | zero => exact absurd (fun h => by cases h) (hbad _ hsymbol)
      | one => exact absurd (fun h => by cases h) (hbad _ hsymbol)
      | dim => exact ⟨_, rfl, rfl, hfilter⟩
  rw [decodeBit_eq hs hi]
  split
  · exact hbit _ _ rfl rfl
  · split
    · exact hbit _ _ rfl rfl
    · split
      · -- the place of the switch type admits every bit
        rw [storeSwitch]
        rcases hsymbol : symbol s.receivedBit with _ | y
        · exact ⟨_, rfl, rfl, rfl⟩
        · exact absurd (fun _ => by omega) (hbad _ hsymbol)
      · split
        · exact hbit _ _ rfl rfl
        · exact hbit _ _ rfl rfl

/-! ## One interval -/

theorem decode_idle (hs : s.state = -1) (hd : d ≤ 4800) : decode b s d = (s, none) := by
  rw [decode, if_pos hs, if_neg (Nat.not_lt.2 hd)]

/-- An accepted gap. -/
theorem decode_sync (hs : s.state = -1) (hd : 4800 < d) :
    ∃ s', decode b s d = (s', none) ∧ s'.AtStart b (b.uint (d / 40)) ∧
      s'.filter = { s.filter with repeats := 0 } ∧
      s'.receivedCode = { s.receivedCode with period := b.uint (d / 40) } := by
  rw [decode, if_pos hs, if_pos hd, advance]
  refine ⟨_, rfl, ⟨⟨rfl, rfl, rfl, rfl, rfl⟩, ?_⟩, rfl, rfl⟩
  simp only [synchronise, hs]
  rfl

/-- The first part of the start pulse has been read, and the code `c` cleaned up. -/
structure Decoder.InStart (b : Board) (q : ℕ) (c : Code) (s : Decoder) : Prop where
  tuned : s.Tuned b q
  state : s.state = 1
  code : s.receivedCode = cleanUp c

theorem decode_startPulse (h : s.AtStart b q) :
    (Band b q .short d → ∃ s', decode b s d = (s', none) ∧
      s'.InStart b q s.receivedCode ∧ s'.filter = s.filter) ∧
    (¬Band b q .short d → ∃ s', decode b s d = (s', none) ∧ s'.state = -1 ∧
      s'.filter = s.filter) := by
  have hdecode : decode b s d = if s.max1Period < d then (s.reset, none)
      else advance { s with receivedCode := cleanUp s.receivedCode } := by
    have hstate := h.state
    rw [decode, if_neg (by omega), if_pos hstate]
  rw [hdecode]
  constructor
  -- the code is emptied, but for `dimLevelPresent`
  · intro hd
    have hshort : ¬s.max1Period < d := by
      rw [h.tuned.max1Period]
      exact Nat.not_lt.2 hd
    rw [if_neg hshort, advance_state (s := { s with receivedCode := cleanUp s.receivedCode })
      (n := 0) h.state (by decide)]
    exact ⟨_, rfl, ⟨⟨h.tuned.1, h.tuned.2, h.tuned.3, h.tuned.4, h.tuned.5⟩, rfl, rfl⟩, rfl⟩
  · intro hd
    have hlong : s.max1Period < d := by
      rw [h.tuned.max1Period]
      exact Nat.lt_of_not_le hd
    rw [if_pos hlong]
    exact ⟨_, rfl, rfl, rfl⟩

theorem decode_startGap (h : s.InStart b q c) :
    (Band b q .start d → ∃ s', decode b s d = (s', none) ∧ s'.Reading b q c [] [] ∧
      s'.filter = s.filter) ∧
    (¬Band b q .start d → ∃ s', decode b s d = (s', none) ∧ s'.state = -1 ∧
      s'.filter = s.filter) := by
  have hdecode : decode b s d = if d < b.uint (7 * q) ∨ b.uint (15 * q) < d then (s.reset, none)
      else advance s := by
    have hstate := h.state
    rw [decode, if_neg (by omega), if_neg (by omega), if_pos hstate, h.tuned.period]
  rw [hdecode]
  constructor
  · intro hd
    have hgap : ¬(d < b.uint (7 * q) ∨ b.uint (15 * q) < d) := by
      rintro (hlt | hlt)
      · exact absurd hd.1 (Nat.not_le.2 hlt)
      · exact absurd hd.2 (Nat.not_le.2 hlt)
    -- no part has been read yet
    rw [if_neg hgap, advance_state (n := 1) h.state (by decide)]
    exact ⟨_, rfl, ⟨⟨h.tuned.1, h.tuned.2, h.tuned.3, h.tuned.4, h.tuned.5⟩,
      fun i hi => absurd hi (Nat.not_lt_zero i), rfl, by decide, by decide, holds_nil _, h.code⟩,
      rfl⟩
  · intro hd
    have hgap : d < b.uint (7 * q) ∨ b.uint (15 * q) < d := by
      by_contra hnot
      exact hd ⟨by omega, by omega⟩
    rw [if_pos hgap]
    exact ⟨_, rfl, rfl, rfl⟩

theorem decode_decodePart (h : s.Reading b q c ys ps) : decode b s d = decodePart b s d := by
  have hstate := h.state
  have hrange := h.range
  rw [decode, if_neg (by omega), if_neg (by omega), if_neg (by omega), if_pos (by omega)]

/-- The parts of a bit go through `decodeBit`. -/
theorem decode_part (h : s.Reading b q c ys ps) (hd : Band b q (part p) d) :
    decode b s d = decodeBit { s with receivedBit := shiftIn s.receivedBit p } := by
  rw [decode_decodePart h, decodePart]
  cases p with
  | false =>
      have hshort : d ≤ s.max1Period := by
        rw [h.tuned.max1Period]
        exact hd
      rw [if_pos hshort]
  | true =>
      have hshort : ¬d ≤ s.max1Period := by
        rw [h.tuned.max1Period]
        exact hd.1
      have hlong : s.min5Period ≤ d ∧ d ≤ s.max5Period := by
        rw [h.tuned.min5Period, h.tuned.max5Period]
        exact hd.2
      rw [if_neg hshort, if_pos hlong]

/-- A part that does not end a bit only moves the state. -/
theorem decode_part_inner (h : s.Reading b q c ys ps) (hps : ps.length < 3)
    (hd : Band b q (part p) d) :
    decode b s d = ({ s with
      state := (2 + 4 * ys.length + ps.length + 1 : ℕ)
      receivedBit := shiftIn s.receivedBit p }, none) := by
  have hinner : ¬Int.tmod s.state 4 = 1 := by
    have hstate := h.state
    rw [Int.tmod_eq_emod_of_nonneg (by omega)]
    omega
  have hrange := h.range
  rw [decode_part h hd, decodeBit, if_neg hinner,
    advance_state (s := { s with receivedBit := shiftIn s.receivedBit p }) h.state (by omega)]

theorem decode_part_more (h : s.Reading b q c ys ps) (hps : ps.length < 3)
    (hmore : s.state ≠ 147) (hd : Band b q (part p) d) :
    ∃ s', decode b s d = (s', none) ∧ s'.Reading b q c ys (ps ++ [p]) ∧
      s'.filter = s.filter := by
  have hstate := h.state
  have hrange := h.range
  rw [decode_part_inner h hps hd]
  refine ⟨_, rfl, ⟨⟨h.tuned.1, h.tuned.2, h.tuned.3, h.tuned.4, h.tuned.5⟩, h.allowed, ?_, ?_, ?_,
    h.bits.shiftIn h.parts p, h.code⟩, rfl⟩
  · rw [List.length_append, List.length_singleton]
    rfl
  · rw [List.length_append, List.length_singleton]
    omega
  · rw [List.length_append, List.length_singleton]
    omega

/-- The part that ends a bit. -/
theorem decode_part_last (h : s.Reading b q c ys ps) {y : Symbol} (hy : ps ++ [p] = parts y)
    (hallowed : Allowed ys.length y) (hd : Band b q (part p) d) :
    ∃ s', decode b s d = (s', none) ∧ s'.Reading b q c (ys ++ [y]) [] ∧
      s'.filter = s.filter := by
  have hlen : ps.length = 3 := by
    have hparts := length_parts y
    rw [← hy, List.length_append, List.length_singleton] at hparts
    omega
  have hrange := h.range
  -- the fourth part of bit number `ys.length`
  have hstate : s.state = (5 + 4 * ys.length : ℕ) := by
    rw [h.state, hlen]
    congr 1
    omega
  have hholds : Holds (shiftIn s.receivedBit p) (parts y) := hy ▸ h.bits.shiftIn h.parts p
  -- the four parts are the pattern of `y`, which this place admits
  have hdecode := decodeBit_symbol
    (s := { s with receivedBit := shiftIn s.receivedBit p }) hstate (by omega)
    (symbol_parts y hholds) hallowed
  rw [decode_part h hd, hdecode]
  refine ⟨_, rfl, ⟨⟨?_, h.tuned.2, h.tuned.3, h.tuned.4, h.tuned.5⟩, ?_, ?_, by decide, ?_,
    holds_nil _, ?_⟩, rfl⟩
  · exact (push_period _ _ _).trans h.tuned.period
  · intro i hi
    by_cases hlt : i < ys.length
    · rw [List.getElem_append_left hlt]
      exact h.allowed i hlt
    · have heq : i = ys.length := by
        rw [List.length_append, List.length_singleton] at hi
        omega
      subst heq
      simpa using hallowed
  · rw [List.length_append, List.length_singleton, List.length_nil]
    exact congrArg Nat.cast (by omega)
  · rw [List.length_append, List.length_singleton, List.length_nil]
    omega
  · rw [readCode_concat, ← h.code]

/-- Four parts that are no bit of this place. -/
theorem decode_part_rubbish (h : s.Reading b q c ys ps) (hps : ps.length = 3)
    (hbad : ∀ y, ps ++ [p] = parts y → ¬Allowed ys.length y) (hd : Band b q (part p) d) :
    ∃ s', decode b s d = (s', none) ∧ s'.state = -1 ∧ s'.filter = s.filter := by
  have hrange := h.range
  have hstate : s.state = (5 + 4 * ys.length : ℕ) := by
    rw [h.state, hps]
    congr 1
    omega
  have hholds : Holds (shiftIn s.receivedBit p) (ps ++ [p]) := h.bits.shiftIn h.parts p
  have hlen : (ps ++ [p]).length = 4 := by rw [List.length_append, hps]; rfl
  rw [decode_part h hd]
  refine decodeBit_rubbish (s := { s with receivedBit := shiftIn s.receivedBit p }) hstate
    (by omega) (fun y hy => hbad y ?_)
  -- the nibble is `y` only if the parts are those of `y`
  by_contra hne
  by_cases hsome : ∃ y', parts y' = ps ++ [p]
  · rcases hsome with ⟨y', hy'⟩
    have hsymbol := symbol_parts y' (hy' ▸ hholds)
    rw [hsymbol] at hy
    injection hy with hy
    exact hne (hy ▸ hy'.symm)
  · have hnone := symbol_none hlen (fun y' hy' => hsome ⟨y', hy'⟩) hholds
    rw [hnone] at hy
    cases hy

/-- The code of a complete frame; `dimLevelPresent` stays as it was unless there are 36 bits. -/
def frameCode (c : Code) (ys : List Symbol) : Code :=
  if ys.length = 36 then { readCode (cleanUp c) ys with dimLevelPresent := true }
  else readCode (cleanUp c) ys

/-- The decoder between two frames: it waits for a gap, or reads on. -/
structure Decoder.Between (b : Board) (q : ℕ) (c : Code) (f : RepeatFilter Code) (s : Decoder) :
    Prop where
  filter : s.filter = f
  code : s.receivedCode = c
  idle : f.reached = true → s.state = -1
  reading : f.reached = false → s.AtStart b q

theorem shift_clear : ∀ receivedBit : BitVec 8,
    receivedBit <<< 1 &&& 0b10#8 = 0b00#8 ↔ receivedBit.toNat % 2 = 0 := by decide

/-- The stop gap completes the frame. -/
theorem decode_stop (h : s.Reading b q c ys [false]) (hys : ys.length = 32 ∨ ys.length = 36)
    (hd : Band b q .stop d) :
    ∃ s', decode b s d =
        (s', some ((s.filter.count sameCode (frameCode c ys)).completion (frameCode c ys))) ∧
      s'.Between b q (frameCode c ys) (s.filter.count sameCode (frameCode c ys)) := by
  have hstate := h.state
  rw [List.length_singleton] at hstate
  have hshort : ¬d ≤ s.max1Period := by
    rw [h.tuned.max1Period]
    exact hd.1.1
  have hlong : ¬(s.min5Period ≤ d ∧ d ≤ s.max5Period) := by
    rw [h.tuned.min5Period, h.tuned.max5Period]
    exact hd.1.2
  -- the part before was short
  have hclear : s.receivedBit <<< 1 &&& 0b10#8 = 0b00#8 := (shift_clear _).2 h.bits
  have hstop : (b.uint (20 * s.receivedCode.period) ≤ d ∧
      d ≤ b.uint (80 * s.receivedCode.period)) ∧ s.receivedBit <<< 1 &&& 0b10#8 = 0b00#8 ∧
      (s.state = 147 ∨ s.state = 131) := by
    rw [h.tuned.period]
    exact ⟨hd.2, hclear, by omega⟩
  have hcode : (if s.state = 147 then { s.receivedCode with dimLevelPresent := true }
      else s.receivedCode) = frameCode c ys := by
    unfold frameCode
    by_cases h36 : ys.length = 36
    · rw [if_pos (by omega), if_pos h36, h.code]
    · rw [if_neg (by omega), if_neg h36, h.code]
  have hperiod : (frameCode c ys).period = q := by
    rw [← h.tuned.period, h.code]
    unfold frameCode
    split <;> rfl
  rw [decode_decodePart h, decodePart, if_neg hshort, if_neg hlong, if_pos hstop, complete]
  simp only [hcode]
  refine ⟨_, rfl, ⟨rfl, rfl, fun hreached => ?_, fun hreached => ?_⟩⟩
  · simp only [hreached, if_true]
  · refine ⟨⟨hperiod, h.tuned.2, h.tuned.3, h.tuned.4, h.tuned.5⟩, ?_⟩
    simp only [hreached, Bool.false_eq_true, if_false]

/-- Any other interval aborts the frame. -/
theorem decode_other (h : s.Reading b q c ys ps) (hpart : ∀ p, ¬Band b q (part p) d)
    (hstop : ¬(Band b q .stop d ∧ ps = [false] ∧ (ys.length = 32 ∨ ys.length = 36))) :
    ∃ s', decode b s d = (s', none) ∧ s'.state = -1 ∧ s'.filter = s.filter := by
  have hstate := h.state
  have hlen := h.parts
  have hshort : ¬d ≤ b.uint (q * 3) := hpart false
  have hlong : ¬(b.uint (q * 3) ≤ d ∧ d ≤ b.uint (q * 8)) :=
    fun hband => hpart true ⟨hshort, hband⟩
  have hno : ¬((b.uint (20 * s.receivedCode.period) ≤ d ∧
      d ≤ b.uint (80 * s.receivedCode.period)) ∧ s.receivedBit <<< 1 &&& 0b10#8 = 0b00#8 ∧
      (s.state = 147 ∨ s.state = 131)) := by
    rintro ⟨hgap, hclear, hplace⟩
    rw [h.tuned.period] at hgap
    refine hstop ⟨⟨⟨hshort, hlong⟩, hgap⟩, ?_, by omega⟩
    -- in the states 131 and 147 one part of the stop pulse has been read
    have hone : ps.length = 1 := by omega
    have hbits := h.bits
    match ps, hone with
    | [false], _ => rfl
    | [true], _ =>
        rw [shift_clear] at hclear
        have hodd : s.receivedBit.toNat % 2 = 1 := hbits
        omega
  rw [decode_decodePart h, decodePart, h.tuned.max1Period, h.tuned.min5Period,
    h.tuned.max5Period, if_neg hshort, if_neg hlong, if_neg hno]
  exact ⟨_, rfl, rfl, rfl⟩

end Kaku
end LamPI
