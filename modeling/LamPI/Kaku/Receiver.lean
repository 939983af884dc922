import LamPI.BitParts

/-!
# KlikAanKlikUit receiver — `kakuReceiver.cpp`

A frame is a start pulse, 32 or 36 bits of four parts each, and a stop pulse: one period high, 40
low.  `-1` waits for that gap, 0 and 1 read the start pulse, and from 2 on every state reads one
part; the stop pulse is read in the states 130 and 131 or 146 and 147.
-/

namespace LamPI
namespace Kaku

inductive SwitchType where
  | off
  | on
  | dim
  deriving DecidableEq, Repr

structure Code where
  period : ℕ
  address : ℕ
  groupBit : Bool
  switchType : SwitchType
  unit : ℕ
  dimLevelPresent : Bool
  dimLevel : ℕ
  deriving DecidableEq, Repr

structure Decoder where
  state : ℤ
  receivedBit : BitVec 8
  receivedCode : Code
  min1Period : ℕ
  max1Period : ℕ
  min5Period : ℕ
  max5Period : ℕ
  filter : RepeatFilter Code
  deriving DecidableEq, Repr

/-- The comparison of `receivedCode` with `previousCode`; it leaves the period out. -/
def sameCode (c d : Code) : Bool :=
  c.address == d.address && c.unit == d.unit && c.dimLevelPresent == d.dimLevelPresent &&
    c.dimLevel == d.dimLevel && c.groupBit == d.groupBit && c.switchType == d.switchType

def Decoder.reset (s : Decoder) : Decoder := { s with state := -1 }

def advance (s : Decoder) : Decoder × Option (Completion Code) :=
  ({ s with state := Int.bmod (s.state + 1) 65536 }, none)

/-- What an accepted stop gap of an earlier frame sets. -/
def synchronise (b : Board) (s : Decoder) (duration : ℕ) : Decoder :=
  let period := b.uint (duration / 40)
  { s with
    filter := { s.filter with repeats := 0 }
    receivedCode := { s.receivedCode with period := period }
    min1Period := b.uint (period * 3) / 10
    max1Period := b.uint (period * 3)
    min5Period := b.uint (period * 3)
    max5Period := b.uint (period * 8) }

def cleanUp (c : Code) : Code := { c with address := 0, unit := 0, dimLevel := 0 }

inductive Symbol where
  | zero
  | one
  | dim
  deriving DecidableEq, Repr

/-- The bit that the last four parts are. -/
def symbol (receivedBit : BitVec 8) : Option Symbol :=
  if lowNibble receivedBit = 0b0001#8 then some .zero
  else if lowNibble receivedBit = 0b0100#8 then some .one
  else if lowNibble receivedBit = 0b0000#8 then some .dim
  else none

def shiftAddress (c : Code) : Code := { c with address := c.address * 2 % 2 ^ 32 }

def storeAddress (bit : Bool) (c : Code) : Code := { c with address := c.address ||| bit.toNat }

def storeGroupBit (bit : Bool) (c : Code) : Code := { c with groupBit := bit }

def storeSwitchType (t : SwitchType) (c : Code) : Code := { c with switchType := t }

def shiftUnit (c : Code) : Code := { c with unit := c.unit * 2 % 256 }

def storeUnit (bit : Bool) (c : Code) : Code := { c with unit := c.unit ||| bit.toNat }

def shiftDimLevel (c : Code) : Code := { c with dimLevel := c.dimLevel * 2 % 256 }

def storeDimLevel (bit : Bool) (c : Code) : Code := { c with dimLevel := c.dimLevel ||| bit.toNat }

/-- The `switch` of all fields but the switch type: only 0 and 1 are valid. -/
def storeBit (store : Bool → Code → Code) (s : Decoder) : Decoder × Option (Completion Code) :=
  match symbol s.receivedBit with
  | some .zero => advance { s with receivedCode := store false s.receivedCode }
  | some .one => advance { s with receivedCode := store true s.receivedCode }
  | _ => (s.reset, none)

def storeSwitch (s : Decoder) : Decoder × Option (Completion Code) :=
  match symbol s.receivedBit with
  | some .zero => advance { s with receivedCode := storeSwitchType .off s.receivedCode }
  | some .one => advance { s with receivedCode := storeSwitchType .on s.receivedCode }
  | some .dim => advance { s with receivedCode := storeSwitchType .dim s.receivedCode }
  | none => (s.reset, none)

def decodeBit (s : Decoder) : Decoder × Option (Completion Code) :=
  -- the fourth part completes a bit, and the state says to which field it belongs
  if Int.tmod s.state 4 = 1 then
    if s.state < 106 then
      storeBit storeAddress { s with receivedCode := shiftAddress s.receivedCode }
    else if s.state < 110 then storeBit storeGroupBit s
    else if s.state < 114 then storeSwitch s
    else if s.state < 130 then
      storeBit storeUnit { s with receivedCode := shiftUnit s.receivedCode }
    else if s.state < 146 then
      storeBit storeDimLevel { s with receivedCode := shiftDimLevel s.receivedCode }
    else advance s
  else advance s

/-- A valid stop gap: the frame is complete.  `dimLevelPresent` is set here and never cleared. -/
def complete (s : Decoder) : Decoder × Option (Completion Code) :=
  -- state 147 is behind the dim bits
  let c := if s.state = 147 then { s.receivedCode with dimLevelPresent := true }
    else s.receivedCode
  let filter := s.filter.count sameCode c
  ({ s with
    state := if filter.reached then -1 else 0, receivedCode := c, filter := filter },
    some (filter.completion c))

/-- The states that read parts. -/
def decodePart (b : Board) (s : Decoder) (duration : ℕ) : Decoder × Option (Completion Code) :=
  -- a short part, a long one, or the stop gap behind a short one
  if duration ≤ s.max1Period then
    decodeBit { s with receivedBit := shiftIn s.receivedBit false }
  else if s.min5Period ≤ duration ∧ duration ≤ s.max5Period then
    decodeBit { s with receivedBit := shiftIn s.receivedBit true }
  else if (b.uint (20 * s.receivedCode.period) ≤ duration ∧
      duration ≤ b.uint (80 * s.receivedCode.period)) ∧
      s.receivedBit <<< 1 &&& 0b10#8 = 0b00#8 ∧ (s.state = 147 ∨ s.state = 131) then
    complete { s with receivedBit := s.receivedBit <<< 1 }
  else ({ s.reset with receivedBit := s.receivedBit <<< 1 }, none)

/-- `KakuReceiver::interruptHandler` after the low-pass filter.  The chain of cases has no last
`else`: a state from 148 on is counted on, whatever the duration. -/
def decode (b : Board) (s : Decoder) (duration : ℕ) : Decoder × Option (Completion Code) :=
  if s.state = -1 then
    -- the stop gap before a frame sets the period
    if 4800 < duration then advance (synchronise b s duration) else (s, none)
  -- the high half of the start pulse
  else if s.state = 0 then
    if s.max1Period < duration then (s.reset, none)
    else advance { s with receivedCode := cleanUp s.receivedCode }
  -- and its low half
  else if s.state = 1 then
    if duration < b.uint (7 * s.receivedCode.period) ∨
        b.uint (15 * s.receivedCode.period) < duration then (s.reset, none)
    else advance s
  else if s.state < 148 then decodePart b s duration
  -- outside a frame the counter runs on
  else advance s

/-- The decoder as the low-pass filter sees it. -/
def pulseDecoder (b : Board) : PulseDecoder Decoder (Completion Code) :=
  { active := fun s => decide (0 ≤ s.state), min1Period := Decoder.min1Period, decode := decode b }

abbrev State := Filtered Decoder

def interruptHandler (b : Board) : State → ℕ → State × Option (Completion Code) :=
  Filtered.onEdge b (pulseDecoder b)

def enable (s : State) : State := { s with enabled := true, decoder := s.decoder.reset }

def noCode : Code :=
  { period := 0, address := 0, groupBit := false, switchType := .off, unit := 0,
    dimLevelPresent := false, dimLevel := 0 }

/-- The static variables after `KakuReceiver::init(_, minRepeats, _)`, the last edges having been
seen at `edge0` and `edge2`. -/
def init (minRepeats : ℕ) (edge0 edge2 : ULong) : State :=
  enable
    { enabled := false
      lowPass := { edge0 := edge0, edge2 := edge2, skip := false }
      decoder :=
        { state := 0, receivedBit := 0, receivedCode := noCode, min1Period := 0, max1Period := 0,
          min5Period := 0, max5Period := 0,
          filter :=
            { minRepeats := minRepeats, inCallback := false, previousCode := noCode,
              repeats := 0 } } }

/-! ## What an interval can do -/

/-- The interval is a short or a long part for the thresholds of `s`. -/
def Decoder.ReadsPart (s : Decoder) (duration : ℕ) : Prop :=
  duration ≤ s.max1Period ∨ s.min5Period ≤ duration ∧ duration ≤ s.max5Period

/-- The outcomes of one interval: nothing, a session opened, the frame given up, the state moved
on, or the frame completed.  The byte `receivedBit` and the code may change on the way, but neither
the period nor `dimLevelPresent` does. -/
inductive Outcome (b : Board) (s : Decoder) (duration : ℕ) :
    Decoder × Option (Completion Code) → Prop where
  | idle (hs : s.state = -1) (hd : duration ≤ 4800) : Outcome b s duration (s, none)
  | sync (hs : s.state = -1) (hd : 4800 < duration) :
      Outcome b s duration (advance (synchronise b s duration))
  | reset (hs : s.state ≠ -1) (rb : BitVec 8) (c : Code) (hc : c.period = s.receivedCode.period)
      (hdim : c.dimLevelPresent = s.receivedCode.dimLevelPresent) :
      Outcome b s duration ({ s with state := -1, receivedBit := rb, receivedCode := c }, none)
  | advance (hs : s.state ≠ -1) (rb : BitVec 8) (c : Code) (hc : c.period = s.receivedCode.period)
      (hdim : c.dimLevelPresent = s.receivedCode.dimLevelPresent)
      (hstop : s.state = 147 → s.ReadsPart duration) :
      Outcome b s duration (advance { s with receivedBit := rb, receivedCode := c })
  | complete (hs : s.state = 147 ∨ s.state = 131) (rb : BitVec 8) :
      Outcome b s duration (complete { s with receivedBit := rb })

section Outcomes

variable {b : Board} {s : Decoder} {d : ℕ}

theorem storeBit_outcome {store : Bool → Code → Code} {rb : BitVec 8} {c : Code}
    (hs : s.state ≠ -1) (hperiod : ∀ bit, (store bit c).period = s.receivedCode.period)
    (hdim : ∀ bit, (store bit c).dimLevelPresent = s.receivedCode.dimLevelPresent)
    (hc : c.period = s.receivedCode.period)
    (hcdim : c.dimLevelPresent = s.receivedCode.dimLevelPresent)
    (hstop : s.state = 147 → s.ReadsPart d) :
    Outcome b s d (storeBit store { s with receivedBit := rb, receivedCode := c }) := by
  unfold storeBit
  split
  · exact Outcome.advance hs rb _ (hperiod false) (hdim false) hstop
  · exact Outcome.advance hs rb _ (hperiod true) (hdim true) hstop
  · exact Outcome.reset hs rb c hc hcdim

/-- A short or long part moves the state or gives up, whatever field it belongs to. -/
theorem decodeBit_outcome (rb : BitVec 8) (hs : s.state ≠ -1) (hd : s.ReadsPart d) :
    Outcome b s d (decodeBit { s with receivedBit := rb }) := by
  have hadvance : Outcome b s d (Kaku.advance { s with receivedBit := rb }) :=
    Outcome.advance hs rb s.receivedCode rfl rfl fun _ => hd
  unfold decodeBit
  -- the branches are the fields of a code; in all of them the bit is stored or aborts
  split
  · split
    · exact storeBit_outcome hs (fun _ => rfl) (fun _ => rfl) rfl rfl fun _ => hd
    · split
      · exact storeBit_outcome hs (fun _ => rfl) (fun _ => rfl) rfl rfl fun _ => hd
      · split
        · unfold storeSwitch
          split
          · exact Outcome.advance hs rb _ rfl rfl fun _ => hd
          · exact Outcome.advance hs rb _ rfl rfl fun _ => hd
          · exact Outcome.advance hs rb _ rfl rfl fun _ => hd
          · exact Outcome.reset hs rb _ rfl rfl
        · split
          · exact storeBit_outcome hs (fun _ => rfl) (fun _ => rfl) rfl rfl fun _ => hd
          · split
            · exact storeBit_outcome hs (fun _ => rfl) (fun _ => rfl) rfl rfl fun _ => hd
            · exact hadvance
  · exact hadvance

theorem decode_outcome (b : Board) (s : Decoder) (d : ℕ) : Outcome b s d (decode b s d) := by
  unfold decode
  split
  · next hs =>
    split
    · next hd => exact Outcome.sync hs hd
    · next hd => exact Outcome.idle hs (Nat.le_of_not_lt hd)
  · next hs =>
    split
    -- the start pulse
    · next h0 =>
      split
      · exact Outcome.reset hs s.receivedBit s.receivedCode rfl rfl
      · exact Outcome.advance hs s.receivedBit _ rfl rfl (by omega)
    · split
      -- the gap behind it
      · next h1 =>
        split
        · exact Outcome.reset hs s.receivedBit s.receivedCode rfl rfl
        · exact Outcome.advance hs s.receivedBit s.receivedCode rfl rfl (by omega)
      · split
        -- the parts of the bits, and the stop gap
        · unfold decodePart
          split
          · next hd => exact decodeBit_outcome _ hs (Or.inl hd)
          · split
            · next hd => exact decodeBit_outcome _ hs (Or.inr hd)
            · split
              · next hstop => exact Outcome.complete hstop.2.2 _
              · exact Outcome.reset hs _ s.receivedCode rfl rfl
        · next hlost => exact Outcome.advance hs s.receivedBit s.receivedCode rfl rfl (by omega)

end Outcomes

end Kaku
end LamPI
