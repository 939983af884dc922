import LamPI.Arduino
import LamPI.Library.Digits

/-!
# WT440 transmitter — `wt440Transmitter.cpp`

A repetition is 36 bits; a `0` is one pulse of 2000 µs and a `1` two of 1050 µs, and the pin
changes its level at the end of each pulse.  A repetition always starts with a high pulse, so it
starts with an edge only if the pin was left `LOW`.
-/

namespace LamPI
namespace Wt440

open PulseLine BigEndian

structure TxCode where
  address : ℕ
  channel : ℕ
  humi : ℕ
  wcode : ℕ
  temp : ℕ
  deriving DecidableEq, Repr

def PULSE0 : ℕ := 2000

def PULSE1 : ℕ := 1050

def sendPulse : ℕ → List Action
  | 1 => [digitalWrite HIGH, delayMicroseconds 1100]
  | 2 => [digitalWrite LOW, delayMicroseconds PULSE0, digitalWrite HIGH]
  | 3 => [digitalWrite LOW, delayMicroseconds PULSE1, digitalWrite HIGH]
  | 4 => [digitalWrite HIGH, delayMicroseconds PULSE0, digitalWrite LOW]
  | 5 => [digitalWrite HIGH, delayMicroseconds PULSE1, digitalWrite LOW]
  | _ => []

/-- `wt440Transmitter::selectPulse`, with the new value of `high`. -/
def selectPulse (high : Bool) : Bool → List Action × Bool
  | false => (if high then sendPulse 2 else sendPulse 4, !high)
  | true => (if high then sendPulse 3 ++ sendPulse 5 else sendPulse 5 ++ sendPulse 3, high)

def selectPulses : List Bool → Bool → List Action × Bool
  | [], high => ([], high)
  | bit :: bs, high =>
      let p := selectPulse high bit
      let rest := selectPulses bs p.2
      (p.1 ++ rest.1, rest.2)

/-- The variables that a repetition carries from field to field. -/
structure Sending where
  high : Bool
  par : Bool

/-- `for (i = n; i>0; i--)
{ txPulse = bitRead(value, i-1); par ^= txPulse; selectPulse(txPulse); }` -/
def sendField (value : ℕ) : ℕ → Sending → List Action × Sending
  | 0, tx => ([], tx)
  | i + 1, tx =>
      let txPulse := bitRead value i
      let p := selectPulse tx.high txPulse
      let rest := sendField value i { high := p.2, par := tx.par ^^ txPulse }
      (p.1 ++ rest.1, rest.2)

/-- One round of the loop of `wt440Transmitter::sendMsg`. -/
def sendRepetition (msgCode : TxCode) : List Action :=
  let start := selectPulses [true, true, false, false] false
  let address := sendField msgCode.address 4 { high := start.2, par := false }
  let channel := sendField msgCode.channel 2 address.2
  let wcode := sendField msgCode.wcode 3 channel.2
  let humi := sendField msgCode.humi 7 wcode.2
  let temp := sendField msgCode.temp 15 humi.2
  start.1 ++ address.1 ++ channel.1 ++ wcode.1 ++ humi.1 ++ temp.1 ++
    (selectPulse temp.2.high temp.2.par).1 ++ [delay 50]

def sendMsg (msgCode : TxCode) : List Action :=
  (List.replicate 4 (sendRepetition msgCode)).flatten ++ [digitalWrite LOW]

/-! ## The bits of a repetition -/

/-- The payload of a message: all fields, without leader and parity bit. -/
def payloadBits (m : TxCode) : List Bool :=
  bits 4 m.address ++ bits 2 m.channel ++ bits 3 m.wcode ++ bits 7 m.humi ++ bits 15 m.temp

def leader : List Bool := [true, true, false, false]

def frameBits (m : TxCode) : List Bool := leader ++ payloadBits m ++ [parity (payloadBits m)]

@[simp] theorem length_payloadBits (m : TxCode) : (payloadBits m).length = 31 := by
  simp [payloadBits]

@[simp] theorem length_frameBits (m : TxCode) : (frameBits m).length = 36 := by
  simp [frameBits, leader]

/-- Every repetition has even parity. -/
theorem parity_frameBits (m : TxCode) : parity (frameBits m) = false := by
  simp [frameBits, leader]

/-- `sendField` makes the pulses of the field's bits and adds them to the parity. -/
theorem sendField_eq (value n : ℕ) (tx : Sending) :
    sendField value n tx =
      ((selectPulses (bits n value) tx.high).1,
        { high := (selectPulses (bits n value) tx.high).2,
          par := tx.par ^^ parity (bits n value) }) := by
  induction n generalizing tx with
  | zero => simp [sendField, selectPulses, bits]
  | succ n ih => simp [sendField, ih, bits, selectPulses, bitRead]

theorem selectPulses_append (as bs : List Bool) (high : Bool) :
    selectPulses (as ++ bs) high =
      ((selectPulses as high).1 ++ (selectPulses bs (selectPulses as high).2).1,
        (selectPulses bs (selectPulses as high).2).2) := by
  induction as generalizing high with
  | nil => simp [selectPulses]
  | cons a as ih => simp [selectPulses, ih]

theorem sendRepetition_eq (m : TxCode) :
    sendRepetition m = (selectPulses (frameBits m) false).1 ++ [delay 50] := by
  have hlast : ∀ bit high, (selectPulse high bit).1 = (selectPulses [bit] high).1 := by
    intro bit high
    simp [selectPulses]
  simp only [sendRepetition, sendField_eq, hlast, frameBits, payloadBits, leader,
    selectPulses_append, parity_append, List.append_assoc, Bool.false_xor, Bool.xor_assoc]

/-! ## Edges -/

def widths : Bool → List ℕ
  | false => [PULSE0]
  | true => [PULSE1, PULSE1]

def frameWidths (m : TxCode) : List ℕ := (frameBits m).flatMap widths

/-- A zero bit inverts the next pulse. -/
theorem selectPulses_high (bs : List Bool) (high : Bool) :
    (selectPulses bs high).2 = (high ^^ parity (bs.map not)) := by
  induction bs generalizing high with
  | nil => simp [selectPulses]
  | cons b bs ih => cases b <;> simp [selectPulses, selectPulse, ih]

/-- When the pin already has the level of the next pulse, every pulse ends with its only edge. -/
theorem edges_selectPulses (bs : List Bool) (high : Bool) (t : ℕ) :
    edges ⟨!high, t⟩ (selectPulses bs high).1 = stamps t (bs.flatMap widths) ∧
      after ⟨!high, t⟩ (selectPulses bs high).1 =
        ⟨!(selectPulses bs high).2, t + (bs.flatMap widths).sum⟩ := by
  induction bs generalizing high t with
  | nil => exact ⟨rfl, rfl⟩
  | cons bit bs ih =>
      have hpulse : edges ⟨!high, t⟩ (selectPulse high bit).1 = stamps t (widths bit) ∧
          after ⟨!high, t⟩ (selectPulse high bit).1 =
            ⟨!(selectPulse high bit).2, t + (widths bit).sum⟩ := by
        cases high <;> cases bit <;> simp [selectPulse, sendPulse, widths, Nat.add_assoc]
      rcases ih (selectPulse high bit).2 (t + (widths bit).sum) with ⟨ihedges, ihafter⟩
      rw [selectPulses, List.flatMap_cons]
      constructor
      · rw [edges_append, hpulse.1, hpulse.2, ihedges, stamps_append]
      · rw [after_append, hpulse.2, ihafter, List.sum_append, Nat.add_assoc]

/-- The number of zero bits of a repetition is even, so it ends on the level it began with. -/
theorem selectPulses_frameBits (m : TxCode) : (selectPulses (frameBits m) false).2 = false := by
  rw [selectPulses_high, parity_map_not, parity_frameBits, length_frameBits]
  rfl

/-- A repetition on a `HIGH` pin leaves it `HIGH`. -/
theorem edges_sendRepetition (m : TxCode) (t : ℕ) :
    edges ⟨HIGH, t⟩ (sendRepetition m) = stamps t (frameWidths m) ∧
      after ⟨HIGH, t⟩ (sendRepetition m) = ⟨HIGH, t + ((frameWidths m).sum + 50000)⟩ := by
  rcases edges_selectPulses (frameBits m) false t with ⟨hedges, hafter⟩
  rw [selectPulses_frameBits] at hafter
  rw [Bool.not_false] at hedges hafter
  rw [sendRepetition_eq]
  constructor
  · rw [edges_append, hedges, hafter]
    simp [frameWidths]
  · rw [after_append, hafter]
    simp [frameWidths, Nat.add_assoc]

/-- On a `LOW` pin the start of a repetition is an edge of its own. -/
theorem edges_sendRepetition_low (m : TxCode) (t : ℕ) :
    edges ⟨LOW, t⟩ (sendRepetition m) = t :: edges ⟨HIGH, t⟩ (sendRepetition m) ∧
      after ⟨LOW, t⟩ (sendRepetition m) = after ⟨HIGH, t⟩ (sendRepetition m) := by
  rw [sendRepetition_eq]
  exact ⟨rfl, rfl⟩

/-- The delays between the edges of a repetition that follows another: its first edge only comes
after the first pulse. -/
def laterWidths (m : TxCode) : List ℕ := (50000 + PULSE1) :: (frameWidths m).tail

theorem frameWidths_eq (m : TxCode) : frameWidths m = PULSE1 :: (frameWidths m).tail := rfl

theorem edges_laterRepetitions (m : TxCode) (n t : ℕ) :
    edges ⟨HIGH, t + 50000⟩ (List.replicate n (sendRepetition m)).flatten =
        stamps t (List.replicate n (laterWidths m)).flatten ∧
      after ⟨HIGH, t + 50000⟩ (List.replicate n (sendRepetition m)).flatten =
        ⟨HIGH, t + (List.replicate n (laterWidths m)).flatten.sum + 50000⟩ := by
  induction n generalizing t with
  | zero => exact ⟨rfl, rfl⟩
  | succ n ih =>
      have hlater : stamps (t + 50000) (frameWidths m) = stamps t (laterWidths m) := by
        rw [frameWidths_eq, stamps_wait, laterWidths]
      have hsum : t + 50000 + ((frameWidths m).sum + 50000) =
          t + (laterWidths m).sum + 50000 := by
        rw [frameWidths_eq, laterWidths, List.sum_cons, List.sum_cons]
        omega
      rcases edges_sendRepetition m (t + 50000) with ⟨hedges, hafter⟩
      rcases ih (t + (laterWidths m).sum) with ⟨ihedges, ihafter⟩
      rw [List.replicate_succ, List.flatten_cons, List.replicate_succ, List.flatten_cons]
      constructor
      · rw [edges_append, hedges, hafter, hlater, hsum, ihedges, stamps_append]
      · rw [after_append, hafter, hsum, ihafter, List.sum_append, ← Nat.add_assoc]

/-- The delays between the edges of `sendMsg`: only the first repetition starts with an edge. -/
def msgWidths (m : TxCode) : List ℕ :=
  frameWidths m ++ ((List.replicate 3 (laterWidths m)).flatten ++ [50000])

theorem edges_sendMsg (m : TxCode) (t : ℕ) :
    edges ⟨LOW, t⟩ (sendMsg m) = stamps t (0 :: msgWidths m) := by
  rcases edges_sendRepetition m t with ⟨hedges, hafter⟩
  rcases edges_sendRepetition_low m t with ⟨hlow, hlow'⟩
  rcases edges_laterRepetitions m 3 (t + (frameWidths m).sum) with ⟨ledges, lafter⟩
  have hfirst : (List.replicate 4 (sendRepetition m)).flatten =
      sendRepetition m ++ (List.replicate 3 (sendRepetition m)).flatten := rfl
  rw [sendMsg, edges_append, hfirst, edges_append, after_append, hlow, hlow', hedges,
    hafter, ← Nat.add_assoc, ledges, lafter, msgWidths, stamps_cons, Nat.add_zero, stamps_append,
    stamps_append, edges_write_false]
  simp

end Wt440
end LamPI
