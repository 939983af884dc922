import LamPI.Arduino
import LamPI.Library.Digits

/-!
# Quhwa transmitter — `quhwaTransmitter.cpp`

A frame is a start pulse and 35 bits, each of one pulse: 350 µs for a `0`, 1050 µs for a `1`.  The
level alternates from bit to bit; 35 is odd, so that every frame ends with the pin `LOW`.
-/

namespace LamPI
namespace Quhwa

open PulseLine BigEndian

def sendPulse : ℕ → List Action
  | 1 => [digitalWrite HIGH, delayMicroseconds 350, digitalWrite LOW, delayMicroseconds 6000,
      digitalWrite HIGH]
  | 2 => [digitalWrite LOW, delayMicroseconds 350, digitalWrite HIGH]
  | 3 => [digitalWrite LOW, delayMicroseconds 1050, digitalWrite HIGH]
  | 4 => [digitalWrite HIGH, delayMicroseconds 350, digitalWrite LOW]
  | 5 => [digitalWrite HIGH, delayMicroseconds 1050, digitalWrite LOW]
  | _ => []

def selectPulse (high : Bool) : Bool → List Action × Bool
  | false => (if high then sendPulse 4 else sendPulse 2, !high)
  | true => (if high then sendPulse 5 else sendPulse 3, !high)

def sendBits (value : ℕ) : ℕ → Bool → List Action × Bool
  | 0, high => ([], high)
  | i + 1, high =>
      let p := selectPulse high (bitRead value i)
      let rest := sendBits value i p.2
      (p.1 ++ rest.1, rest.2)

/-- One round of the loop of `Quhwa::sendButton`. -/
def sendFrame (remoteID keycode : ℕ) : List Action :=
  let id := sendBits remoteID 27 true
  let key := sendBits keycode 8 id.2
  sendPulse 1 ++ (id.1 ++ (key.1 ++ [if key.2 then digitalWrite HIGH else digitalWrite LOW]))

/-- `Quhwa::sendButton`: `pulse` counts from 0 to 25. -/
def sendButton (remoteID keycode : ℕ) : List Action :=
  (List.replicate 26 (sendFrame remoteID keycode)).flatten

/-! ## Edges -/

def width : Bool → ℕ
  | false => 350
  | true => 1050

def payloadWidths (remoteID keycode : ℕ) : List ℕ :=
  (bits 27 remoteID ++ bits 8 keycode).map width

/-- The pin has the level that the pulse asks for already, so that each pulse ends with its only
edge. -/
theorem edges_selectPulse (high bit : Bool) (t : ℕ) :
    edges ⟨high, t⟩ (selectPulse high bit).1 = [t + width bit] ∧
      after ⟨high, t⟩ (selectPulse high bit).1 = ⟨!high, t + width bit⟩ := by
  cases high <;> cases bit <;> simp [selectPulse, sendPulse, width]

@[simp] theorem selectPulse_snd (high bit : Bool) : (selectPulse high bit).2 = !high := by
  cases bit <;> rfl

theorem edges_sendBits (value n : ℕ) (high : Bool) (t : ℕ) :
    edges ⟨high, t⟩ (sendBits value n high).1 = stamps t ((bits n value).map width) ∧
      after ⟨high, t⟩ (sendBits value n high).1 =
        ⟨(sendBits value n high).2, t + ((bits n value).map width).sum⟩ := by
  induction n generalizing high t with
  | zero => exact ⟨rfl, rfl⟩
  | succ n ih =>
      rcases edges_selectPulse high (bitRead value n) t with ⟨hedges, hafter⟩
      rcases ih (!high) (t + width (bitRead value n)) with ⟨ihedges, ihafter⟩
      have hwidths : (bits (n + 1) value).map width =
          width (bitRead value n) :: (bits n value).map width := rfl
      rw [sendBits, hwidths]
      simp only [selectPulse_snd]
      constructor
      · rw [edges_append, hedges, hafter, ihedges, stamps_cons]
        rfl
      · rw [after_append, hafter, ihafter, List.sum_cons, Nat.add_assoc]

/-- Every bit inverts `high`. -/
theorem sendBits_high (value n : ℕ) (high : Bool) :
    (sendBits value n high).2 = (high ^^ decide (n % 2 = 1)) := by
  induction n generalizing high with
  | zero => simp [sendBits]
  | succ n ih =>
      rw [sendBits]
      simp only [selectPulse_snd, ih]
      rcases Nat.mod_two_eq_zero_or_one n with h | h <;>
        cases high <;> simp [h, Nat.add_mod]

/-- The delays between the edges of one frame, the first of them before the edge it begins with. -/
def frameWidths (remoteID keycode : ℕ) : List ℕ :=
  0 :: 350 :: 6000 :: payloadWidths remoteID keycode

theorem edges_sendFrame (remoteID keycode t : ℕ) :
    edges ⟨LOW, t⟩ (sendFrame remoteID keycode) = stamps t (frameWidths remoteID keycode) ∧
      after ⟨LOW, t⟩ (sendFrame remoteID keycode) =
        ⟨LOW, t + (frameWidths remoteID keycode).sum⟩ := by
  have hstart : edges ⟨LOW, t⟩ (sendPulse 1) = [t, t + 350, t + 350 + 6000] ∧
      after ⟨LOW, t⟩ (sendPulse 1) = ⟨HIGH, t + 350 + 6000⟩ := by
    simp [sendPulse]
  -- 27 bits end on the other level, 8 bits on the same
  have hid : (sendBits remoteID 27 true).2 = false := sendBits_high remoteID 27 true
  have hkey : (sendBits keycode 8 false).2 = false := sendBits_high keycode 8 false
  rcases edges_sendBits remoteID 27 true (t + 350 + 6000) with ⟨iedges, iafter⟩
  rcases edges_sendBits keycode 8 false
      (t + 350 + 6000 + ((bits 27 remoteID).map width).sum) with ⟨kedges, kafter⟩
  rw [hid] at iafter
  rw [hkey] at kafter
  rw [sendFrame, frameWidths, payloadWidths, List.map_append]
  simp only [hid, hkey, Bool.false_eq_true, if_false]
  constructor
  · rw [edges_append, hstart.1, hstart.2, edges_append, iedges, iafter, edges_append, kedges, kafter,
      edges_write_same, edges_nil, List.append_nil, stamps_cons, stamps_cons, stamps_cons,
      stamps_append, Nat.add_zero]
    rfl
  · rw [after_append, hstart.2, after_append, iafter, after_append, kafter, after_write, after_nil]
    simp only [List.sum_cons, List.sum_append, Nat.zero_add, Nat.add_assoc]

def framesWidths (remoteID keycode n : ℕ) : List ℕ :=
  (List.replicate n (frameWidths remoteID keycode)).flatten

theorem edges_sendFrames (remoteID keycode n t : ℕ) :
    edges ⟨LOW, t⟩ (List.replicate n (sendFrame remoteID keycode)).flatten =
      stamps t (framesWidths remoteID keycode n) := by
  induction n generalizing t with
  | zero => rfl
  | succ n ih =>
      rcases edges_sendFrame remoteID keycode t with ⟨hedges, hafter⟩
      rw [List.replicate_succ, List.flatten_cons, framesWidths, List.replicate_succ,
        List.flatten_cons, edges_append, hedges, hafter, ih, stamps_append]
      rfl

theorem edges_sendButton (remoteID keycode t : ℕ) :
    edges ⟨LOW, t⟩ (sendButton remoteID keycode) = stamps t (framesWidths remoteID keycode 26) :=
  edges_sendFrames remoteID keycode 26 t

end Quhwa
end LamPI
