import LamPI.Arduino
import LamPI.Library.Digits

/-!
# Livolo transmitter — `livoloTransmitter.cpp`

A frame is a start pulse and 23 bits; a `1` is one pulse of 300 µs and a `0` two of 100 µs.  The
level alternates from pulse to pulse, so the pin level at the end of a frame, and with it
whether the next start pulse begins with an edge, depends on the payload.
-/

namespace LamPI
namespace Livolo

open PulseLine BigEndian

def sendPulse : ℕ → List Action
  | 1 => [digitalWrite HIGH, delayMicroseconds 500]
  | 2 => [digitalWrite LOW, delayMicroseconds 100, digitalWrite HIGH]
  | 3 => [digitalWrite LOW, delayMicroseconds 300, digitalWrite HIGH]
  | 4 => [digitalWrite HIGH, delayMicroseconds 100, digitalWrite LOW]
  | 5 => [digitalWrite HIGH, delayMicroseconds 300, digitalWrite LOW]
  | _ => []

/-- One round of the loop in case 0 of `Livolo::selectPulse`, with the new value of `high`. -/
def selectZero (high : Bool) : List Action × Bool :=
  (if high then sendPulse 2 else sendPulse 4, !high)

def selectPulse (high : Bool) : Bool → List Action × Bool
  | false =>
      let first := selectZero high
      let second := selectZero first.2
      (first.1 ++ second.1, second.2)
  | true => (if high then sendPulse 3 else sendPulse 5, !high)

/-- `for (i = n; i>0; i--) selectPulse(bitRead(value, i-1));` -/
def sendBits (value : ℕ) : ℕ → Bool → List Action × Bool
  | 0, high => ([], high)
  | i + 1, high =>
      let p := selectPulse high (bitRead value i)
      let rest := sendBits value i p.2
      (p.1 ++ rest.1, rest.2)

/-- One round of the loop of `Livolo::sendButton`. -/
def sendFrame (remoteID keycode : ℕ) : List Action :=
  let id := sendBits remoteID 16 true
  let key := sendBits keycode 7 id.2
  sendPulse 1 ++ (id.1 ++ key.1)

/-- `Livolo::sendButton`: `pulse` counts from 0 to 180. -/
def sendButton (remoteID keycode : ℕ) : List Action :=
  (List.replicate 181 (sendFrame remoteID keycode)).flatten ++ [digitalWrite LOW]

/-! ## Edges -/

def widths : Bool → List ℕ
  | false => [100, 100]
  | true => [300]

def payloadWidths (remoteID keycode : ℕ) : List ℕ :=
  (bits 16 remoteID ++ bits 7 keycode).flatMap widths

/-- While the pin has the level that `high` asks the next pulse to leave, each pulse ends with its
only edge. -/
theorem edges_selectPulse (high bit : Bool) (t : ℕ) :
    edges ⟨!high, t⟩ (selectPulse high bit).1 = stamps t (widths bit) ∧
      after ⟨!high, t⟩ (selectPulse high bit).1 =
        ⟨!(selectPulse high bit).2, t + (widths bit).sum⟩ := by
  cases high <;> cases bit <;>
    simp [selectPulse, selectZero, sendPulse, widths, Nat.add_assoc]

theorem edges_sendBits (value n : ℕ) (high : Bool) (t : ℕ) :
    edges ⟨!high, t⟩ (sendBits value n high).1 = stamps t ((bits n value).flatMap widths) ∧
      after ⟨!high, t⟩ (sendBits value n high).1 =
        ⟨!(sendBits value n high).2, t + ((bits n value).flatMap widths).sum⟩ := by
  induction n generalizing high t with
  | zero => exact ⟨rfl, rfl⟩
  | succ n ih =>
      rcases edges_selectPulse high (bitRead value n) t with ⟨hedges, hafter⟩
      rcases ih (selectPulse high (bitRead value n)).2 (t + (widths (bitRead value n)).sum) with
        ⟨ihedges, ihafter⟩
      have hwidths : (bits (n + 1) value).flatMap widths =
          widths (bitRead value n) ++ (bits n value).flatMap widths := rfl
      rw [sendBits, hwidths]
      constructor
      · rw [edges_append, hedges, hafter, ihedges, stamps_append]
      · rw [after_append, hafter, ihafter, List.sum_append, Nat.add_assoc]

/-- The first pulse after the start pulse begins with an edge of its own. -/
theorem edges_sendBits_start (value n : ℕ) (t : ℕ) :
    edges ⟨true, t⟩ (sendBits value (n + 1) true).1 =
        t :: edges ⟨false, t⟩ (sendBits value (n + 1) true).1 ∧
      after ⟨true, t⟩ (sendBits value (n + 1) true).1 =
        after ⟨false, t⟩ (sendBits value (n + 1) true).1 := by
  rw [sendBits]
  cases bitRead value n <;> exact ⟨rfl, rfl⟩

def endLevel (remoteID keycode : ℕ) : Bool :=
  !(sendBits keycode 7 (sendBits remoteID 16 true).2).2

/-- The edge of the start pulse, made only when the pin is `LOW`. -/
def startEdge : Bool → List ℕ
  | false => [0]
  | true => []

def frameWidths (remoteID keycode : ℕ) : List ℕ := 500 :: payloadWidths remoteID keycode

/-- A start pulse, an identifier and `n` bits of a key. -/
theorem edges_startFrame (remoteID keycode n : ℕ) (l : Bool) (t : ℕ) :
    let id := sendBits remoteID 16 true
    let key := sendBits keycode n id.2
    let ws := startEdge l ++ 500 :: (bits 16 remoteID ++ bits n keycode).flatMap widths
    edges ⟨l, t⟩ (sendPulse 1 ++ (id.1 ++ key.1)) = stamps t ws ∧
      after ⟨l, t⟩ (sendPulse 1 ++ (id.1 ++ key.1)) = ⟨!key.2, t + ws.sum⟩ := by
  intro id key ws
  -- the start pulse writes an edge only if the pin was high before
  have hstart : edges ⟨l, t⟩ (sendPulse 1) = stamps t (startEdge l) ∧
      after ⟨l, t⟩ (sendPulse 1) = ⟨true, t + 500⟩ := by
    cases l <;> simp [sendPulse, startEdge]
  rcases edges_sendBits_start remoteID 15 (t + 500) with ⟨hid, hid'⟩
  rcases edges_sendBits remoteID 16 true (t + 500) with ⟨hedges, hafter⟩
  rcases edges_sendBits keycode n id.2 (t + 500 + ((bits 16 remoteID).flatMap widths).sum) with
    ⟨kedges, kafter⟩
  have hsum : (startEdge l).sum = 0 := by cases l <;> rfl
  have hws : ws = startEdge l ++
      500 :: ((bits 16 remoteID).flatMap widths ++ (bits n keycode).flatMap widths) := by
    rw [← List.flatMap_append]
  rw [Bool.not_true] at hedges hafter
  rw [hws]
  constructor
  · rw [edges_append, edges_append, hstart.1, hstart.2, hid, hid', hedges, hafter, kedges,
      stamps_append, hsum, Nat.add_zero, stamps_cons, stamps_append, List.cons_append]
  · rw [after_append, after_append, hstart.2, hid', hafter, kafter]
    simp [hsum, key, Nat.add_assoc]

theorem edges_sendFrame (remoteID keycode : ℕ) (l : Bool) (t : ℕ) :
    edges ⟨l, t⟩ (sendFrame remoteID keycode) =
        stamps t (startEdge l ++ frameWidths remoteID keycode) ∧
      after ⟨l, t⟩ (sendFrame remoteID keycode) =
        ⟨endLevel remoteID keycode,
          t + (startEdge l ++ frameWidths remoteID keycode).sum⟩ :=
  edges_startFrame remoteID keycode 7 l t

/-- The delays between the edges of `n` frames, the pin being `l` at first. -/
def framesWidths (remoteID keycode : ℕ) : ℕ → Bool → List ℕ
  | 0, _ => []
  | n + 1, l => (startEdge l ++ frameWidths remoteID keycode) ++
      framesWidths remoteID keycode n (endLevel remoteID keycode)

theorem framesWidths_eq (remoteID keycode n : ℕ) (l : Bool) :
    framesWidths remoteID keycode n l =
      copies (fun l => startEdge l ++ frameWidths remoteID keycode) (endLevel remoteID keycode)
        n l := by
  induction n generalizing l with
  | zero => rfl
  | succ n ih => rw [framesWidths, copies, ih]

/-- Apart from a last edge at the very end, the edges of `sendButton` are those of its frames. -/
theorem edges_sendButton (remoteID keycode t : ℕ) :
    ∃ last, (last = [] ∨ last = [0]) ∧
      edges ⟨LOW, t⟩ (sendButton remoteID keycode) =
        stamps t (framesWidths remoteID keycode 181 LOW ++ last) := by
  rw [framesWidths_eq]
  exact edges_copies_low (edges_sendFrame remoteID keycode) 181 LOW t

end Livolo
end LamPI
