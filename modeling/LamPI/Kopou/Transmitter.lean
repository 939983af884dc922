import LamPI.Livolo.Transmitter
import LamPI.Kopou.Receiver

/-!
# Kopou transmitter — `kopouTransmitter.cpp`

The header comment of the source describes the frames of the receiver, a start pulse of one and
five periods and bits of a short and a long pulse.  The code sends those of a Livolo remote, with
a key of 8 bits, and its receiver takes none of their pulses for a start pulse.
-/

namespace LamPI
namespace Kopou

open PulseLine BigEndian

def sendPulse : ℕ → List Action := Livolo.sendPulse

/-- `for (i = n; i>0; i--) selectPulse(bitRead(value, i-1));`, with the `selectPulse` of Livolo. -/
def sendBits (value n : ℕ) (high : Bool) : List Action × Bool := Livolo.sendBits value n high

/-- One round of the loop of `Kopou::sendButton`. -/
def sendFrame (remoteID keycode : ℕ) : List Action :=
  let id := sendBits remoteID 16 true
  let key := sendBits keycode 8 id.2
  sendPulse 1 ++ (id.1 ++ key.1)

/-- `Kopou::sendButton`: `pulse` counts from 0 to 180. -/
def sendButton (remoteID keycode : ℕ) : List Action :=
  (List.replicate 181 (sendFrame remoteID keycode)).flatten ++ [digitalWrite LOW]

/-! ## Edges -/

/-- The delays between the edges of a frame that finds the pin at `l`. -/
def frameWidths (remoteID keycode : ℕ) (l : Bool) : List ℕ :=
  Livolo.startEdge l ++ 500 :: (bits 16 remoteID ++ bits 8 keycode).flatMap Livolo.widths

/-- The first frame begins with an edge of its own, and no pulse is longer than the start pulse. -/
theorem edges_sendButton (remoteID keycode t : ℕ) :
    ∃ ds, edges ⟨LOW, t⟩ (sendButton remoteID keycode) = stamps t (0 :: 500 :: ds) ∧
      ∀ d ∈ ds, d ≤ 500 := by
  have hframe : ∀ l t, _ = stamps t (frameWidths remoteID keycode l) ∧ _ :=
    Livolo.edges_startFrame remoteID keycode 8
  -- the frames are those of Livolo, with a key of 8 bits
  rcases edges_copies_low hframe 181 LOW t with ⟨last, hlast, hedges⟩
  have hsmall : ∀ l, ∀ d ∈ frameWidths remoteID keycode l, d ≤ 500 := by
    intro l d hd
    rcases List.mem_append.1 hd with hd | hd
    · cases l <;> simp [Livolo.startEdge] at hd
      omega
    · rcases List.mem_cons.1 hd with rfl | hd
      · exact Nat.le_refl _
      · rcases List.mem_flatMap.1 hd with ⟨bit, -, hmem⟩
        cases bit <;> simp [Livolo.widths] at hmem <;> omega
  refine ⟨_, hedges, ?_⟩
  intro d hd
  -- behind the first start pulse everything is a copy of a frame, or the end
  have hmem : d ∈ copies (frameWidths remoteID keycode) _ 181 LOW ++ last :=
    List.mem_cons_of_mem 0 (List.mem_cons_of_mem 500 hd)
  rcases List.mem_append.1 hmem with hmem | hmem
  · rcases mem_copies hmem with ⟨l, hl⟩
    exact hsmall l d hl
  · rcases hlast with rfl | rfl <;> simp at hmem
    omega

/-! ## Reception -/

variable {b : Board} {s : Decoder}

/-- In state -1 no interval of at most 500 µs does anything. -/
theorem run_short {ds : List ℕ} (hs : s.state = -1) (hds : ∀ d ∈ ds, d ≤ 500) :
    Mealy.final (decode b) s ds = s ∧ Mealy.events (decode b) s ds = [] := by
  refine Mealy.run_ignored fun d hd => decode_idle hs ?_
  have hle : d ≤ 500 := hds d hd
  rw [Start, b.uint_of_lt (by omega)]
  omega

/-- A pause before the transmission may look like a start pulse; the 500 µs after it do not look
like a bit. -/
theorem run_pause (hs : s.state = -1) (gap : ℕ) :
    (Mealy.final (decode b) s [gap, 500]).state = -1 ∧
      Mealy.events (decode b) s [gap, 500] = [] := by
  have hidle : ∀ s : Decoder, s.state = -1 → decode b s 500 = (s, none) := fun s hs =>
    decode_idle hs (by rw [Start, b.uint_of_lt (by decide)]; omega)
  rw [Mealy.final_cons, Mealy.events_cons, Mealy.final_cons, Mealy.events_cons]
  by_cases hgap : Start b gap
  · rcases decode_start hs hgap with ⟨⟨hstate, -, -⟩, hquiet⟩
    have hreset : decode b (decode b s gap).1 500 = ((decode b s gap).1.reset, none) :=
      if_pos ⟨by rw [hstate]; rfl, Or.inr (by decide)⟩
    rw [hquiet, hreset]
    exact ⟨rfl, rfl⟩
  · rw [decode_idle hs hgap, hidle s hs]
    exact ⟨hs, rfl⟩

/-- The callback is never called. -/
theorem callbacks_sendButton (b : Board) (remoteID keycode t : ℕ) {s : State}
    (hstate : s.decoder.state = -1) :
    callbacks (Mealy.events (interruptHandler b) s
      (edges ⟨LOW, t⟩ (sendButton remoteID keycode))) = [] := by
  cases henabled : s.enabled with
  | false =>
      have hdisabled : ∀ now, interruptHandler b s now = (s, none) := fun now =>
        if_neg (by rw [henabled]; exact Bool.false_ne_true)
      exact congrArg callbacks (Mealy.run_ignored fun now _ => hdisabled now).2
  | true =>
      rcases edges_sendButton remoteID keycode t with ⟨ds, hedges, hds⟩
      -- the pause before the transmission, then what was sent
      have hmeasured : measured s.edge2 (stamps t (0 :: 500 :: ds)) =
          [(micros t - s.edge2).toNat, 500] ++ ds := by
        refine measured_stamps_cons fun d hd => ?_
        rcases List.mem_cons.1 hd with rfl | hd
        · decide
        · exact lt_of_le_of_lt (hds d hd) (by decide)
      rcases run_pause (b := b) hstate (micros t - s.edge2).toNat with ⟨hidle, hquiet⟩
      have hevents : Mealy.events (Sampled.onEdge (decode b)) s (stamps t (0 :: 500 :: ds)) = _ :=
        Sampled.events_eq henabled _
      rw [hmeasured, Mealy.events_append, hquiet, (run_short hidle hds).2, ← hedges] at hevents
      exact congrArg callbacks hevents

/-- Of whatever is sent the receiver gets nothing: the round trip fails for every payload. -/
theorem sendButton_not_received (b : Board) (remoteID keycode t : ℕ) (s : State)
    (hstate : s.decoder.state = -1) :
    let calls := callbacks (Mealy.events (interruptHandler b) s
      (edges ⟨LOW, t⟩ (sendButton remoteID keycode)))
    calls = [] ∧ ¬∃ c ∈ calls, c.address = remoteID ∧ c.unit = keycode := by
  intro calls
  have hcalls : calls = [] := callbacks_sendButton b remoteID keycode t hstate
  rw [hcalls]
  exact ⟨rfl, fun ⟨c, hc, _⟩ => absurd hc List.not_mem_nil⟩

/-- Button #2 of remote 6400, and a fresh receiver. -/
theorem sendButton_not_received_example :
    let calls := callbacks (Mealy.events (interruptHandler .avr) (init 3 0)
      (edges ⟨LOW, 10000⟩ (sendButton 6400 96)))
    calls = [] ∧ ¬∃ c ∈ calls, c.address = 6400 ∧ c.unit = 96 :=
  sendButton_not_received .avr 6400 96 10000 (init 3 0) rfl

/-- The same transmission, against what it is meant for. -/
theorem sendButton_lost :
    ¬∃ c ∈ callbacks (Mealy.events (interruptHandler .avr) (init 3 0)
        (edges ⟨LOW, 10000⟩ (sendButton 6400 96))), c.address = 6400 ∧ c.unit = 96 := by
  rw [callbacks_sendButton .avr 6400 96 10000 rfl]
  exact fun ⟨c, hc, _⟩ => absurd hc List.not_mem_nil

end Kopou
end LamPI
