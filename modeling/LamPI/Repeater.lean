import LamPI.Wt440.Consecutive

/-!
# The repeater — `ArduinoRepeater.ino`

`showWt440Code` is the callback of the repeater's receiver.  It copies the code into a local
`wt440TxCode`, of which it sets every field but `wcode`, and sends that.
-/

namespace LamPI
namespace Repeater

open PulseLine BigEndian Wt440

/-- What `showWt440Code` puts into `msgCode`, whose contents are arbitrary at first: the channel is
set to the address, and `wcode` is left as it was. -/
def fill (b : Board) (msgCode : TxCode) (receivedCode : Code) : TxCode :=
  { msgCode with
    address := receivedCode.address
    channel := receivedCode.address
    humi := receivedCode.humidity
    temp := (receivedCode.temperature % 2 ^ b.uintBits).toNat }

def showWt440Code (b : Board) (msgCode : TxCode) (receivedCode : Code) : List Action :=
  sendMsg (fill b msgCode receivedCode)

/-- Two codes have the same address, channel, constant, humidity and temperature. -/
def SameReading (c d : Code) : Prop :=
  c.address = d.address ∧ c.channel = d.channel ∧ c.wconst = d.wconst ∧ c.humidity = d.humidity ∧
    c.temperature = d.temperature

/-- A receiver in state -1 completes one frame of a message, unless it takes the pause before it
for a first pulse. -/
theorem codes_msgWidths {m : TxCode} {s : Decoder} (hs : s.state = -1) (hskip : s.skip = false)
    (d : ℕ) : codes (Mealy.events decode s (d :: msgWidths m)) =
      if 700 < d % 65536 ∧ d % 65536 < 1500 then [] else [sentCode m] := by
  have hrunning : s.Running := ⟨hskip, hs.ge, by omega⟩
  have hlater := run_laterMsgWidths (m := m) (run_running hrunning (d :: frameWidths m)) 3
  rw [msgWidths_eq, ← List.cons_append, Mealy.events_append, hlater, List.append_nil]
  split
  · next hfirst =>
    rw [run_spoilt hs hskip hfirst]
    rfl
  · next hfirst =>
    rw [Mealy.events_cons, decode_idle hs hskip hfirst, frameWidths_eq,
      (run_repetition hs hskip first_PULSE1).2]
    rfl

/-- The transmitter cuts the fields to their widths. -/
theorem sameReading_sentCode_iff (m : TxCode) (c : Code) :
    SameReading (sentCode m) c ↔
      ((m.address % 16 = c.address ∧ m.channel % 4 = c.channel) ∧ m.wcode % 8 = c.wconst) ∧
        m.humi % 128 = c.humidity ∧ ((m.temp % 32768 : ℕ) : ℤ) = c.temperature := by
  simp only [SameReading, sentCode, frameCode, ofBits_bits, and_assoc]
  norm_num

/-- A receiver that hears the message from its first edge decodes what the repeater heard, exactly
if the channel is the address modulo 4 and `wcode` happened to end in the constant. -/
theorem showWt440Code_forwards_iff (b : Board) (garbage : TxCode) (c : Code) (hc : c.InRange)
    (m : ℕ) (e : ULong) (t : ℕ) :
    let heard := codes (Mealy.events interruptHandler (init m e)
      (edges ⟨LOW, t⟩ (showWt440Code b garbage c)))
    let pause := (micros t - e).toNat % 65536
    (heard ≠ [] ∧ ∀ c' ∈ heard, SameReading c' c) ↔
      ¬(700 < pause ∧ pause < 1500) ∧ c.channel = c.address % 4 ∧ garbage.wcode % 8 = c.wconst := by
  intro heard pause
  -- one repetition is heard: all four, less what the first pulse is taken for
  have hheard : heard = if 700 < pause ∧ pause < 1500 then []
      else [sentCode (fill b garbage c)] := by
    rw [← codes_msgWidths (s := (init m e).decoder) rfl rfl, ← measured_sendMsg]
    exact congrArg codes (Sampled.events_eq rfl _)
  -- the 15 bits that are sent hold the temperature that was received
  have htemp : (((c.temperature % 2 ^ b.uintBits).toNat % 32768 : ℕ) : ℤ) = c.temperature := by
    rcases hc with ⟨-, -, -, -, hlo, hhi⟩
    have hwide : c.temperature % 2 ^ b.uintBits = c.temperature := by
      refine Int.emod_eq_of_lt hlo (hhi.trans_le ?_)
      cases b <;> decide
    rw [hwide]
    omega
  rw [hheard]
  split
  · next hfirst => simp [hfirst]
  · next hfirst =>
    have hsame := sameReading_sentCode_iff (fill b garbage c) c
    -- address and humidity fit their fields; the channel and `wcode` decide
    rcases hc with ⟨ha, hch, hw, hh, -, -⟩
    simp only [fill, htemp, Nat.mod_eq_of_lt ha, Nat.mod_eq_of_lt hh, and_true, true_and] at hsame
    simp only [ne_eq, List.cons_ne_nil, not_false_eq_true, List.mem_singleton, forall_eq, true_and,
      hsame, fill, hfirst]
    constructor
    · rintro ⟨h1, h2⟩
      exact ⟨h1.symm, h2⟩
    · rintro ⟨h1, h2⟩
      exact ⟨h1.symm, h2⟩

/-- A sensor whose channel is its address modulo 4, and a `wcode` that was right by chance. -/
theorem showWt440Code_forwards_iff_example :
    let heard := codes (Mealy.events interruptHandler (init 1 0)
      (edges ⟨LOW, 0⟩ (showWt440Code .avr ⟨0, 0, 0, 6, 0⟩ ⟨64, 10, 2, 6, 9000, 50, true⟩)))
    let pause := (micros 0 - 0).toNat % 65536
    (heard ≠ [] ∧ ∀ c' ∈ heard, SameReading c' ⟨64, 10, 2, 6, 9000, 50, true⟩) ↔
      ¬(700 < pause ∧ pause < 1500) ∧ (2 : ℕ) = 10 % 4 ∧ (6 : ℕ) % 8 = 6 :=
  showWt440Code_forwards_iff .avr ⟨0, 0, 0, 6, 0⟩ ⟨64, 10, 2, 6, 9000, 50, true⟩
    (by unfold Code.InRange; decide) 1 0 0

/-- The sensor of address 10 and channel 1 is sent on with channel 2, even if `wcode` is right. -/
theorem showWt440Code_wrong_channel :
    let c : Code := ⟨64, 10, 1, 6, 9000, 50, true⟩
    let heard := codes (Mealy.events interruptHandler (init 1 0)
      (edges ⟨LOW, 0⟩ (showWt440Code .avr ⟨0, 0, 0, 6, 0⟩ c)))
    c.InRange ∧ ¬(heard ≠ [] ∧ ∀ c' ∈ heard, SameReading c' c) := by
  intro c heard
  have hheard : heard = [sentCode (fill .avr ⟨0, 0, 0, 6, 0⟩ c)] := by
    have hcodes := codes_msgWidths (m := fill .avr ⟨0, 0, 0, 6, 0⟩ c) (s := (init 1 0).decoder)
      rfl rfl (micros 0 - 0).toNat
    rw [← measured_sendMsg, if_neg (by decide)] at hcodes
    rw [← hcodes]
    exact congrArg codes (Sampled.events_eq (s := init 1 0) rfl _)
  refine ⟨by unfold Code.InRange; decide, ?_⟩
  rintro ⟨-, hall⟩
  have hchannel := (hall _ (by rw [hheard]; exact List.mem_singleton_self _)).2.1
  exact absurd hchannel (by decide)

end Repeater
end LamPI
