import LamPI.Remote.Action
import LamPI.Remote.RoundTrip

/-!
# The Arduino gateway — `ArduinoGateway.ino`

`showRemoteCode` is the callback of the `RemoteReceiver`.  It reads every telegram of the right
period as one of an Action remote, and reports it to the daemon on the serial line.
-/

namespace LamPI
namespace ArduinoGateway

open PulseLine Remote

/-- The line that is printed, after the message counter and the type of message. -/
structure Report where
  codec : ℕ
  address : ℕ
  unit : ℕ
  level : ℕ
  deriving DecidableEq, Repr

def showRemoteCode (receivedCode period : ℕ) : Report :=
  if 120 < period ∧ period < 200 then
    let r := readCode receivedCode
    { codec := 1, address := r.address, unit := r.unit, level := if r.level = 20 then 0 else 1 }
  -- nothing but the initial values of the variables
  else { codec := 1, address := 0, unit := 0, level := 0 }

/-- The report on the telegram of an Action remote. -/
theorem showRemoteCode_actionTrits {systemCode device period : ℕ} (hcode : systemCode < 32)
    (hdevice : device < 5) (on : Bool) (hlo : 120 < period) (hhi : period < 200) :
    showRemoteCode (value (actionTrits systemCode device on)) period =
      { codec := 1, address := systemCode, unit := device, level := if on then 1 else 0 } := by
  rw [showRemoteCode, if_pos ⟨hlo, hhi⟩, readCode_actionTrits hcode hdevice on]
  cases on <;> rfl

/-! ## From the remote to the report -/

/-- What an Action transmitter sends is reported as it was meant, and at least once. -/
theorem sendSignal_reported (b : Board) (systemCode device : ℕ) (on : Bool) (p r t : ℕ)
    (hcode : systemCode < 32) (hdevice : device < 5) (hp : 121 ≤ p) (hp' : p ≤ 199) (hr : 2 ≤ r)
    (hr' : r ≤ 7) (s : State) (henabled : s.enabled = true) (hstate : s.decoder.state = -1)
    (hrepeats : s.decoder.filter.minRepeats = 2) (hcallback : s.decoder.filter.inCallback = false)
    (hquiet : ∀ d ∈ s.untilPulse b t, d ≤ 3720) :
    let calls := callbacks (Mealy.events (interruptHandler b) s
      (edges ⟨LOW, t⟩ (ActionTransmitter.sendSignal b ⟨p, r⟩ systemCode device on)))
    calls ≠ [] ∧ ∀ c ∈ calls, showRemoteCode c.code c.period =
      { codec := 1, address := systemCode, unit := device, level := if on then 1 else 0 } := by
  intro calls
  have hcalls : calls = List.replicate ((2 ^ r - 1) / 3)
      ⟨value (actionTrits systemCode device on), p⟩ := by
    have hsent := callbacks_sendTelegram_quiet (p := p) (r := r) (t := t) hp (by omega) hr'
      (length_actionTrits systemCode device on) henabled hstate hrepeats hcallback hquiet
    rwa [← trits_eq] at hsent
  have hcount := copies_pos hr
  rw [hcalls]
  constructor
  · intro hnil
    have hzero : (2 ^ r - 1) / 3 = 0 := List.replicate_eq_nil_iff _ |>.1 hnil
    omega
  · intro c hc
    rw [List.eq_of_mem_replicate hc]
    exact showRemoteCode_actionTrits hcode hdevice on hp (Nat.lt_succ_of_le hp')

/-- System code 5, device 3, switched on, with the period of the gateways, 8 times. -/
theorem sendSignal_reported_example :
    let calls := callbacks (Mealy.events (interruptHandler .avr) (init 2 0 0)
      (edges ⟨LOW, 1000⟩ (ActionTransmitter.sendSignal .avr ⟨195, 3⟩ 5 3 true)))
    calls ≠ [] ∧ ∀ c ∈ calls, showRemoteCode c.code c.period =
      { codec := 1, address := 5, unit := 3, level := 1 } :=
  sendSignal_reported .avr 5 3 true 195 3 1000 (by decide) (by decide) (by decide) (by decide)
    (by decide) (by decide) (init 2 0 0) rfl rfl rfl rfl (by decide)

/-! ## From the report to the remote -/

/-- In the window of periods every telegram is reported as one of an Action remote; the reported
command is the one that was sent exactly if the telegram is one that an Action remote sends. -/
theorem showRemoteCode_action_iff (tx : Transmitter) (code period : ℕ) (hlo : 120 < period)
    (hhi : period < 200) :
    let m := showRemoteCode code period
    (m.codec = 1 ∧ m.address < 32 ∧ m.unit < 5 ∧ m.level ≤ 1) ∧
      (ActionTransmitter.getTelegram tx m.address m.unit (m.level = 1) &&& 0xFFFFF = code ↔
        ∃ systemCode < 32, ∃ device < 5, ∃ on,
          ActionTransmitter.getTelegram tx systemCode (device : ℕ) on &&& 0xFFFFF = code) := by
  intro m
  have hm : m =
      { codec := 1, address := (readCode code).address, unit := (readCode code).unit,
        level := if (readCode code).level = 20 then 0 else 1 } := if_pos ⟨hlo, hhi⟩
  have haddress : m.address < 32 := by
    rw [hm]
    exact readAddress_lt _
  have hunit : m.unit < 5 := by
    rw [hm]
    exact readUnit_lt _
  refine ⟨⟨by rw [hm], haddress, hunit, ?_⟩, ?_⟩
  · rw [hm]
    simp only
    split <;> decide
  · constructor
    -- the reported command itself is the Action telegram
    · intro h
      exact ⟨m.address, haddress, m.unit, hunit, _, h⟩
    -- a telegram of an Action remote is reported as it was meant
    · rintro ⟨systemCode, hcode, device, hdevice, on, h⟩
      rw [getTelegram_data] at h
      have hreport : m =
          { codec := 1, address := systemCode, unit := device, level := if on then 1 else 0 } := by
        rw [← showRemoteCode_actionTrits hcode hdevice on hlo hhi, h]
      have hon : decide (m.level = 1) = on := by
        rw [hreport]
        cases on <;> rfl
      rw [hon, hreport, getTelegram_data]
      exact h

/-- The telegram for system code 5 and device 3. -/
theorem showRemoteCode_action_iff_example :
    let m := showRemoteCode (value (actionTrits 5 3 true)) 195
    (m.codec = 1 ∧ m.address < 32 ∧ m.unit < 5 ∧ m.level ≤ 1) ∧
      (ActionTransmitter.getTelegram ⟨195, 3⟩ m.address m.unit (m.level = 1) &&& 0xFFFFF =
          value (actionTrits 5 3 true) ↔
        ∃ systemCode < 32, ∃ device < 5, ∃ on,
          ActionTransmitter.getTelegram ⟨195, 3⟩ systemCode (device : ℕ) on &&& 0xFFFFF =
            value (actionTrits 5 3 true)) :=
  showRemoteCode_action_iff ⟨195, 3⟩ (value (actionTrits 5 3 true)) 195 (by decide) (by decide)

/-- The telegram of twelve zeros is reported as device 0 of system code 0 being switched on, which
is sent as another telegram. -/
theorem showRemoteCode_not_action :
    let m := showRemoteCode 0 150
    (0 : ℕ) < 3 ^ 12 ∧ m.codec = 1 ∧
      ActionTransmitter.getTelegram ⟨150, 3⟩ m.address m.unit (m.level = 1) &&& 0xFFFFF ≠ 0 := by
  decide

end ArduinoGateway
end LamPI
