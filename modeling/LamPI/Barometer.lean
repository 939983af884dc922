import LamPI.ArduinoSensor
import LamPI.EspGateway.Sensors

/-!
# A barometer over the air — `ArduinoSensor.ino` to `ESP-Gateway.ino`

The gateway queues the seven bits of a barometer's message as they are: the node takes 930 off the
pressure, and nothing puts it back on.  The degrees come out as they went in, up to the truncation.
-/

namespace LamPI

open PulseLine Wt440 ArduinoSensor EspGateway

/-- The queue of the gateway after the node has sent a reading at `t`. -/
def queueAfter (temperature pressure : ℤ) (e : ULong) (t : ℕ) : List QueueItem :=
  (callbacks (Mealy.events interruptHandler (init 1 e)
    (edges ⟨LOW, t⟩ (loopBMP085 temperature pressure)))).foldl showWt440Code []

def Reports (queue : List QueueItem) (label : String) (P : ℚ → Prop) : Prop :=
  (∃ qi ∈ queue, qi.label = label) ∧
    ∀ qi ∈ queue, qi.label = label → ∃ x, qi.value = .value x ∧ P x

def Agree (temperature pressure : ℤ) (queue : List QueueItem) : Prop :=
  Reports queue "airpressure" (fun x => x = (pressure.tdiv 100 : ℤ)) ∧
    Reports queue "temperature" (fun x => |x - temperature / 10| ≤ 1 / 128)

variable {temperature pressure : ℤ}

/-- What the gateway makes of a barometer's message. -/
theorem showWt440Code_msgBMP085 (h : InRange temperature pressure) {c : Code}
    (hc : c.Carries (msgBMP085 temperature pressure)) :
    showWt440Code [] c =
      [wt440Item c "temperature" (degrees (msgBMP085 temperature pressure).temp),
        wt440Item c "airpressure" (pressure.tdiv 100 - 930 : ℤ)] := by
  rcases hc with ⟨-, -, hwconst, hhumidity, htemperature⟩
  have hhectopascal := h.hectopascal
  have hhumi : float (c.humidity : ℚ) = (pressure.tdiv 100 - 930 : ℤ) := by
    have hcast : (c.humidity : ℚ) = ((pressure.tdiv 100 - 930 : ℤ) : ℚ) := by
      rw [hhumidity, ← h.humi]
      rfl
    rw [hcast]
    refine float_intCast ?_
    rw [abs_lt]
    omega
  have hseven : c.wconst = 7 := hwconst
  rw [showWt440Code, hseven, htemperature, hhumi]
  rfl

/-- A temperature loses less than a unit of the message. -/
theorem abs_degrees_sub_le (h : InRange temperature pressure) :
    |degrees (msgBMP085 temperature pressure).temp - temperature / 10| ≤ 1 / 128 := by
  have hbelow := h.temp.1
  have habove := h.temp.2
  have hvalid := h.valid.temp
  generalize (msgBMP085 temperature pressure).temp = n at *
  have hfits : (n : ℤ) < 32768 := by exact_mod_cast hvalid
  rw [degrees_eq n.cast_nonneg hfits, abs_le]
  have hbelow' : (5 * n : ℚ) ≤ 64 * temperature + 32000 := by exact_mod_cast hbelow
  have habove' : (64 * temperature + 32000 : ℚ) ≤ 5 * (n + 1) := by exact_mod_cast habove
  push_cast
  exact ⟨by linarith, by linarith⟩

section Queue

variable {cs : List Code} (h : InRange temperature pressure)
  (hcs : ∀ c ∈ cs, c.Carries (msgBMP085 temperature pressure))

include h hcs

/-- Each item is one of the two of a callback. -/
theorem mem_queue_iff {qi : QueueItem} :
    qi ∈ cs.foldl showWt440Code [] ↔ ∃ c ∈ cs,
      qi = wt440Item c "temperature" (degrees (msgBMP085 temperature pressure).temp) ∨
        qi = wt440Item c "airpressure" (pressure.tdiv 100 - 930 : ℤ) := by
  rw [mem_foldl_showWt440Code]
  constructor
  · rintro (hnil | ⟨c, hc, hqi⟩)
    · exact absurd hnil List.not_mem_nil
    · rw [showWt440Code_msgBMP085 h (hcs c hc)] at hqi
      exact ⟨c, hc, by simpa using hqi⟩
  · rintro ⟨c, hc, hqi⟩
    refine Or.inr ⟨c, hc, ?_⟩
    rw [showWt440Code_msgBMP085 h (hcs c hc)]
    simpa using hqi

theorem airpressure_eq {qi : QueueItem} (hqi : qi ∈ cs.foldl showWt440Code [])
    (hlabel : qi.label = "airpressure") : qi.value = .value (pressure.tdiv 100 - 930 : ℤ) := by
  rcases (mem_queue_iff h hcs).1 hqi with ⟨c, -, rfl | rfl⟩
  · exact absurd hlabel (by decide : "temperature" ≠ "airpressure")
  · rfl

theorem temperature_eq {qi : QueueItem} (hqi : qi ∈ cs.foldl showWt440Code [])
    (hlabel : qi.label = "temperature") :
    qi.value = .value (degrees (msgBMP085 temperature pressure).temp) := by
  rcases (mem_queue_iff h hcs).1 hqi with ⟨c, -, rfl | rfl⟩
  · rfl
  · exact absurd hlabel (by decide : "airpressure" ≠ "temperature")

/-- Callbacks report the pressure less 930. -/
theorem reports (hne : cs ≠ []) :
    Reports (cs.foldl showWt440Code []) "airpressure"
        (fun x => x = (pressure.tdiv 100 - 930 : ℤ)) ∧
      Reports (cs.foldl showWt440Code []) "temperature"
        (fun x => |x - temperature / 10| ≤ 1 / 128) := by
  rcases List.exists_mem_of_ne_nil cs hne with ⟨c, hc⟩
  refine ⟨⟨⟨_, (mem_queue_iff h hcs).2 ⟨c, hc, Or.inr rfl⟩, rfl⟩, ?_⟩,
    ⟨⟨_, (mem_queue_iff h hcs).2 ⟨c, hc, Or.inl rfl⟩, rfl⟩, ?_⟩⟩
  · intro qi hqi hlabel
    exact ⟨_, airpressure_eq h hcs hqi hlabel, rfl⟩
  · intro qi hqi hlabel
    exact ⟨_, temperature_eq h hcs hqi hlabel, abs_degrees_sub_le h⟩

/-- The pressure never agrees, however often the receiver calls back. -/
theorem not_agree : ¬Agree temperature pressure (cs.foldl showWt440Code []) := by
  rintro ⟨⟨⟨qi, hqi, hlabel⟩, hall⟩, -⟩
  rcases hall qi hqi hlabel with ⟨x, hx, rfl⟩
  rw [airpressure_eq h hcs hqi hlabel] at hx
  have heq : pressure.tdiv 100 - 930 = pressure.tdiv 100 := by exact_mod_cast Value.value.inj hx
  omega

end Queue

/-- The receiver delivers the message of the reading, if it is not skipped. -/
theorem callbacks_loopBMP085 (h : InRange temperature pressure) (h0 : temperature ≠ 0)
    (h998 : temperature ≠ 998) (e : ULong) (t : ℕ) :
    (∀ c ∈ callbacks (Mealy.events interruptHandler (init 1 e)
        (edges ⟨LOW, t⟩ (loopBMP085 temperature pressure))),
        c.Carries (msgBMP085 temperature pressure)) ∧
      (¬First (micros t - e).toNat →
        callbacks (Mealy.events interruptHandler (init 1 e)
          (edges ⟨LOW, t⟩ (loopBMP085 temperature pressure))) ≠ []) := by
  have hloop : loopBMP085 temperature pressure = sendMsg (msgBMP085 temperature pressure) :=
    if_pos ⟨h998, h0⟩
  rw [hloop]
  exact ⟨callbacks_sendMsg_carry h.valid e t 0, callbacks_sendMsg_ne_nil _⟩

/-- For no reading do the two barometers agree: over the air the pressure comes out 930 too low.
The temperature is within a 128th of a degree. -/
theorem barometers_disagree (h : InRange temperature pressure) (h0 : temperature ≠ 0)
    (h998 : temperature ≠ 998) (e : ULong) (t : ℕ) :
    ¬Agree temperature pressure (queueAfter temperature pressure e t) ∧
      (¬First (micros t - e).toNat →
        Reports (queueAfter temperature pressure e t) "airpressure"
            (fun x => x = (pressure.tdiv 100 - 930 : ℤ)) ∧
          Reports (queueAfter temperature pressure e t) "temperature"
            (fun x => |x - temperature / 10| ≤ 1 / 128)) := by
  rcases callbacks_loopBMP085 h h0 h998 e t with ⟨hcarries, hcalls⟩
  exact ⟨not_agree h hcarries, fun hpause => reports h hcarries (hcalls hpause)⟩

/-- 20 degrees at 1013 hectopascal. -/
theorem barometers_disagree_example :
    ¬Agree 200 101300 (queueAfter 200 101300 0 0) ∧
      Reports (queueAfter 200 101300 0 0) "airpressure"
        (fun x => x = ((101300 : ℤ).tdiv 100 - 930 : ℤ)) := by
  have hrange : InRange 200 101300 := ⟨by decide, by decide, by decide, by decide⟩
  have h := barometers_disagree hrange (by decide) (by decide) 0 0
  exact ⟨h.1, (h.2 fun hfirst => absurd hfirst.1 (by decide)).1⟩

/-- Its pressure is reported as 83. -/
theorem barometer_offset : ¬∀ temperature pressure : ℤ,
    InRange temperature pressure → temperature ≠ 0 → temperature ≠ 998 →
      ∀ (e : ULong) (t : ℕ), ¬First (micros t - e).toNat →
        Agree temperature pressure (queueAfter temperature pressure e t) := by
  intro hall
  have hrange : InRange 200 101300 := ⟨by decide, by decide, by decide, by decide⟩
  exact not_agree hrange (callbacks_loopBMP085 hrange (by decide) (by decide) 0 0).1
    (hall 200 101300 hrange (by decide) (by decide) 0 0 fun hfirst => absurd hfirst.1 (by decide))

end LamPI
