import LamPI.EspGateway.Messages
import LamPI.EspGateway.Sensors
import LamPI.LightSensor

/-!
# The sensors on the board — `readSensors` of `ESP-Gateway.ino`

When the timer has expired the four kinds of sensors are read one after the other, and what they
measure is transmitted at once.
-/

namespace LamPI
namespace EspGateway

/-! ## The sketch -/

/-- What the libraries of the sensors return: the temperatures of the Dallas sensors, where there is
a device; those of the HTU21D and the BMP085; and the light. -/
structure Measurements where
  tempC : List (Option ℚ)
  humd : ℚ
  temp : ℚ
  calibration : ℤ
  temperature : ℤ
  pressure : ℤ
  lux : ℕ

section Connection

/- The debug level and the answers of `client.connected()`, as for `sensorQueue`. -/
variable (debug : ℕ) (connected logged : ℕ → Bool)

/-- The loop over the Dallas sensors from number `i` on.  A channel is a byte. -/
def readDallas (c : Client) (i : ℕ) : List (Option ℚ) → Client
  | [] => c
  -- no device has this address
  | none :: tempCs => readDallas c (i + 1) tempCs
  | some tempC :: tempCs =>
      let c := if debug ≥ 2 then c.log debug logged ("! DS18B20 dev " ++ toString i) 2 else c
      let c := SensorTransmit debug connected logged c _ADDR ((3 + i) % 256) "esp8266" "temperature"
        tempC
      readDallas c (i + 1) tempCs

/-- What `readSensors` does for the HTU21D: 999 and 998 are errors. -/
def readHTU21D (c : Client) (humd temp : ℚ) : Client :=
  if Decimals.trunc humd ≠ 999 ∧ Decimals.trunc humd ≠ 998 then
    let c := SensorTransmit debug connected logged c _ADDR 0 "esp8266" "temperature" temp
    let c := SensorTransmit debug connected logged c _ADDR 0 "esp8266" "humidity" humd
    c.count
  else if debug ≥ 1 then c.log debug logged " ! No HTU21" 1
  else c

def readBH1750 (c : Client) (lux : ℕ) : Client :=
  if ¬LightSensor.isMinusOne .esp8266 lux then
    (SensorTransmit debug connected logged c _ADDR 2 "esp8266" "luminescense" (float lux)).count
  else c

/-- The part of `readSensors` that reads the sensors. -/
def readAll (c : Client) (r : Measurements) : Client :=
  let c := readDallas debug connected logged c 0 r.tempC
  let c := readHTU21D debug connected logged c r.humd r.temp
  let c := readBMP085 debug connected logged c r.calibration r.temperature r.pressure
  readBH1750 debug connected logged c r.lux

end Connection

/-! ## The readings -/

def boardItem (channel : ℕ) (label : String) (value : ℚ) : QueueItem :=
  { gaddr := _ADDR, uaddr := channel, val := .value value, action := "sensor", cmd := "esp8266",
    message := label }

def dallasItems (i : ℕ) : List (Option ℚ) → List QueueItem
  | [] => []
  | none :: tempCs => dallasItems (i + 1) tempCs
  | some tempC :: tempCs =>
      boardItem ((3 + i) % 256) "temperature" tempC :: dallasItems (i + 1) tempCs

/-- All readings.  There is always one of the light: no value is found equal to -1. -/
def Measurements.items (r : Measurements) : List QueueItem :=
  dallasItems 0 r.tempC ++
    (if Decimals.trunc r.humd ≠ 999 ∧ Decimals.trunc r.humd ≠ 998 then
      [boardItem 0 "temperature" r.temp, boardItem 0 "humidity" r.humd] else []) ++
    (if r.calibration ≠ 998 ∧ r.temperature ≠ 998 ∧ r.temperature ≠ 0 then
      [boardItem 1 "temperature" (float (float r.temperature / 10)),
        boardItem 1 "airpressure" (float (r.pressure.tdiv 100 : ℤ))] else []) ++
    [boardItem 2 "luminescense" (float r.lux)]

/-- The connection is asked for once for the message of every reading, and those are written for which
it is there. -/
structure Transmits (connected : ℕ → Bool) (c : Client) (qis : List QueueItem) (c' : Client) :
    Prop where
  sensors : ∀ qi ∈ qis, qi.action = "sensor"
  asked : c'.asked = c.asked + qis.length
  written : c'.written.map Message.item = c.written.map Message.item ++ sent connected c.asked qis
  messages : ∀ m ∈ c'.written, m ∈ c.written ∨ ∃ qi ∈ qis, ∃ tcnt,
    m = .sensor tcnt qi.brand qi.address qi.channel qi.label qi.value

section Connection

variable {debug : ℕ} {connected logged : ℕ → Bool} {c c₁ c' : Client} {qis qis' : List QueueItem}

theorem sent_append (h : ∀ qi ∈ qis, qi.action = "sensor") (n : ℕ) :
    sent connected n (qis ++ qis') =
      sent connected n qis ++ sent connected (n + qis.length) qis' := by
  induction qis generalizing n with
  | nil => rfl
  | cons qi qis ih =>
      rcases List.forall_mem_cons.1 h with ⟨hqi, hqis⟩
      have hasks : qi.Asks := Or.inl hqi
      rw [List.cons_append, sent, sent, if_pos hasks, ih hqis, List.append_assoc, List.length_cons,
        Nat.add_assoc, Nat.add_comm 1]

theorem Transmits.nil (connected : ℕ → Bool) (c : Client) : Transmits connected c [] c :=
  ⟨List.forall_mem_nil _, rfl, (List.append_nil _).symm, fun _ hm => Or.inl hm⟩

theorem Transmits.append (h : Transmits connected c qis c₁) (h' : Transmits connected c₁ qis' c') :
    Transmits connected c (qis ++ qis') c' where
  sensors := List.forall_mem_append.2 ⟨h.sensors, h'.sensors⟩
  asked := by rw [h'.asked, h.asked, List.length_append, Nat.add_assoc]
  written := by rw [h'.written, h.written, h.asked, sent_append h.sensors, List.append_assoc]
  messages := by
    intro m hm
    rcases h'.messages m hm with hm | ⟨qi, hqi, htext⟩
    · rcases h.messages m hm with hm | ⟨qi, hqi, htext⟩
      · exact Or.inl hm
      · exact Or.inr ⟨qi, List.mem_append_left _ hqi, htext⟩
    · exact Or.inr ⟨qi, List.mem_append_right _ hqi, htext⟩

/-- The console has no part in it. -/
theorem Transmits.of_eq (hasked : c'.asked = c.asked) (hwritten : c'.written = c.written) :
    Transmits connected c [] c' :=
  ⟨List.forall_mem_nil _, hasked, by rw [hwritten, sent, List.append_nil],
    fun _ hm => Or.inl (hwritten ▸ hm)⟩

/-- `msgCnt++` behind a sensor. -/
theorem Transmits.counted (h : Transmits connected c qis c') : Transmits connected c qis c'.count := by
  have hcount := h.append (.of_eq c'.count_asked c'.count_written)
  rwa [List.append_nil] at hcount

theorem log_transmits (debug : ℕ) (connected logged : ℕ → Bool) (c : Client) (text : String) (d : ℤ) :
    Transmits connected c [] (c.log debug logged text d) :=
  .of_eq (Client.log_asked text d) (Client.log_written text d)

/-- A text that is printed only when debugging. -/
theorem ite_log_transmits {p : Prop} [Decidable p] (debug : ℕ) (connected logged : ℕ → Bool)
    (c : Client) (text : String) (d : ℤ) :
    Transmits connected c [] (if p then c.log debug logged text d else c) := by
  split
  · exact log_transmits debug connected logged c text d
  · exact .nil connected c

/-- What becomes of a reading, whatever the console gets of it. -/
theorem SensorTransmit_sends (debug : ℕ) (connected logged : ℕ → Bool) (c : Client)
    (address channel : ℕ) (brand label : String) (value : ℚ) :
    (SensorTransmit debug connected logged c address channel brand label value).asked = c.asked + 1 ∧
      (SensorTransmit debug connected logged c address channel brand label value).written =
        if connected c.asked then
          c.written ++ [.sensor c.console.msgCnt brand address channel label (.value value)]
        else c.written := by
  unfold SensorTransmit
  by_cases hconnected : connected c.asked = true
  · simp only [if_pos hconnected]
    exact ⟨rfl, rfl⟩
  · simp only [if_neg hconnected]
    exact ⟨rfl, rfl⟩

theorem SensorTransmit_transmits (debug : ℕ) (connected logged : ℕ → Bool) (c : Client)
    (channel : ℕ) (label : String) (value : ℚ) :
    Transmits connected c [boardItem channel label value]
      (SensorTransmit debug connected logged c _ADDR channel "esp8266" label value) := by
  have hsensor : (boardItem channel label value).action = "sensor" := rfl
  have hgoes : (boardItem channel label value).Goes := Or.inl hsensor
  rcases SensorTransmit_sends debug connected logged c _ADDR channel "esp8266" label value with
    ⟨hasked, hwritten⟩
  refine ⟨List.forall_mem_singleton.2 hsensor, hasked, ?_, fun m hm => ?_⟩
  · rw [hwritten, sent, sent, List.append_nil]
    by_cases hconnected : connected c.asked = true
    · rw [if_pos hconnected, if_pos ⟨hgoes, hconnected⟩, List.map_append]
      rfl
    · rw [if_neg hconnected, if_neg fun h => hconnected h.2, List.append_nil]
  · rw [hwritten] at hm
    split at hm
    · rcases List.mem_append.1 hm with hm | hm
      · exact Or.inl hm
      · exact Or.inr ⟨_, List.mem_singleton_self _, c.console.msgCnt, List.mem_singleton.1 hm⟩
    · exact Or.inl hm

theorem readDallas_transmits (debug : ℕ) (connected logged : ℕ → Bool) (c : Client) (i : ℕ)
    (tempCs : List (Option ℚ)) :
    Transmits connected c (dallasItems i tempCs)
      (readDallas debug connected logged c i tempCs) := by
  induction tempCs generalizing c i with
  | nil => exact .nil connected c
  | cons tempC tempCs ih =>
      cases tempC with
      | none => exact ih c (i + 1)
      | some x =>
          have hlog := ite_log_transmits (p := debug ≥ 2) debug connected logged c
            ("! DS18B20 dev " ++ toString i) 2
          exact (hlog.append (SensorTransmit_transmits debug connected logged _ _ _ x)).append
            (ih _ (i + 1))

theorem readHTU21D_transmits (debug : ℕ) (connected logged : ℕ → Bool) (c : Client) (humd temp : ℚ) :
    Transmits connected c
      (if Decimals.trunc humd ≠ 999 ∧ Decimals.trunc humd ≠ 998 then
        [boardItem 0 "temperature" temp, boardItem 0 "humidity" humd] else [])
      (readHTU21D debug connected logged c humd temp) := by
  unfold readHTU21D
  split
  · exact ((SensorTransmit_transmits debug connected logged c _ _ _).append
      (SensorTransmit_transmits debug connected logged _ _ _ _)).counted
  · exact ite_log_transmits debug connected logged c _ 1

theorem readBMP085_transmits (debug : ℕ) (connected logged : ℕ → Bool) (c : Client)
    (calibration temperature pressure : ℤ) :
    Transmits connected c
      (if calibration ≠ 998 ∧ temperature ≠ 998 ∧ temperature ≠ 0 then
        [boardItem 1 "temperature" (float (float temperature / 10)),
          boardItem 1 "airpressure" (float (pressure.tdiv 100 : ℤ))] else [])
      (readBMP085 debug connected logged c calibration temperature pressure) := by
  unfold readBMP085
  by_cases hcalibration : calibration ≠ 998
  · rw [if_pos hcalibration]
    by_cases htemperature : temperature ≠ 998 ∧ temperature ≠ 0
    · rw [if_pos htemperature, if_pos ⟨hcalibration, htemperature⟩]
      exact ((SensorTransmit_transmits debug connected logged c _ _ _).append
        (SensorTransmit_transmits debug connected logged _ _ _ _)).counted
    · rw [if_neg htemperature, if_neg fun h => htemperature h.2]
      exact .nil connected c
  · rw [if_neg hcalibration, if_neg fun h => hcalibration h.1]
    exact ite_log_transmits debug connected logged c _ 2

theorem readBH1750_transmits (debug : ℕ) (connected logged : ℕ → Bool) (c : Client) (lux : ℕ) :
    Transmits connected c [boardItem 2 "luminescense" (float lux)]
      (readBH1750 debug connected logged c lux) := by
  rw [readBH1750, LightSensor.isMinusOne_esp8266, if_pos Bool.false_ne_true]
  exact (SensorTransmit_transmits debug connected logged c _ _ _).counted

/-- `readSensors` writes what the queue would write for the readings. -/
theorem readAll_transmits (debug : ℕ) (connected logged : ℕ → Bool) (c : Client) (r : Measurements) :
    Transmits connected c r.items (readAll debug connected logged c r) :=
  (((readDallas_transmits debug connected logged c 0 r.tempC).append
    (readHTU21D_transmits debug connected logged _ _ _)).append
    (readBMP085_transmits debug connected logged _ _ _ _)).append
    (readBH1750_transmits debug connected logged _ _)

end Connection

/-! ## Messages -/

/-- The numbers are those of their types, and the integer parts of the `float`s are `int`s. -/
structure Measurements.InRange (r : Measurements) : Prop where
  tempC : ∀ tempC ∈ r.tempC, ∀ x ∈ tempC, |x| < 2 ^ 31
  humd : |r.humd| < 2 ^ 31
  temp : |r.temp| < 2 ^ 31
  temperature : |r.temperature| < 2 ^ 31
  pressure : |r.pressure| < 2 ^ 31
  lux : r.lux < 2 ^ 16

def boardLabels : List String := ["temperature", "humidity", "airpressure", "luminescense"]

theorem printable_boardItem {channel : ℕ} {label : String} {x : ℚ} (hchannel : channel < 2 ^ 8)
    (hlabel : label ∈ boardLabels) (hx : |x| < 2 ^ 31) : (boardItem channel label x).Printable := by
  have hbrand : Word 8 "esp8266" := ⟨by decide, by decide⟩
  have hlabels : ∀ label ∈ boardLabels,
      label.length < 16 ∧ ArduinoJson.Plain label.toList ∧ label ∉ sensorKeys := by decide
  rcases hlabels label hlabel with ⟨hlength, hplain, hfresh⟩
  exact printable_sensor (by decide) hchannel hbrand ⟨hlength, hplain⟩ hfresh hx

theorem printable_dallasItems (i : ℕ) {tempCs : List (Option ℚ)}
    (h : ∀ tempC ∈ tempCs, ∀ x ∈ tempC, |x| < 2 ^ 31) :
    ∀ qi ∈ dallasItems i tempCs, qi.Printable := by
  induction tempCs generalizing i with
  | nil => exact List.forall_mem_nil _
  | cons tempC tempCs ih =>
      rcases List.forall_mem_cons.1 h with ⟨hfirst, hrest⟩
      cases tempC with
      | none => exact ih (i + 1) hrest
      | some x =>
          have hchannel : (3 + i) % 256 < 2 ^ 8 := Nat.mod_lt _ (by decide)
          exact List.forall_mem_cons.2
            ⟨printable_boardItem hchannel (by decide) (hfirst x rfl), ih (i + 1) hrest⟩

theorem Measurements.InRange.printable {r : Measurements} (h : r.InRange) :
    ∀ qi ∈ r.items, qi.Printable := by
  have htenths := abs_tenths_lt h.temperature
  have hhundreds : |float (r.pressure.tdiv 100 : ℤ)| < 2 ^ 31 := by
    have hfloat := abs_float_le (r.pressure.tdiv 100 : ℤ)
    have htrunc := (Decimals.abs_trunc_le ((r.pressure : ℚ) / (100 : ℕ))).1
    rw [Decimals.trunc_div r.pressure (by decide), abs_div, Nat.abs_cast, Nat.cast_ofNat] at htrunc
    have hcast : |(r.pressure : ℚ)| < 2 ^ 31 := by exact_mod_cast h.pressure
    linarith only [hfloat, htrunc, hcast]
  have hlux : |float (r.lux : ℚ)| < 2 ^ 31 := by
    have hfloat := abs_float_le (r.lux : ℚ)
    have hcast : (r.lux : ℚ) < 2 ^ 16 := by exact_mod_cast h.lux
    rw [Nat.abs_cast] at hfloat
    linarith only [hfloat, hcast]
  unfold Measurements.items
  refine List.forall_mem_append.2 ⟨List.forall_mem_append.2 ⟨List.forall_mem_append.2
    ⟨printable_dallasItems 0 h.tempC, ?_⟩, ?_⟩, ?_⟩
  · split
    · exact List.forall_mem_cons.2 ⟨printable_boardItem (by decide) (by decide) h.temp,
        List.forall_mem_singleton.2 (printable_boardItem (by decide) (by decide) h.humd)⟩
    · exact List.forall_mem_nil _
  · split
    · exact List.forall_mem_cons.2 ⟨printable_boardItem (by decide) (by decide) htenths,
        List.forall_mem_singleton.2 (printable_boardItem (by decide) (by decide) hhundreds)⟩
    · exact List.forall_mem_nil _
  · exact List.forall_mem_singleton.2 (printable_boardItem (by decide) (by decide) hlux)

/-- The message of a reading is readable. -/
theorem SensorTransmit_readable (debug : ℕ) (connected logged : ℕ → Bool) (c : Client) {channel : ℕ}
    {label : String} {x : ℚ} (h : (boardItem channel label x).Printable) :
    ∀ m ∈ (SensorTransmit debug connected logged c _ADDR channel "esp8266" label x).written,
      m ∈ c.written ∨ m.Readable := by
  intro m hm
  rcases (SensorTransmit_transmits debug connected logged c channel label x).messages m hm with
    hm | ⟨qi, hqi, tcnt, rfl⟩
  · exact Or.inl hm
  · rw [List.mem_singleton.1 hqi]
    exact Or.inr (readable_sensor h rfl tcnt)

/-! ## One reading after the other -/

/-- The sensors are read one time after the other, the debug level being that of the time. -/
theorem foldl_readAll_transmits (connected logged : ℕ → Bool) (c : Client)
    (rs : List (ℕ × Measurements)) :
    Transmits connected c (rs.flatMap fun r => r.2.items)
      (rs.foldl (fun c r => readAll r.1 connected logged c r.2) c) := by
  induction rs generalizing c with
  | nil => exact .nil connected c
  | cons r rs ih => exact (readAll_transmits r.1 connected logged c r.2).append (ih _)

/-- However often the sensors are read, whatever they measure, at any levels of `debug` and whenever
the connection is there: each reading asks once for the connection that its message needs, those for
which it is there are written in their order, and the queue would write the same, whatever the console
is told about them. -/
theorem readings_as_queued (connected logged : ℕ → Bool) (c : Client) (rs : List (ℕ × Measurements)) :
    let c' := rs.foldl (fun c r => readAll r.1 connected logged c r.2) c
    let qis := rs.flatMap fun r => r.2.items
    c'.asked = c.asked + qis.length ∧
      c'.written.map Message.item = c.written.map Message.item ++ sent connected c.asked qis ∧
      ∀ debug logged', c'.written.map Message.item =
        (handleQueue debug connected logged' c qis).1.written.map Message.item := by
  have hall := foldl_readAll_transmits connected logged c rs
  refine ⟨hall.asked, hall.written, fun debug logged' => ?_⟩
  rw [(handleQueue_eq debug connected logged' c _).2]
  exact hall.written

end EspGateway
end LamPI
