import LamPI.EspGateway
import LamPI.Wt440.Receiver

/-!
# Sensor readings of the ESP gateway — `ESP-Gateway.ino`

Readings reach the daemon on two ways: those of the sensors on the board are transmitted at once,
and those that the WT440 receiver hears go through the queue.
-/

namespace LamPI
namespace EspGateway

/-! ## Over the air -/

def wt440Item (receivedCode : Wt440.Code) (label : String) (value : ℚ) : QueueItem :=
  { gaddr := receivedCode.address, uaddr := receivedCode.channel, val := .value value,
    action := "sensor", cmd := "wt440", message := label }

def degrees (temperature : ℤ) : ℚ := float (float (temperature - 6400 : ℤ) / 128)

def showWt440Code (queue : List QueueItem) (receivedCode : Wt440.Code) : List QueueItem :=
  let item := wt440Item receivedCode
  match receivedCode.wconst with
  | 0 => queue ++ [item "pir" (float receivedCode.temperature)]
  | 4 => queue ++ [item "battery" (float (float receivedCode.temperature / 10))]
  | 6 =>
      queue ++ [item "temperature" (degrees receivedCode.temperature)] ++
        [item "humidity" (float receivedCode.humidity)]
  | 7 =>
      queue ++ [item "temperature" (degrees receivedCode.temperature)] ++
        [item "airpressure" (float receivedCode.humidity)]
  -- only a text on the console
  | _ => queue

theorem showWt440Code_append (queue : List QueueItem) (c : Wt440.Code) :
    showWt440Code queue c = queue ++ showWt440Code [] c := by
  unfold showWt440Code
  split <;> simp

/-- What a series of callbacks leaves in the queue. -/
theorem mem_foldl_showWt440Code {cs : List Wt440.Code} {queue : List QueueItem} {qi : QueueItem} :
    qi ∈ cs.foldl showWt440Code queue ↔ qi ∈ queue ∨ ∃ c ∈ cs, qi ∈ showWt440Code [] c := by
  induction cs generalizing queue with
  | nil => simp
  | cons c cs ih =>
      rw [List.foldl_cons, ih, showWt440Code_append, List.mem_append]
      simp [or_assoc]

/-- A number that fits into a `float`, and its 128th part. -/
theorem float_div_128 {m : ℤ} (hm : |m| < 2 ^ 24) : float ((m : ℚ) / 128) = m / 128 := by
  have hquotient : (m : ℚ) / 128 = m * 2 ^ (-7 : ℤ) := by
    norm_num
    ring
  rw [hquotient]
  exact BinaryFloat.rounded_eq_self hm (-7)

/-- A sixteen-bit number is one of them. -/
theorem degrees_eq {temperature : ℤ} (h0 : 0 ≤ temperature) (h : temperature < 32768) :
    degrees temperature = (temperature - 6400) / 128 := by
  have hbits : |temperature - 6400| < 2 ^ 24 := by
    rw [abs_lt]
    omega
  rw [degrees, float_intCast hbits, float_div_128 hbits]
  push_cast
  rfl

/-! ## On board -/

def _ADDR : ℕ := 102

section Connection

/- The debug level and the answers of `client.connected()`, as for `sensorQueue`. -/
variable (debug : ℕ) (connected logged : ℕ → Bool)

/-- `SensorTransmit`.  Only the first word of what the console gets depends on the debug level. -/
def SensorTransmit (c : Client) (address channel : ℕ) (brand label : String) (value : ℚ) :
    Client :=
  let msgCnt := c.console.msgCnt
  let tbuf := Message.sensor msgCnt brand address channel label (.value value)
  let asked := { c with asked := c.asked + 1 }
  if connected c.asked then
    ((asked.write tbuf).log debug logged ((if debug ≥ 1 then "SEND: " else "") ++
      sendText msgCnt brand address channel label (valueText value)) 1).count
  else asked.log debug logged "SensorTransmit:: Not connected" 1

/-- What `readSensors` does for the BMP085: tenths of degrees and pascal. -/
def readBMP085 (c : Client) (calibration temperature pressure : ℤ) : Client :=
  if calibration ≠ 998 then
    if temperature ≠ 998 ∧ temperature ≠ 0 then
      let c := SensorTransmit debug connected logged c _ADDR 1 "esp8266" "temperature"
        (float (float temperature / 10))
      let c := SensorTransmit debug connected logged c _ADDR 1 "esp8266" "airpressure"
        (float (pressure.tdiv 100 : ℤ))
      c.count
    -- only a text on the serial port
    else c
  else if debug ≥ 2 then c.log debug logged " ! No BMP085" 2
  else c

end Connection

end EspGateway
end LamPI
