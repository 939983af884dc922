import LamPI.Library.Mealy
import LamPI.Library.Digits
import LamPI.Library.Fields
import LamPI.Library.PulseLine
import LamPI.Library.Scanner
import LamPI.Library.Session
import LamPI.Library.EqualRuns
import LamPI.Library.LinkedList
import LamPI.Library.Tokens
import LamPI.Library.BinaryFloat
import LamPI.Library.Decimals
import LamPI.Library.Json
import LamPI.Livolo.RoundTrip
import LamPI.Livolo.Acceptance
import LamPI.Livolo.ActionTelegrams
import LamPI.Wt440.RoundTrip
import LamPI.Wt440.Consecutive
import LamPI.Wt440.Alignment
import LamPI.Wt440.FrameParity
import LamPI.Auriol.Bands
import LamPI.Windows
import LamPI.Parity
import LamPI.Silence
import LamPI.Remote.RoundTrip
import LamPI.Remote.Action
import LamPI.Remote.Telegrams
import LamPI.Kaku.RoundTrip
import LamPI.Kaku.Range
import LamPI.Kaku.History
import LamPI.Kaku.Pause
import LamPI.Quhwa.RoundTrip
import LamPI.Quhwa.Bands
import LamPI.Kopou.Receiver
import LamPI.Kopou.Transmitter
import LamPI.Ranges
import LamPI.Repeats
import LamPI.MinRepeats
import LamPI.Repeater
import LamPI.Ghosts
import LamPI.ArduinoGateway
import LamPI.WifiQueue
import LamPI.EspGateway
import LamPI.ArduinoGateway.Serial
import LamPI.ArduinoGateway.Command
import LamPI.EspGateway.Console
import LamPI.EspGateway.LogMessages
import LamPI.EspGateway.Handsets
import LamPI.Glitches
import LamPI.Boards
import LamPI.EspGateway.Commands
import LamPI.ArduinoJson
import LamPI.EspGateway.Receive
import LamPI.ArduinoSensor
import LamPI.EspGateway.Sensors
import LamPI.EspGateway.Readings
import LamPI.Barometer
import LamPI.Quhwa.IsReceiving
import LamPI.Library.Countdown
import LamPI.Kaku.Repetitions
import LamPI.ArduinoGateway.KakuLines
import LamPI.WifiQueue.OutOfMemory
import LamPI.EspGateway.SensorTimer
import LamPI.InterruptChain
import LamPI.Library.Listeners
import LamPI.ArduinoGateway.Receivers
import LamPI.Library.Bystander
import LamPI.Bystanders
import LamPI.Bystanders.Kaku
import LamPI.Bystanders.Remote
import LamPI.Bystanders.LowPass
import LamPI.Bystanders.Quhwa
import LamPI.ArduinoGateway.Waiting
import LamPI.ArduinoGateway.Crosstalk
import LamPI.ArduinoGateway.Heard
import LamPI.ArduinoGateway.Relay
import LamPI.ArduinoGateway.Effects
import LamPI.ArduinoGateway.Sketch
import LamPI.EspGateway.Pipeline
import LamPI.WifiQueue.Print
import LamPI.EspGateway.Relay
import LamPI.EspGateway.Echo
import LamPI.EspGateway.Messages
import LamPI.LightSensor
import LamPI.EspGateway.OnBoard
import LamPI.EspGateway.Delivered
