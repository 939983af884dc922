import LamPI.EspGateway.Console
import LamPI.Library.Decimals
import LamPI.Remote.Action
import Mathlib.Data.List.Count

/-!
# The ESP gateway — `ESP-Gateway.ino`

The callbacks of the receivers put items into the queue, and `handleQueue` takes them off in the
main loop and writes them to the daemon over the client's connection.
-/

namespace LamPI
namespace EspGateway

open Remote

/-! ## Items and messages -/

/-- The union of `value` and `val`, by what was written last. -/
inductive Value where
  | value (x : ℚ)
  | val (text : String)
  deriving DecidableEq, Repr

/-- `queueItem`.  The members `address`, `channel`, `brand` and `label` of a sensor share their
memory with those of a device. -/
structure QueueItem where
  gaddr : ℕ
  uaddr : ℕ
  val : Value
  action : String
  cmd : String
  message : String
  deriving DecidableEq, Repr

abbrev QueueItem.address (qi : QueueItem) : ℕ := qi.gaddr
abbrev QueueItem.channel (qi : QueueItem) : ℕ := qi.uaddr
abbrev QueueItem.value (qi : QueueItem) : Value := qi.val
abbrev QueueItem.brand (qi : QueueItem) : String := qi.cmd
abbrev QueueItem.label (qi : QueueItem) : String := qi.message

/-- The messages to the daemon, by what is printed into them. -/
inductive Message where
  | sensor (tcnt : ℕ) (brand : String) (address channel : ℕ) (label : String) (value : Value)
  | device (tcnt : ℕ) (action cmd : String) (gaddr uaddr : ℕ) (val : Value) (message : String)
  deriving DecidableEq, Repr

def Message.item : Message → QueueItem
  | .sensor _ brand address channel label value =>
      { gaddr := address, uaddr := channel, val := value, action := "sensor", cmd := brand,
        message := label }
  | .device _ action cmd gaddr uaddr val message =>
      { gaddr := gaddr, uaddr := uaddr, val := val, action := action, cmd := cmd,
        message := message }

/-! ## Texts -/

/-- `ival` and `fval`, printed by `%d.%d`. -/
def valueText (value : ℚ) : String :=
  let ival := Decimals.trunc value
  let fval := Decimals.trunc (float (float (value - float ival) * 10))
  toString ival ++ "." ++ toString fval

/-- The same of the union.  No callback queues the reading of a sensor with the other member, of which
it is not known what it is as a `float`. -/
def Value.text : Value → String
  | .value x => valueText x
  | .val text => text

/-- What `sprintf` makes of a reading whose value is printed as `text`. -/
def readingText (msgCnt : ℕ) (brand : String) (address channel : ℕ) (label text : String) : String :=
  "\x7b\"tcnt\":\"" ++ toString (Int.bmod msgCnt (2 ^ 32)) ++
    "\",\"type\":\"json\",\"action\":\"sensor\",\"brand\":\"" ++ brand ++
    "\",\"address\":\"" ++ toString address ++ "\",\"channel\":\"" ++ toString channel ++
    "\",\"" ++ label ++ "\":\"" ++ text ++ "\"\x7d"

def sensorText (msgCnt : ℕ) (qi : QueueItem) (value : ℚ) : String :=
  readingText msgCnt qi.brand qi.address qi.channel qi.label (valueText value)

def sendText (msgCnt : ℕ) (brand : String) (address channel : ℕ) (label text : String) : String :=
  " <" ++ toString (readingText msgCnt brand address channel label text).length ++ "> " ++
    toString address ++ ":" ++ toString channel ++ ", brand: " ++ brand ++ ", " ++ label ++ ": " ++ text

/-! ## From the queue to the client -/

def A_RESERVED_ADDRESS : ℕ := 200

/-- The console, how many messages a connection has been asked for, how often `printConsole` has been
called, and the messages that have been written. -/
structure Client where
  console : Console
  asked : ℕ
  printed : ℕ
  written : List Message
  deriving DecidableEq, Repr

def Client.write (c : Client) (tbuf : Message) : Client := { c with written := c.written ++ [tbuf] }

def Client.count (c : Client) : Client :=
  { c with console.msgCnt := Board.esp8266.uint (c.console.msgCnt + 1) }

section Connection

/- The debug level, and the answers of `client.connected()`: `connected n` to the question for message
`n`, and `logged n` to the one that call `n` of `printConsole` asks. -/
variable (debug : ℕ) (connected logged : ℕ → Bool)

/-- `OutString += text; printConsole(OutString, d)` -/
def Client.log (c : Client) (text : String) (d : ℤ) : Client :=
  let console := { c.console with OutString := c.console.OutString ++ text }
  { c with
    console := (printConsole debug (logged c.printed) console console.OutString d).1
    printed := c.printed + 1 }

def sensorQueue (c : Client) (qi : QueueItem) : Client × ℤ :=
  let msgCnt := c.console.msgCnt
  let tbuf := Message.sensor msgCnt qi.brand qi.address qi.channel qi.label qi.value
  let asked := { c with asked := c.asked + 1 }
  if connected c.asked then
    let c := asked.write tbuf
    let c :=
      if debug ≥ 1 then
        c.log debug logged ("SEND: " ++
          sendText msgCnt qi.brand qi.address qi.channel qi.label qi.value.text) 1
      else c
    (c.count, 0)
  else (asked, -1)

/-- `deviceQueue`; what is printed goes to the serial port only. -/
def deviceQueue (c : Client) (qi : QueueItem) : Client × ℤ :=
  let msgCnt := c.console.msgCnt
  let tbuf := Message.device msgCnt qi.action qi.cmd qi.gaddr qi.uaddr qi.val qi.message
  let asked := { c with asked := c.asked + 1 }
  if connected c.asked then
    if qi.gaddr ≤ A_RESERVED_ADDRESS then (asked, -1) else ((asked.write tbuf).count, 0)
  else (asked, -1)

/-- The body of the loop of `handleQueue`: what the two functions return is not looked at. -/
def handleItem (c : Client) (qi : QueueItem) : Client :=
  if qi.action = "sensor" then (sensorQueue debug connected logged c qi).1
  else if qi.action = "gui" then (deviceQueue connected c qi).1
  else if qi.action = "handset" then (deviceQueue connected c qi).1
  else c

/-- `handleQueue`: the client and the queue afterwards. -/
def handleQueue (c : Client) : List QueueItem → Client × List QueueItem
  | [] => (c, [])
  | qi :: queue => handleQueue (handleItem debug connected logged c qi) queue

end Connection

/-! ## What is written -/

def QueueItem.Asks (qi : QueueItem) : Prop :=
  qi.action = "sensor" ∨ qi.action = "gui" ∨ qi.action = "handset"

instance (qi : QueueItem) : Decidable qi.Asks := by
  unfold QueueItem.Asks
  infer_instance

/-- The item is one to write, if there is a connection. -/
def QueueItem.Goes (qi : QueueItem) : Prop :=
  qi.action = "sensor" ∨
    (qi.action = "gui" ∨ qi.action = "handset") ∧ A_RESERVED_ADDRESS < qi.gaddr

instance (qi : QueueItem) : Decidable qi.Goes := by
  unfold QueueItem.Goes
  infer_instance

/-- The items that are written, if a connection has been asked for `n` times before. -/
def sent (connected : ℕ → Bool) (n : ℕ) : List QueueItem → List QueueItem
  | [] => []
  | qi :: queue =>
      (if qi.Goes ∧ connected n then [qi] else []) ++
        sent connected (n + if qi.Asks then 1 else 0) queue

variable {debug : ℕ} {connected logged : ℕ → Bool} {c : Client} {qi : QueueItem}
  {queue : List QueueItem} {n : ℕ}

@[simp] theorem Client.log_asked (text : String) (d : ℤ) :
    (c.log debug logged text d).asked = c.asked := rfl

@[simp] theorem Client.log_written (text : String) (d : ℤ) :
    (c.log debug logged text d).written = c.written := rfl

@[simp] theorem Client.count_asked : c.count.asked = c.asked := rfl

@[simp] theorem Client.count_written : c.count.written = c.written := rfl

@[simp] theorem Client.write_asked (tbuf : Message) : (c.write tbuf).asked = c.asked := rfl

@[simp] theorem Client.write_written (tbuf : Message) :
    (c.write tbuf).written = c.written ++ [tbuf] := rfl

/-- The message is written exactly if the connection is there, whatever the console gets of it. -/
theorem sensorQueue_sends (debug : ℕ) (connected logged : ℕ → Bool) (c : Client) (qi : QueueItem) :
    (sensorQueue debug connected logged c qi).1.asked = c.asked + 1 ∧
      (sensorQueue debug connected logged c qi).1.written =
        if connected c.asked then
          c.written ++
            [.sensor c.console.msgCnt qi.brand qi.address qi.channel qi.label qi.value]
        else c.written := by
  unfold sensorQueue
  by_cases hconnected : connected c.asked = true
  · by_cases hdebug : debug ≥ 1
    · simp only [if_pos hconnected, if_pos hdebug]
      exact ⟨rfl, rfl⟩
    · simp only [if_pos hconnected, if_neg hdebug]
      exact ⟨rfl, rfl⟩
  · simp only [if_neg hconnected, and_self]

theorem sensorQueue_eq (debug : ℕ) (connected logged : ℕ → Bool) (c : Client)
    (hsensor : qi.action = "sensor") :
    (sensorQueue debug connected logged c qi).1.asked = c.asked + 1 ∧
      (sensorQueue debug connected logged c qi).1.written.map Message.item =
        c.written.map Message.item ++ if connected c.asked then [qi] else [] := by
  rcases sensorQueue_sends debug connected logged c qi with ⟨hasked, hwritten⟩
  have hitem : (Message.sensor c.console.msgCnt qi.brand qi.address qi.channel qi.label
      qi.value).item = qi := by
    rw [Message.item, ← hsensor]
  refine ⟨hasked, ?_⟩
  rw [hwritten]
  split
  · rw [List.map_append, List.map_singleton, hitem]
  · exact (List.append_nil _).symm

theorem deviceQueue_eq (connected : ℕ → Bool) (c : Client) (qi : QueueItem) :
    (deviceQueue connected c qi).1.asked = c.asked + 1 ∧
      (deviceQueue connected c qi).1.written.map Message.item =
        c.written.map Message.item ++
          if A_RESERVED_ADDRESS < qi.gaddr ∧ connected c.asked then [qi] else [] := by
  unfold deviceQueue
  split
  · next hconnected =>
    split
    · next hreserved => simp [Nat.not_lt.2 hreserved]
    · next hfree => simp [Message.item, hconnected, Nat.lt_of_not_le hfree]
  · next hdown => simp [hdown]

/-- One item: whether the connection is checked, and what is written. -/
theorem handleItem_eq (debug : ℕ) (connected logged : ℕ → Bool) (c : Client) (qi : QueueItem) :
    (handleItem debug connected logged c qi).asked = c.asked + (if qi.Asks then 1 else 0) ∧
      (handleItem debug connected logged c qi).written.map Message.item =
        c.written.map Message.item ++ if qi.Goes ∧ connected c.asked then [qi] else [] := by
  unfold handleItem QueueItem.Asks QueueItem.Goes
  by_cases hsensor : qi.action = "sensor"
  · rcases sensorQueue_eq debug connected logged c hsensor with ⟨hasked, hwritten⟩
    simp [hsensor, hasked, hwritten]
  · rcases deviceQueue_eq connected c qi with ⟨hasked, hwritten⟩
    by_cases hgui : qi.action = "gui"
    · simp [hgui, hasked, hwritten]
    · by_cases hhandset : qi.action = "handset"
      · simp [hhandset, hasked, hwritten]
      · simp [hsensor, hgui, hhandset]

/-- The loop takes every item off the queue, and asks and writes as said. -/
theorem handleQueue_eq (debug : ℕ) (connected logged : ℕ → Bool) (c : Client)
    (queue : List QueueItem) :
    (handleQueue debug connected logged c queue).2 = [] ∧
      (handleQueue debug connected logged c queue).1.written.map Message.item =
        c.written.map Message.item ++ sent connected c.asked queue := by
  induction queue generalizing c with
  | nil => exact ⟨rfl, (List.append_nil _).symm⟩
  | cons qi queue ih =>
      rcases handleItem_eq debug connected logged c qi with ⟨hasked, hwritten⟩
      rcases ih (handleItem debug connected logged c qi) with ⟨hempty, hrest⟩
      refine ⟨hempty, ?_⟩
      rw [handleQueue, hrest, hwritten, hasked, List.append_assoc]
      rfl

/-! ## What a dropped connection loses -/

/-- An item that the daemon is to get: from a sensor, or from a handset whose address is not
reserved. -/
def QueueItem.Event (qi : QueueItem) : Prop :=
  qi.action = "sensor" ∨ qi.action = "handset" ∧ A_RESERVED_ADDRESS < qi.gaddr

instance (qi : QueueItem) : Decidable qi.Event := by
  unfold QueueItem.Event
  infer_instance

/-- Each of the items is in one of the two lists, once, and both lists are in order. -/
def Accounted (items written queue : List QueueItem) : Prop :=
  ∃ split : List (QueueItem × Bool), split.map Prod.fst = items ∧
    (split.filter fun p => p.2).map Prod.fst = written ∧
    (split.filter fun p => !p.2).map Prod.fst = queue

/-- If the queue is empty afterwards, everything has to be written. -/
theorem accounted_nil_iff {items written : List QueueItem} :
    Accounted items written [] ↔ written = items := by
  constructor
  · rintro ⟨split, rfl, rfl, hnone⟩
    have hall : split.filter (fun p => p.2) = split := by
      refine List.filter_eq_self.2 fun p hp => ?_
      by_contra hkept
      have hmem : p ∈ split.filter fun p => !p.2 := List.mem_filter.2 ⟨hp, by simpa using hkept⟩
      rw [List.map_eq_nil_iff.1 hnone] at hmem
      cases hmem
    rw [hall]
  · rintro rfl
    refine ⟨written.map fun qi => (qi, true), ?_, ?_, ?_⟩
    · rw [List.map_map]
      exact List.map_id _
    · rw [List.filter_eq_self.2 (by simp), List.map_map]
      exact List.map_id _
    · rw [List.filter_eq_nil_iff.2 (by simp)]
      rfl

theorem sent_sublist (connected : ℕ → Bool) (n : ℕ) (queue : List QueueItem) :
    (sent connected n queue).Sublist queue := by
  induction queue generalizing n with
  | nil => exact List.Sublist.refl []
  | cons qi queue ih =>
      unfold sent
      split
      · exact (ih _).cons_cons qi
      · exact (ih _).cons qi

def asks (queue : List QueueItem) : ℕ := queue.countP fun qi => qi.Asks

/-- The items that the daemon is to get are written exactly if there is a connection for each. -/
theorem sent_filter_iff (connected : ℕ → Bool) (n : ℕ) (queue : List QueueItem) :
    (sent connected n queue).filter (fun qi => qi.Event) = queue.filter (fun qi => qi.Event) ↔
      ∀ i qi, queue[i]? = some qi → qi.Event → connected (n + asks (queue.take i)) = true := by
  induction queue generalizing n with
  | nil => simp [sent]
  | cons qi queue ih =>
      have hasks : ∀ l, n + asks (qi :: l) = n + (if qi.Asks then 1 else 0) + asks l := by
        intro l
        rw [asks, asks, List.countP_cons]
        simp only [decide_eq_true_eq]
        omega
      -- the first item, and the others
      have hsplit : (∀ i qi', (qi :: queue)[i]? = some qi' → qi'.Event →
          connected (n + asks ((qi :: queue).take i)) = true) ↔
          (qi.Event → connected n = true) ∧ ∀ i qi', queue[i]? = some qi' → qi'.Event →
            connected (n + (if qi.Asks then 1 else 0) + asks (queue.take i)) = true := by
        constructor
        · intro h
          refine ⟨fun hevent => h 0 qi rfl hevent, ?_⟩
          intro i qi' hqi' hevent
          rw [← hasks]
          exact h (i + 1) qi' hqi' hevent
        · rintro ⟨hfirst, hrest⟩ i qi' hqi' hevent
          cases i with
          | zero =>
              cases hqi'
              exact hfirst hevent
          | succ i =>
              rw [List.take_succ_cons, hasks]
              exact hrest i qi' hqi' hevent
      rw [hsplit, ← ih, sent]
      by_cases hevent : qi.Event
      · have hgoes : qi.Goes := by
          rcases hevent with hsensor | ⟨hhandset, haddress⟩
          · exact Or.inl hsensor
          · exact Or.inr ⟨Or.inr hhandset, haddress⟩
        cases hconnected : connected n with
        | true => simp [hgoes, hevent]
        | false =>
            have hlen := ((sent_sublist connected (n + if qi.Asks then 1 else 0) queue).filter
              fun qi => qi.Event).length_le
            constructor
            · intro heq
              rw [if_neg (by simp), List.nil_append, List.filter_cons_of_pos (by simpa using hevent)]
                at heq
              rw [heq, List.length_cons] at hlen
              omega
            · rintro ⟨hfirst, -⟩
              exact absurd (hfirst hevent) (by simp)
      · have hskip : ((if qi.Goes ∧ connected n then [qi] else []) : List QueueItem).filter
            (fun qi => qi.Event) = [] := by
          split <;> simp [hevent]
        rw [List.filter_append, hskip, List.filter_cons_of_neg (by simpa using hevent)]
        simp [hevent]

/-- A call of `handleQueue` loses no sensor or handset item exactly if there is a connection whenever
`sensorQueue` or `deviceQueue` asks for one on behalf of such an item.  What `printConsole` is told
when it asks again does not matter, nor does what is left in `OutString`. -/
theorem handleQueue_accounted_iff (debug : ℕ) (connected logged : ℕ → Bool) (console : Console)
    (queue : List QueueItem) :
    let after := handleQueue debug connected logged ⟨console, 0, 0, []⟩ queue
    Accounted (queue.filter fun qi => qi.Event)
        ((after.1.written.map Message.item).filter fun qi => qi.Event)
        (after.2.filter fun qi => qi.Event) ↔
      ∀ i qi, queue[i]? = some qi → qi.Event → connected (asks (queue.take i)) = true := by
  intro after
  rcases handleQueue_eq debug connected logged ⟨console, 0, 0, []⟩ queue with ⟨hempty, hwritten⟩
  have hsent := sent_filter_iff connected 0 queue
  simp only [Nat.zero_add] at hsent
  rw [hempty, hwritten, List.filter_nil, accounted_nil_iff, ← hsent]
  rfl

/-- The reading of a sensor, and no connection: it is neither written nor left in the queue. -/
theorem handleQueue_loses :
    let queue : List QueueItem :=
      [{ gaddr := 100, uaddr := 1, val := .value 21, action := "sensor", cmd := "wt440",
         message := "temperature" }]
    let after := handleQueue 1 (fun _ => false) (fun _ => false) ⟨⟨"", 0, [], []⟩, 0, 0, []⟩ queue
    after.1.written = [] ∧ after.2 = [] ∧
      ¬Accounted (queue.filter fun qi => qi.Event)
        ((after.1.written.map Message.item).filter fun qi => qi.Event)
        (after.2.filter fun qi => qi.Event) := by
  intro queue after
  have hwritten : after.1.written = [] := by
    simp [after, queue, handleQueue, handleItem, sensorQueue]
  have hempty : after.2 = [] := rfl
  refine ⟨hwritten, hempty, ?_⟩
  rw [hwritten, hempty, List.filter_nil, accounted_nil_iff]
  simp [queue, QueueItem.Event]

/-! ## Action remotes -/

def showRemoteCode (queue : List QueueItem) (receivedCode period : ℕ) : List QueueItem :=
  if 120 < period ∧ period < 180 then
    let r := readCode receivedCode
    let level := if r.level = 20 then 0 else 1
    -- both branches of the source print the same text
    let val := if r.level = 20 then "on" else "on"
    let item : QueueItem :=
      { gaddr := r.address, uaddr := r.unit, val := .val val, action := "handset", cmd := "action",
        message := "!A" ++ toString r.address ++ "D" ++ toString r.unit ++ "F" ++ toString level }
    queue ++ [item]
  -- no item, only what `printConsole` logs
  else queue

/-- What is queued for the telegram of an Action remote. -/
theorem showRemoteCode_actionTrits {systemCode device : ℕ} (hcode : systemCode < 32)
    (hdevice : device < 5) (on : Bool) (queue : List QueueItem) (period : ℕ) :
    ∃ new, showRemoteCode queue (value (actionTrits systemCode device on)) period = queue ++ new ∧
      new.length = (if 120 < period ∧ period < 180 then 1 else 0) ∧
      ∀ qi ∈ new, qi.action = "handset" ∧ qi.gaddr = systemCode ∧ qi.uaddr = device := by
  unfold showRemoteCode
  split
  · rw [readCode_actionTrits hcode hdevice on]
    refine ⟨_, rfl, rfl, ?_⟩
    intro qi hqi
    rw [List.mem_singleton.1 hqi]
    exact ⟨rfl, rfl, rfl⟩
  · refine ⟨[], (List.append_nil queue).symm, rfl, ?_⟩
    intro qi hqi
    cases hqi

theorem handleQueue_append (debug : ℕ) (connected logged : ℕ → Bool) (c : Client)
    (queue new : List QueueItem) :
    (handleQueue debug connected logged c (queue ++ new)).1 =
      (handleQueue debug connected logged (handleQueue debug connected logged c queue).1 new).1 := by
  induction queue generalizing c with
  | nil => rfl
  | cons qi queue ih => exact ih (handleItem debug connected logged c qi)

/-- An item that is not to be written leaves what is written and printed as it is. -/
theorem handleItem_written (debug : ℕ) (connected logged : ℕ → Bool) (c : Client) (h : ¬qi.Goes) :
    (handleItem debug connected logged c qi).written = c.written ∧
      (handleItem debug connected logged c qi).console = c.console := by
  have hdevice : (qi.action = "gui" ∨ qi.action = "handset") →
      (deviceQueue connected c qi).1.written = c.written ∧
        (deviceQueue connected c qi).1.console = c.console := by
    intro haction
    have hreserved : qi.gaddr ≤ A_RESERVED_ADDRESS :=
      Nat.le_of_not_lt fun hfree => h (Or.inr ⟨haction, hfree⟩)
    unfold deviceQueue
    simp only [if_pos hreserved]
    split <;> exact ⟨rfl, rfl⟩
  unfold handleItem
  split
  · next hsensor => exact absurd (Or.inl hsensor) h
  · split
    · next hgui => exact hdevice (Or.inl hgui)
    · split
      · next hhandset => exact hdevice (Or.inr hhandset)
      · exact ⟨rfl, rfl⟩

theorem handleQueue_written (h : ∀ qi ∈ queue, ¬qi.Goes) :
    (handleQueue debug connected logged c queue).1.written = c.written ∧
      (handleQueue debug connected logged c queue).1.console = c.console := by
  induction queue generalizing c with
  | nil => exact ⟨rfl, rfl⟩
  | cons qi queue ih =>
      rcases handleItem_written debug connected logged c (h qi List.mem_cons_self) with
        ⟨hwritten, hconsole⟩
      rcases ih (c := handleItem debug connected logged c qi) fun qi' hqi' =>
        h qi' (List.mem_cons_of_mem qi hqi') with ⟨hwritten', hconsole'⟩
      exact ⟨hwritten'.trans hwritten, hconsole'.trans hconsole⟩

/-- `deviceQueue` does not send the items of an Action remote. -/
theorem not_goes_of_reserved (hhandset : qi.action = "handset")
    (hreserved : qi.gaddr ≤ A_RESERVED_ADDRESS) : ¬qi.Goes := by
  rintro (hsensor | ⟨-, hfree⟩)
  · rw [hhandset] at hsensor
    exact absurd hsensor (by decide)
  · exact absurd hreserved (Nat.not_le.2 hfree)

/-- A telegram of an Action remote is not sent to the daemon: an item for it is queued at most once,
and once for every period that `showRemoteCode` takes, with the remote's system code and device, but
an address up to 31 is reserved, so that `handleQueue` writes what it would have written anyway. -/
theorem action_reserved (tx : Transmitter) (systemCode device : ℕ) (on : Bool) (period : ℕ)
    (queue : List QueueItem) (debug : ℕ) (logged : ℕ → Bool) (console : Console)
    (hcode : systemCode < 32) (hdevice : device < 5) :
    let code := ActionTransmitter.getTelegram tx systemCode device on &&& 0xFFFFF
    let after := showRemoteCode queue code period
    (∃ new, after = queue ++ new ∧ new.length ≤ 1 ∧
      (120 < period ∧ period < 180 → new.length = 1) ∧
      ∀ qi ∈ new, qi.action = "handset" ∧ qi.gaddr = systemCode ∧ qi.uaddr = device) ∧
    (handleQueue debug (fun _ => true) logged ⟨console, 0, 0, []⟩ after).1.written =
      (handleQueue debug (fun _ => true) logged ⟨console, 0, 0, []⟩ queue).1.written ∧
    (handleQueue debug (fun _ => true) logged ⟨console, 0, 0, []⟩ after).1.console =
      (handleQueue debug (fun _ => true) logged ⟨console, 0, 0, []⟩ queue).1.console ∧
    (handleQueue debug (fun _ => true) logged ⟨console, 0, 0, []⟩ after).2 = [] := by
  intro code after
  rcases showRemoteCode_actionTrits hcode hdevice on queue period with
    ⟨new, hnew, hlen, hall⟩
  have hafter : after = queue ++ new := by
    rw [← hnew, ← getTelegram_data tx]
  -- the system code is below the reserved addresses
  have hstays : ∀ qi ∈ new, ¬qi.Goes := by
    intro qi hqi
    rcases hall qi hqi with ⟨hhandset, haddress, -⟩
    refine not_goes_of_reserved hhandset ?_
    calc
      qi.gaddr = systemCode := haddress
      _ ≤ A_RESERVED_ADDRESS := by
        unfold A_RESERVED_ADDRESS
        omega
  refine ⟨⟨new, hafter, ?_, ?_, hall⟩, ?_, ?_, (handleQueue_eq _ _ _ _ _).1⟩
  · rw [hlen]
    split <;> omega
  · intro hperiod
    rw [hlen, if_pos hperiod]
  -- the new item comes last, and `deviceQueue` only asks for the connection
  · rw [hafter, handleQueue_append]
    exact (handleQueue_written hstays).1
  · rw [hafter, handleQueue_append]
    exact (handleQueue_written hstays).2

/-- System code 5 and device 3 switched on, with the sensor item that was queued before. -/
theorem action_reserved_example :
    let queue : List QueueItem :=
      [{ gaddr := 100, uaddr := 1, val := .value 21, action := "sensor", cmd := "wt440",
         message := "temperature" }]
    let code := ActionTransmitter.getTelegram ⟨150, 3⟩ 5 (3 : ℕ) true &&& 0xFFFFF
    let after := showRemoteCode queue code 150
    let handled := handleQueue 1 (fun _ => true) (fun _ => true) ⟨⟨"", 0, [], []⟩, 0, 0, []⟩
    (∃ new, after = queue ++ new ∧ new.length ≤ 1 ∧ (120 < 150 ∧ 150 < 180 → new.length = 1) ∧
      ∀ qi ∈ new, qi.action = "handset" ∧ qi.gaddr = 5 ∧ qi.uaddr = 3) ∧
    (handled after).1.written = (handled queue).1.written ∧
    (handled after).1.console = (handled queue).1.console ∧ (handled after).2 = [] := by
  intro queue
  exact action_reserved ⟨150, 3⟩ 5 3 true 150 queue 1 (fun _ => true) ⟨"", 0, [], []⟩ (by decide)
    (by decide)

/-- Nothing is written for system code 1 and device 0 switched on, with a period of 150 µs. -/
theorem action_not_written :
    let code := ActionTransmitter.getTelegram ⟨150, 3⟩ 1 (0 : ℕ) true &&& 0xFFFFF
    let after := handleQueue 1 (fun _ => true) (fun _ => true) ⟨⟨"", 0, [], []⟩, 0, 0, []⟩
      (showRemoteCode [] code 150)
    after.1.written.length ≠ 1 := by
  intro code after
  have hcode : code = value (actionTrits 1 0 true) := getTelegram_data ⟨150, 3⟩ 1 0 true
  rcases showRemoteCode_actionTrits (show 1 < 32 by decide) (show 0 < 5 by decide) true [] 150
    with
    ⟨new, hnew, -, hall⟩
  have hqueue : showRemoteCode [] code 150 = new := by
    rw [hcode]
    exact hnew
  have hwritten : after.1.written = [] := by
    refine (handleQueue_written fun qi hqi => ?_).1
    rw [hqueue] at hqi
    rcases hall qi hqi with ⟨hhandset, haddress, -⟩
    exact not_goes_of_reserved hhandset (haddress.trans_le (by decide))
  rw [hwritten]
  exact Nat.zero_ne_one

end EspGateway
end LamPI
