import LamPI.EspGateway.Console
import LamPI.Kaku.Transmitter
import LamPI.Library.Tokens
import LamPI.Livolo.Transmitter
import LamPI.Remote.Action

/-!
# Commands from the network — `WifiReceive` and `WifiServer` of `ESP-Gateway.ino`

The daemon sends JSON objects and a browser sends requests; both may ask for a transmission.  The
texts of an object that are not there are `NULL`, as are the tokens of a request.  A run of the
model fails where one of them is compared, converted or indexed.
-/

namespace LamPI
namespace EspGateway

open PulseLine Tokens

/-! ## The gateway -/

/-- The debug level, the console, and what each transmission has done to the pin. -/
structure Gateway where
  debug : ℕ
  console : Console
  sent : List (List Action)

/-- `OutString += text; printConsole(OutString, d)`, while there is a connection to the daemon. -/
def Gateway.log (g : Gateway) (text : String) (d : ℤ) : Gateway :=
  let console := { g.console with OutString := g.console.OutString ++ text }
  { g with console := (printConsole g.debug true console console.OutString d).1 }

def Gateway.transmit (g : Gateway) (actions : List Action) : Gateway :=
  { g with sent := g.sent ++ [actions] }

@[simp] theorem Gateway.log_sent (g : Gateway) (text : String) (d : ℤ) :
    (g.log text d).sent = g.sent := rfl

@[simp] theorem Gateway.transmit_sent_ne (g : Gateway) (actions : List Action) :
    ¬(g.transmit actions).sent = g.sent := by
  intro h
  have hlen := congrArg List.length h
  simp [Gateway.transmit] at hlen

theorem Gateway.log_transmit_ne (g : Gateway) (text : String) (d : ℤ) (actions : List Action) :
    ¬((g.log text d).transmit actions).sent = g.sent := (g.log text d).transmit_sent_ne actions

def int (n : ℤ) : ℤ := Int.bmod n (2 ^ 32)

/-- The value of an expression once it is an `unsigned int` or an `unsigned long`. -/
def uint (n : ℤ) : ℕ := (n % 2 ^ 32).toNat

def byte (n : ℤ) : ℕ := (n % 256).toNat

/-! ## KlikAanKlikUit -/

/-- The letters of `on` and `off` that are looked at. -/
structure Letters where
  o : Char
  n : Char
  f : Char
  deriving DecidableEq, Repr

/-- The branch for KlikAanKlikUit of both functions: `val` is the text and `value` the number that
it stands for. -/
def sendKaku (ls : Letters) (unknown : Gateway → Gateway) (gaddr uaddr : ℕ) (val : List Char)
    (value : ℤ) (g : Gateway) : Gateway :=
  let transmitter := Kaku.Transmitter.new 260 3
  if val[0]? = some ls.o then
    if val[1]? = some ls.n then g.transmit (Kaku.sendUnit .esp8266 transmitter gaddr uaddr true)
    else if val[1]? = some ls.f then
      g.transmit (Kaku.sendUnit .esp8266 transmitter gaddr uaddr false)
    else unknown g
  else if value = 0 then g.transmit (Kaku.sendUnit .esp8266 transmitter gaddr uaddr false)
  else if 1 ≤ value ∧ value ≤ 15 then
    g.transmit (Kaku.sendDim .esp8266 transmitter gaddr uaddr (byte value))
  else g.log " ! ERROR dim not between 0 and 15!" 1

/-- The text asks for a transmission: it says on or off, or a level. -/
def AsksToSend (ls : Letters) (val : List Char) (value : ℤ) : Prop :=
  if val[0]? = some ls.o then val[1]? = some ls.n ∨ val[1]? = some ls.f
  else 0 ≤ value ∧ value ≤ 15

instance (ls : Letters) (val : List Char) (value : ℤ) : Decidable (AsksToSend ls val value) := by
  unfold AsksToSend
  infer_instance

theorem sendKaku_sent (ls : Letters) {unknown : Gateway → Gateway}
    (hunknown : ∀ g, (unknown g).sent = g.sent) (gaddr uaddr : ℕ) (val : List Char) (value : ℤ)
    (g : Gateway) :
    (sendKaku ls unknown gaddr uaddr val value g).sent = g.sent ↔ ¬AsksToSend ls val value := by
  unfold sendKaku AsksToSend
  -- the branches in the order of the source
  by_cases ho : val[0]? = some ls.o
  · simp only [if_pos ho]
    by_cases hn : val[1]? = some ls.n
    · simp [hn]
    · by_cases hf : val[1]? = some ls.f
      · simp only [if_neg hn, if_pos hf]
        simp [hf]
      · simp only [if_neg hn, if_neg hf]
        simp [hn, hf, hunknown]
  · simp only [if_neg ho]
    by_cases hzero : value = 0
    · simp [hzero]
    · by_cases hlevel : 1 ≤ value ∧ value ≤ 15
      · have hasks : 0 ≤ value ∧ value ≤ 15 := ⟨by omega, hlevel.2⟩
        simp only [if_neg hzero, if_pos hlevel]
        simp [hasks]
      · have hasks : ¬(0 ≤ value ∧ value ≤ 15) := by omega
        simp only [if_neg hzero, if_neg hlevel]
        simp [hasks]

/-! ## Objects from the daemon -/

/-- The members of an object that `WifiReceive` uses; ArduinoJson makes `NULL` of a text that is
missing, and 0 of a number. -/
structure JsonObject where
  action : Option (List Char)
  cmd : Option (List Char)
  val : Option (List Char)
  gaddr : Option ℕ
  uaddr : Option ℕ
  deriving DecidableEq, Repr

def JsonObject.letters : Letters := ⟨'o', 'n', 'f'⟩

/-- `OutString += text`, which leaves a `NULL` out. -/
def shown (text : Option (List Char)) : String := String.ofList (text.getD [])

def alarmAction : List Char := "alarm".toList
def kakuCmd : List Char := "kaku".toList
def actionCmd : List Char := "action".toList
def livoloCmd : List Char := "livolo".toList
def zwaveCmd : List Char := "zwave".toList

/-- The comparisons of `cmd` in `WifiReceive`. -/
def handleCommand (root : JsonObject) (cmd : List Char) (gaddr uaddr : ℕ) (g : Gateway) :
    Option Gateway :=
  if cmd = kakuCmd then
    root.val.map fun val =>
      -- levels of the daemon go up to 31
      let value := (int (atoi val)).tdiv 2
      sendKaku JsonObject.letters (fun g => g.log " ! wifiReceive:: Unknown button command" 1)
        gaddr uaddr val value g
  else if cmd = actionCmd then
    root.val.map fun val =>
      (g.log " ! action cmd" 1).transmit (Remote.ActionTransmitter.sendSignal .esp8266 ⟨195, 3⟩
        (byte gaddr) uaddr (val = "on".toList))
  else if cmd = livoloCmd then
    some ((g.log " ! livolo cmd" 1).transmit (Livolo.sendButton gaddr uaddr))
  else if cmd = zwaveCmd then some (g.log " ! Zwave cmd Ignored" 2)
  else some (g.log " ! Command not recognized: " 1)

/-- `WifiReceive` from the parsed object on, and what it returns; `length` is that of the text it
was parsed from. -/
def handleObject (length : ℕ) (root : JsonObject) (g : Gateway) : Option (Gateway × ℤ) :=
  root.action.bind fun action =>
    if action = alarmAction then some (g.log " ! ERROR WifiReceive:: ALARM received" 1, -1)
    else
      let gaddr := uint (root.gaddr.getD 0)
      let uaddr := byte (root.uaddr.getD 0)
      let g := g.log ("READ:  <" ++ toString length ++ "> " ++ toString gaddr ++ ":" ++
        toString uaddr ++ ", " ++ shown root.cmd ++ ", value: " ++ shown root.val) 1
      root.cmd.bind fun cmd => (handleCommand root cmd gaddr uaddr g).map fun g => (g, 0)

def JsonObject.Addressed (root : JsonObject) : Prop := root.gaddr.isSome ∧ root.uaddr.isSome

def JsonObject.Lacks (root : JsonObject) : Prop :=
  root.action = none ∨ root.cmd = none ∨
    (root.cmd = some kakuCmd ∨ root.cmd = some actionCmd) ∧ (¬root.Addressed ∨ root.val = none) ∨
    root.cmd = some livoloCmd ∧ ¬root.Addressed

/-- No text is used that is not there, and an object that lacks a member transmits nothing. -/
def SafeObject (length : ℕ) (g : Gateway) (root : JsonObject) : Prop :=
  ∃ r, handleObject length root g = some r ∧ (root.Lacks → r.1.sent = g.sent)

def JsonObject.Usable (root : JsonObject) (cmd : List Char) : Prop :=
  (cmd = kakuCmd → ∃ val, root.val = some val ∧
    (root.Addressed ∨ ¬AsksToSend JsonObject.letters val ((int (atoi val)).tdiv 2))) ∧
  (cmd = actionCmd → root.val.isSome ∧ root.Addressed) ∧
  (cmd = livoloCmd → root.Addressed)

theorem kakuCmd_ne : kakuCmd ≠ actionCmd ∧ kakuCmd ≠ livoloCmd ∧ actionCmd ≠ livoloCmd := by
  decide

/-- One command: nothing that is missing is used, and nothing is transmitted if something is. -/
theorem handleCommand_iff {root : JsonObject} {cmd : List Char} (hroot : root.cmd = some cmd)
    (haction : root.action.isSome) (gaddr uaddr : ℕ) (g : Gateway) :
    (∃ g', handleCommand root cmd gaddr uaddr g = some g' ∧ (root.Lacks → g'.sent = g.sent)) ↔
      root.Usable cmd := by
  rcases kakuCmd_ne with ⟨hka, hkl, hal⟩
  -- with an action, only the members of the command count
  have hlacks : root.Lacks ↔
      (cmd = kakuCmd ∨ cmd = actionCmd) ∧ (¬root.Addressed ∨ root.val = none) ∨
        cmd = livoloCmd ∧ ¬root.Addressed := by
    have hne : root.action ≠ none := Option.isSome_iff_ne_none.1 haction
    rw [JsonObject.Lacks, hroot]
    simp only [hne, false_or, reduceCtorEq, Option.some.injEq]
  rw [hlacks]
  unfold handleCommand JsonObject.Usable
  by_cases hkaku : cmd = kakuCmd
  · subst hkaku
    simp only [if_pos, hka, hkl, or_false, true_and, false_and, false_implies, and_true,
      forall_const]
    cases hval : root.val with
    | none => simp
    | some val =>
        -- `val` is there: an unknown button or a level above 15 transmits nothing
        have hlog : ∀ g : Gateway,
            (g.log " ! wifiReceive:: Unknown button command" 1).sent = g.sent := fun _ => rfl
        have hsent := sendKaku_sent JsonObject.letters hlog gaddr uaddr val
          ((int (atoi val)).tdiv 2) g
        simp only [Option.map_some, hsent, reduceCtorEq, or_false, Option.some.injEq,
          exists_eq_left']
        exact or_iff_not_imp_left.symm
  · by_cases hact : cmd = actionCmd
    · subst hact
      simp only [if_pos, hkaku, hal, or_true, true_and, false_and, or_false, false_implies,
        and_true, forall_const]
      cases hval : root.val with
      | none => simp
      | some val => simp [g.log_transmit_ne]
    · by_cases hlivolo : cmd = livoloCmd
      · subst hlivolo
        -- Livolo transmits whatever the members are
        simp [hkaku, hact, g.log_transmit_ne]
      · simp only [hkaku, hact, hlivolo, or_self, false_and, false_implies, and_true,
          iff_true]
        by_cases hzwave : cmd = zwaveCmd
        · exact ⟨_, if_pos hzwave⟩
        · exact ⟨_, if_neg hzwave⟩

/-- An object is handled safely exactly if it is an alarm, or has a command and the members that the
transmission needs, if it asks for one. -/
theorem safeObject_iff (length : ℕ) (g : Gateway) (root : JsonObject) :
    SafeObject length g root ↔ ∃ action, root.action = some action ∧
      (action = alarmAction ∨ ∃ cmd, root.cmd = some cmd ∧ root.Usable cmd) := by
  unfold SafeObject handleObject
  cases haction : root.action with
  | none => simp
  | some action =>
      by_cases halarm : action = alarmAction
      · simp [halarm]
      · cases hcmd : root.cmd with
        | none => simp [halarm]
        | some cmd =>
            -- the line that is printed before the command does not transmit
            have hcommand := handleCommand_iff hcmd (Option.isSome_iff_exists.2 ⟨action, haction⟩)
              (uint (root.gaddr.getD 0)) (byte (root.uaddr.getD 0)) (g.log ("READ:  <" ++
                toString length ++ "> " ++ toString (uint (root.gaddr.getD 0)) ++ ":" ++
                toString (byte (root.uaddr.getD 0)) ++ ", " ++ shown (some cmd) ++ ", value: " ++
                shown root.val) 1)
            rw [Gateway.log_sent] at hcommand
            simp only [Option.bind_some, Option.some.injEq, exists_eq_left', halarm,
              false_or, ← hcommand]
            constructor
            · rintro ⟨r, hr, hsent⟩
              rcases Option.map_eq_some_iff.1 hr with ⟨g', hg', rfl⟩
              exact ⟨g', hg', hsent⟩
            · rintro ⟨g', hg', hsent⟩
              exact ⟨(g', 0), Option.map_eq_some_iff.2 ⟨g', hg', rfl⟩, hsent⟩

/-! ## Requests from a browser -/

/-- The separators of the three calls of `strtok` on a request. -/
def methodEnd (c : Char) : Bool := c = ' ' || c = '/' || c = '?'
def commandEnd (c : Char) : Bool := c = ' ' || c = '/' || c = '?' || c = ':' || c = '='
def argumentEnd (c : Char) : Bool := c = ' ' || c = '/' || c = ':' || c = '='

/-- The texts that are looked for: the request is in upper case by then. -/
def requestLetters : Letters := ⟨'O', 'N', 'F'⟩

/-- The commands of a request that use more than their name. -/
def debugRequest : List Char := "DEBUG".toList
def kakuRequest : List Char := "KAKU".toList

/-- The comparisons of `cmd` in `WifiServer`. -/
def handleRequest (cmd : List Char) (arg : Option (List Char)) : Reader Char Gateway Unit :=
  if cmd = debugRequest then do
    let arg ← need arg
    update fun g => { g with debug := byte (int (atoi arg)) }
  else if cmd = kakuRequest then do
    let arg ← need arg
    let unit ← next argumentEnd
    let pch ← next argumentEnd
    -- an unknown word is reported on the page
    update (sendKaku requestLetters id (uint (int (atoi arg))) (byte (int (atoi unit))) pch
      (int (atoi pch)))
  else update id

def logRequest (cmd arg : Option (List Char)) (g : Gateway) : Gateway :=
  if 1 ≤ g.debug then g.log ("ADMIN: " ++ shown cmd ++ " " ++ shown arg) 1 else g

/-- `strdup(request.c_str())` in upper case; a NUL ends the text. -/
def dup (request : List Char) : List Char :=
  (request.takeWhile fun c => c ≠ Char.ofNat 0).map Char.toUpper

/-- The part of `WifiServer` from the request to the answer, without the page that is answered. -/
def wifiServer (request : List Char) : Reader Char Gateway Unit := do
  start (dup request)
  let _ ← take methodEnd
  let cmd ← take commandEnd
  let arg ← take argumentEnd
  update (logRequest cmd arg)
  let cmd ← need cmd
  handleRequest cmd arg

/-- The tokens that `strtok` finds in a request, behind the method. -/
structure Taken where
  cmd : Option (List Char)
  arg : Option (List Char)
  unit : Option (List Char)
  level : Option (List Char)
  deriving DecidableEq, Repr

def taken (request : List Char) : Taken :=
  let method := strtok methodEnd (dup request)
  let cmd := strtok commandEnd method.2
  let arg := strtok argumentEnd cmd.2
  let unit := strtok argumentEnd arg.2
  let level := strtok argumentEnd unit.2
  { cmd := cmd.1, arg := arg.1, unit := unit.1, level := level.1 }

/-- The second word of a request, between the method and the version of the protocol. -/
def target (request : List Char) : List Char :=
  ((tokens (fun c => c = ' ') (dup request))[1]?).getD []

def arguments (request : List Char) : List (List Char) :=
  tokens argumentEnd (strtok commandEnd (target request)).2

def LacksArguments (request : List Char) : Prop :=
  (taken request).cmd = none ∨
    (taken request).cmd = some debugRequest ∧ (arguments request).length < 1 ∨
    (taken request).cmd = some kakuRequest ∧ (arguments request).length < 3

instance (request : List Char) : Decidable (LacksArguments request) := by
  unfold LacksArguments
  infer_instance

/-- No token is used that is not there, and a request that lacks a field transmits nothing. -/
def SafeRequest (g : Gateway) (request : List Char) : Prop :=
  ∃ s, wifiServer request ([], g) = some ((), s) ∧
    (LacksArguments request → s.2.sent = g.sent)

/-- The tokens that a command uses are there, and those of a transmission are the request's own. -/
def Taken.Usable (request : List Char) (t : Taken) (cmd : List Char) : Prop :=
  (cmd = debugRequest → t.arg.isSome) ∧
  (cmd = kakuRequest → t.arg.isSome ∧ t.unit.isSome ∧ ∃ level, t.level = some level ∧
    (3 ≤ (arguments request).length ∨ ¬AsksToSend requestLetters level (int (atoi level))))

theorem debugRequest_ne : debugRequest ≠ kakuRequest := by decide

@[simp] theorem logRequest_sent (cmd arg : Option (List Char)) (g : Gateway) :
    (logRequest cmd arg g).sent = g.sent := by
  unfold logRequest
  split <;> rfl

/-- A KAKU request uses three tokens. -/
theorem handleRequest_kaku (arg : Option (List Char)) (s : List Char × Gateway) :
    (handleRequest kakuRequest arg s).map (fun r => r.2.2) =
      arg.bind fun arg => (strtok argumentEnd s.1).1.bind fun unit =>
        (strtok argumentEnd (strtok argumentEnd s.1).2).1.map fun pch =>
          sendKaku requestLetters id (uint (int (atoi arg))) (byte (int (atoi unit))) pch
            (int (atoi pch)) s.2 := by
  rw [handleRequest, if_neg debugRequest_ne.symm, if_pos rfl]
  cases arg with
  | none => rfl
  | some arg =>
      cases hunit : (strtok argumentEnd s.1).1 with
      | none => simp [next, take, need, bind, StateT.bind, hunit]
      | some unit =>
          cases hpch : (strtok argumentEnd (strtok argumentEnd s.1).2).1 <;>
            simp [next, take, need, update, bind, StateT.bind, hunit, hpch]

def answer (t : Taken) (g : Gateway) : Option Gateway :=
  t.cmd.bind fun cmd =>
    if cmd = debugRequest then t.arg.map fun arg => { g with debug := byte (int (atoi arg)) }
    else if cmd = kakuRequest then
      t.arg.bind fun arg => t.unit.bind fun unit => t.level.map fun level =>
        sendKaku requestLetters id (uint (int (atoi arg))) (byte (int (atoi unit))) level
          (int (atoi level)) g
    else some g

theorem wifiServer_map (g : Gateway) (request : List Char) :
    (wifiServer request ([], g)).map (fun r => r.2.2) =
      answer (taken request) (logRequest (taken request).cmd (taken request).arg g) := by
  -- up to the first use of `cmd` a request only takes tokens
  have hrun : wifiServer request ([], g) =
      (need (taken request).cmd >>= fun cmd => handleRequest cmd (taken request).arg)
        ((strtok argumentEnd (strtok commandEnd (strtok methodEnd
          (dup request)).2).2).2,
          logRequest (taken request).cmd (taken request).arg g) := rfl
  rw [hrun, need_bind, answer]
  cases (taken request).cmd with
  | none => rfl
  | some cmd =>
      simp only [Option.bind_some]
      by_cases hdebug : cmd = debugRequest
      · rw [if_pos hdebug, handleRequest, if_pos hdebug, need_bind]
        cases (taken request).arg <;> rfl
      · rw [if_neg hdebug]
        by_cases hkaku : cmd = kakuRequest
        · rw [if_pos hkaku, hkaku, handleRequest_kaku]
          rfl
        · rw [if_neg hkaku, handleRequest, if_neg hdebug, if_neg hkaku]
          rfl

/-- A request is handled safely exactly if it has a command and the tokens that the command uses,
and those of a transmission are its own. -/
theorem safeRequest_iff (g : Gateway) (request : List Char) :
    SafeRequest g request ↔
      ∃ cmd, (taken request).cmd = some cmd ∧ (taken request).Usable request cmd := by
  unfold SafeRequest Taken.Usable
  refine (exists_run_iff (P := fun g' : Gateway => LacksArguments request → g'.sent = g.sent)).trans
    ?_
  rw [wifiServer_map, answer]
  have hlogged := logRequest_sent (taken request).cmd (taken request).arg g
  generalize logRequest (taken request).cmd (taken request).arg g = logged at hlogged
  cases hcmd : (taken request).cmd with
  | none => simp
  | some cmd =>
      simp only [Option.bind_some, Option.some.injEq, exists_eq_left']
      by_cases hdebug : cmd = debugRequest
      · have hne : cmd ≠ kakuRequest := hdebug ▸ debugRequest_ne
        simp only [hdebug, debugRequest_ne, false_implies, and_true, forall_const]
        cases (taken request).arg with
        | none => simp
        | some arg => simp [hlogged]
      · simp only [hdebug, if_false, false_implies, true_and]
        by_cases hkaku : cmd = kakuRequest
        · have hlacks : LacksArguments request ↔ ¬3 ≤ (arguments request).length := by
            rw [LacksArguments, hcmd, hkaku]
            simp [debugRequest_ne.symm]
          have hid : ∀ g : Gateway, (id g).sent = g.sent := fun _ => rfl
          have hsent := fun gaddr uaddr level =>
            sendKaku_sent requestLetters hid gaddr uaddr level (int (atoi level)) logged
          rw [hlogged] at hsent
          simp only [hkaku, if_true, forall_const, hlacks]
          -- all three tokens are used
          cases (taken request).arg with
          | none => simp
          | some arg =>
              cases (taken request).unit with
              | none => simp
              | some unit =>
                  cases (taken request).level with
                  | none => simp
                  | some level =>
                      simp only [Option.bind_some, Option.map_some, Option.some.injEq,
                        exists_eq_left', hsent, Option.isSome_some, true_and]
                      exact or_iff_not_imp_left.symm
        · simp [hkaku, hlogged]

/-! ## Both handlers -/

/-- Exactly the objects and requests that both handlers are safe for: those that have every text
that is used, and every member or argument that their transmission needs, if they ask for one. -/
theorem handlers_safe_iff (length : ℕ) (g : Gateway) :
    (∀ root, SafeObject length g root ↔ ∃ action, root.action = some action ∧
      (action = alarmAction ∨ ∃ cmd, root.cmd = some cmd ∧ root.Usable cmd)) ∧
    (∀ request, SafeRequest g request ↔
      ∃ cmd, (taken request).cmd = some cmd ∧ (taken request).Usable request cmd) :=
  ⟨safeObject_iff length g, safeRequest_iff g⟩

def idle : Gateway :=
  { debug := 1, console := { OutString := "", msgCnt := 0, written := [], serial := [] },
    sent := [] }

/-- An object without a command, and a request without a level: the version of the protocol is
taken for one, and the device is switched off. -/
theorem handlers_unsafe :
    ¬SafeObject 0 idle { action := some "gui".toList, cmd := none, val := some "on".toList,
                         gaddr := some 1, uaddr := some 1 } ∧
      ¬SafeRequest idle "GET /KAKU/5/3 HTTP/1.1".toList := by
  constructor
  · rw [safeObject_iff]
    rintro ⟨action, haction, halarm | ⟨cmd, hcmd, -⟩⟩
    · cases haction
      revert halarm
      decide
    · cases hcmd
  · rw [safeRequest_iff]
    rintro ⟨cmd, hcmd, -, husable⟩
    have hkaku : some cmd = some kakuRequest := hcmd.symm.trans (by decide)
    cases hkaku
    rcases husable rfl with ⟨-, -, level, hlevel, hown⟩
    have hhttp : some level = some "HTTP".toList := hlevel.symm.trans (by decide)
    cases hhttp
    revert hown
    decide

/-- With a level of its own the same request is fine. -/
example : arguments "GET /KAKU/5/3/ON HTTP/1.1".toList = ["5".toList, "3".toList, "ON".toList] ∧
    ¬LacksArguments "GET /KAKU/5/3/ON HTTP/1.1".toList := by
  decide

end EspGateway
end LamPI
