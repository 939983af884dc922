import LamPI.ArduinoGateway.Relay
import LamPI.EspGateway.Receive

/-!
# From the daemon to another gateway

The daemon's commands arrive at `ESP-Gateway.ino` as texts, cut into pieces by the network, and make
it transmit.  An Arduino gateway hears the transmissions and prints lines.  For the orders that fit
the protocols these say what the daemon has asked for.
-/

namespace LamPI
namespace EspGateway

open PulseLine Tokens

/-! ## What an object transmits -/

def JsonObject.transmitted (root : JsonObject) : List (List Action) :=
  ((handleObject 0 root idle).map fun r => r.1.sent).getD []

/-- A command transmits the same at any gateway, or fails at all of them. -/
def Adds (f : Gateway → Option Gateway) (new : Option (List (List Action))) : Prop :=
  ∀ g, (f g).map Gateway.sent = new.map (g.sent ++ ·)

theorem sendKaku_adds (ls : Letters) {unknown : Gateway → Gateway}
    (hunknown : ∀ g, (unknown g).sent = g.sent) (gaddr uaddr : ℕ) (val : List Char) (value : ℤ) :
    ∃ new, ∀ g, (sendKaku ls unknown gaddr uaddr val value g).sent = g.sent ++ new := by
  unfold sendKaku
  -- the branches in the order of the source
  by_cases ho : val[0]? = some ls.o
  · simp only [if_pos ho]
    by_cases hn : val[1]? = some ls.n
    · simp only [if_pos hn]
      exact ⟨[_], fun _ => rfl⟩
    · by_cases hf : val[1]? = some ls.f
      · simp only [if_neg hn, if_pos hf]
        exact ⟨[_], fun _ => rfl⟩
      · simp only [if_neg hn, if_neg hf]
        exact ⟨[], fun g => (hunknown g).trans (List.append_nil _).symm⟩
  · simp only [if_neg ho]
    by_cases hzero : value = 0
    · simp only [if_pos hzero]
      exact ⟨[_], fun _ => rfl⟩
    · by_cases hlevel : 1 ≤ value ∧ value ≤ 15
      · simp only [if_neg hzero, if_pos hlevel]
        exact ⟨[_], fun _ => rfl⟩
      · simp only [if_neg hzero, if_neg hlevel]
        exact ⟨[], fun g => (List.append_nil _).symm⟩

theorem handleCommand_adds (root : JsonObject) (cmd : List Char) (gaddr uaddr : ℕ) :
    ∃ new, Adds (handleCommand root cmd gaddr uaddr) new := by
  unfold Adds handleCommand
  by_cases hkaku : cmd = kakuCmd
  · simp only [if_pos hkaku]
    cases root.val with
    | none => exact ⟨none, fun _ => rfl⟩
    | some val =>
        have hunknown : ∀ g : Gateway,
            (g.log " ! wifiReceive:: Unknown button command" 1).sent = g.sent := fun _ => rfl
        rcases sendKaku_adds JsonObject.letters hunknown gaddr uaddr val
          ((int (atoi val)).tdiv 2) with ⟨new, hnew⟩
        exact ⟨some new, fun g => congrArg some (hnew g)⟩
  · by_cases haction : cmd = actionCmd
    · simp only [if_neg hkaku, if_pos haction]
      cases root.val with
      | none => exact ⟨none, fun _ => rfl⟩
      | some val => exact ⟨some [_], fun _ => rfl⟩
    · by_cases hlivolo : cmd = livoloCmd
      · simp only [if_neg hkaku, if_neg haction, if_pos hlivolo]
        exact ⟨some [_], fun _ => rfl⟩
      · simp only [if_neg hkaku, if_neg haction, if_neg hlivolo]
        refine ⟨some [], fun g => ?_⟩
        split
        · exact congrArg some (List.append_nil _).symm
        · exact congrArg some (List.append_nil _).symm

theorem exists_transmitted (root : JsonObject) :
    ∃ new, ∀ length g, (handleObject length root g).map (fun r => r.1.sent) =
      Option.map (g.sent ++ ·) new := by
  unfold handleObject
  cases root.action with
  | none => exact ⟨none, fun _ _ => rfl⟩
  | some action =>
      by_cases halarm : action = alarmAction
      · simp only [Option.bind_some, if_pos halarm]
        exact ⟨some [], fun _ g => congrArg some (List.append_nil _).symm⟩
      · simp only [Option.bind_some, if_neg halarm]
        cases root.cmd with
        | none => exact ⟨none, fun _ _ => rfl⟩
        | some cmd =>
            rcases handleCommand_adds root cmd (uint (root.gaddr.getD 0))
              (byte (root.uaddr.getD 0)) with ⟨new, hnew⟩
            refine ⟨new, fun length g => ?_⟩
            rw [Option.bind_some, Option.map_map]
            exact hnew _

/-- Whatever has been going on at the gateway, an object adds its transmission to it. -/
theorem handleObject_sent {length : ℕ} {root : JsonObject} {g : Gateway} {r : Gateway × ℤ}
    (h : handleObject length root g = some r) : r.1.sent = g.sent ++ root.transmitted := by
  rcases exists_transmitted root with ⟨new, hnew⟩
  have hidle := hnew 0 idle
  have hg := hnew length g
  rw [h, Option.map_some] at hg
  rcases Option.map_eq_some_iff.1 hg.symm with ⟨actions, rfl, hsent⟩
  rw [JsonObject.transmitted, hidle]
  exact hsent.symm

/-! ## Reception -/

variable {parseObject : List Char → Option JsonObject} {s s' : Station}

/-- A call adds the transmissions of the objects that it acts on. -/
theorem wifiReceive_sent {call : Call} {n : ℤ}
    (h : wifiReceive parseObject s call = some (s', n)) :
    ∃ new, s'.acted = s.acted ++ new ∧
      s'.gateway.sent = s.gateway.sent ++ new.flatMap JsonObject.transmitted := by
  have hnone : ∀ (link : Link) (g : Gateway), g.sent = s.gateway.sent →
      ∃ new, (Station.mk link g s.acted).acted = s.acted ++ new ∧
        (Station.mk link g s.acted).gateway.sent =
          s.gateway.sent ++ new.flatMap JsonObject.transmitted := fun link g hg =>
    ⟨[], (List.append_nil _).symm, hg.trans (List.append_nil _).symm⟩
  unfold wifiReceive at h
  by_cases hconnected : call.connected = true
  · simp only [if_pos hconnected] at h
    cases hread : (s.link.receive call).1 with
    | none =>
        simp only [hread] at h
        cases h
        exact hnone _ _ rfl
    | some text =>
        simp only [hread] at h
        cases hparse : parseObject (text ++ [closingBrace]) with
        | none =>
            simp only [hparse] at h
            cases h
            exact hnone _ _ rfl
        | some root =>
            simp only [hparse] at h
            rcases Option.map_eq_some_iff.1 h with ⟨r, hr, hs'⟩
            cases hs'
            refine ⟨[root], rfl, ?_⟩
            rw [List.flatMap_singleton]
            exact handleObject_sent hr
  · simp only [if_neg hconnected] at h
    cases h
    exact hnone _ _ rfl

theorem receiveAll_sent {calls : List Call} (h : receiveAll parseObject calls s = some s') :
    ∃ new, s'.acted = s.acted ++ new ∧
      s'.gateway.sent = s.gateway.sent ++ new.flatMap JsonObject.transmitted := by
  induction calls generalizing s with
  | nil =>
      cases h
      exact ⟨[], (List.append_nil _).symm, (List.append_nil _).symm⟩
  | cons call calls ih =>
      rcases Option.bind_eq_some_iff.1 h with ⟨⟨s₁, n⟩, hcall, hrest⟩
      rcases wifiReceive_sent hcall with ⟨new, hacted, hsent⟩
      rcases ih hrest with ⟨new', hacted', hsent'⟩
      refine ⟨new ++ new', ?_, ?_⟩
      · rw [hacted', hacted, List.append_assoc]
      · rw [hsent', hsent, List.append_assoc, List.flatMap_append]

/-! ## Orders -/

inductive Level where
  | on
  | off
  | dim (n : Fin 32)
  deriving DecidableEq, Repr

def Level.text : Level → List Char
  | .on => "on".toList
  | .off => "off".toList
  | .dim n => Nat.toDigits 10 n

/-- What it is on the air, where levels go up to 15. -/
def Level.value : Level → ArduinoGateway.KakuValue
  | .on => .on
  | .off => .off
  | .dim n => .level ⟨n / 2, by omega⟩

/-- What the daemon can ask for; the level of the last one is not sent. -/
inductive Order where
  | kaku (address : Fin (2 ^ 26)) (unit : Fin 16) (level : Level)
  | action (group : Fin 32) (unit : Fin 5) (on : Bool)
  | livolo (group : Fin (2 ^ 16)) (unit : Fin (2 ^ 7)) (level : ℕ)

def Order.command : Order → Command
  | .kaku address unit level =>
      { action := "gui".toList, cmd := kakuCmd, gaddr := Nat.toDigits 10 address,
        uaddr := Nat.toDigits 10 unit, val := level.text }
  | .action group unit on =>
      { action := "gui".toList, cmd := actionCmd, gaddr := Nat.toDigits 10 group,
        uaddr := Nat.toDigits 10 unit, val := if on then "on".toList else "off".toList }
  | .livolo group unit level =>
      { action := "gui".toList, cmd := livoloCmd, gaddr := Nat.toDigits 10 group,
        uaddr := Nat.toDigits 10 unit, val := Nat.toDigits 10 level }

def Order.signal : Order → ArduinoGateway.Signal
  | .kaku address unit level => .kaku address unit level.value
  | .action group unit on => .action group unit on
  | .livolo group unit _ => .livolo group unit

/-! ## The commands -/

def Alphanumeric (text : List Char) : Prop := ∀ c ∈ text, c.isAlphanum

instance (text : List Char) : Decidable (Alphanumeric text) := List.decidableBAll _ text

theorem alphanumeric_toDigits (n : ℕ) : Alphanumeric (Nat.toDigits 10 n) := by
  intro c hc
  have hdigit : c.isDigit = true := Nat.isDigit_of_mem_toDigits (by decide) (by decide) hc
  rw [Char.isAlphanum, hdigit, Bool.or_true]

theorem alphanumeric_text (level : Level) : Alphanumeric level.text := by
  cases level with
  | on => decide
  | off => decide
  | dim n => exact alphanumeric_toDigits n

/-- A text of letters and digits needs no escapes and has no brace. -/
theorem Alphanumeric.plain {text : List Char} (h : Alphanumeric text) :
    ArduinoJson.Plain text ∧ closingBrace ∉ text := by
  have hne : ∀ c ∈ text, ∀ d : Char, d.isAlphanum = false → c ≠ d := by
    intro c hc d hd heq
    have hc' := h c hc
    rw [heq, hd] at hc'
    cases hc'
  constructor
  · intro c hc
    exact ⟨hne c hc _ (by decide), hne c hc _ (by decide), hne c hc _ (by decide)⟩
  · intro hmem
    exact hne _ hmem closingBrace (by decide) rfl

theorem writable_of_alphanumeric {c : Command}
    (h : ∀ text ∈ [c.action, c.cmd, c.gaddr, c.uaddr, c.val], Alphanumeric text) : c.Writable := by
  have hkeys : ∀ key ∈ ["action".toList, "cmd".toList, "gaddr".toList, "uaddr".toList,
      "val".toList], Alphanumeric key := by decide
  intro pair hpair
  rcases (hkeys pair.1 (List.mem_map_of_mem hpair)).plain with ⟨hkey, hkey'⟩
  rcases (h pair.2 (List.mem_map_of_mem hpair)).plain with ⟨htext, htext'⟩
  exact ⟨⟨hkey, htext⟩, hkey', htext'⟩

theorem writable_command (o : Order) : o.command.Writable := by
  have hgui : Alphanumeric "gui".toList := by decide
  refine writable_of_alphanumeric ?_
  cases o with
  | kaku address unit level =>
      have hcmd : Alphanumeric kakuCmd := by decide
      simp only [Order.command, List.forall_mem_cons]
      exact ⟨hgui, hcmd, alphanumeric_toDigits _, alphanumeric_toDigits _, alphanumeric_text level,
        List.forall_mem_nil _⟩
  | action group unit on =>
      have hcmd : Alphanumeric actionCmd := by decide
      have hval : Alphanumeric (if on then "on".toList else "off".toList) := by
        cases on <;> decide
      simp only [Order.command, List.forall_mem_cons]
      exact ⟨hgui, hcmd, alphanumeric_toDigits _, alphanumeric_toDigits _, hval,
        List.forall_mem_nil _⟩
  | livolo group unit level =>
      have hcmd : Alphanumeric livoloCmd := by decide
      simp only [Order.command, List.forall_mem_cons]
      exact ⟨hgui, hcmd, alphanumeric_toDigits _, alphanumeric_toDigits _, alphanumeric_toDigits _,
        List.forall_mem_nil _⟩

/-- A number that is sent as a text. -/
theorem asInteger_toDigits {n : ℕ} (hn : n < 2 ^ 31) :
    (ArduinoJson.JsonVariant.string (Nat.toDigits 10 n)).asInteger = n := by
  have htrue : Nat.toDigits 10 n ≠ "true".toList := by
    intro heq
    have hmem : 't' ∈ Nat.toDigits 10 n := heq ▸ List.mem_cons_self
    have hdigit := Nat.isDigit_of_mem_toDigits (b := 10) (by decide) (by decide) hmem
    exact absurd hdigit (by decide)
  rw [ArduinoJson.JsonVariant.asInteger, if_neg htrue, ArduinoJson.strtol, atoi_toDigits,
    if_neg (by omega), if_neg (by omega)]

/-- The members of a command as `WifiReceive` gets them. -/
theorem root_eq (c : Command) :
    c.root =
      { action := some c.action, cmd := some c.cmd, val := some c.val,
        gaddr := some (uint (ArduinoJson.JsonVariant.string c.gaddr).asInteger),
        uaddr := some (uint (ArduinoJson.JsonVariant.string c.uaddr).asInteger) } := rfl

/-- A level makes the transmitter send what it is on the air. -/
theorem sendKaku_level {unknown : Gateway → Gateway} (address : ℕ) (unit : Fin 16) (level : Level)
    (g : Gateway) :
    (sendKaku JsonObject.letters unknown address unit level.text
      ((int (atoi level.text)).tdiv 2) g).sent =
        g.sent ++ [(level.value.command unit).send .esp8266 (Kaku.Transmitter.new 260 3)
          address] := by
  cases level with
  | on => rfl
  | off => rfl
  | dim n =>
      have hhead : (Level.dim n).text[0]? ≠ some JsonObject.letters.o :=
        ArduinoGateway.head_toDigits_ne n
      have hvalue : (int (atoi (Level.dim n).text)).tdiv 2 = ((n.val / 2 : ℕ) : ℤ) := by
        have hlt := n.isLt
        rw [Level.text, atoi_toDigits, int, Int.bmod_eq_of_le (by omega) (by omega)]
        rfl
      rw [sendKaku, if_neg hhead, hvalue, Level.value, ArduinoGateway.KakuValue.command]
      by_cases hzero : n.val / 2 = 0
      · have hzero' : ((n.val / 2 : ℕ) : ℤ) = 0 := by omega
        rw [if_pos hzero', if_pos hzero]
        rfl
      · have hne : ((n.val / 2 : ℕ) : ℤ) ≠ 0 := by omega
        have hrange : 1 ≤ ((n.val / 2 : ℕ) : ℤ) ∧ ((n.val / 2 : ℕ) : ℤ) ≤ 15 := by omega
        have hbyte : byte ((n.val / 2 : ℕ) : ℤ) = n.val / 2 := by
          rw [byte]
          omega
        rw [if_neg hne, if_pos hrange, if_neg hzero, hbyte]
        rfl

/-- What a command transmits that has its numbers in range. -/
theorem transmitted_root {c : Command} {gaddr uaddr : ℕ} {actions : List Action}
    (haction : c.action = "gui".toList) (hgaddr : c.gaddr = Nat.toDigits 10 gaddr)
    (huaddr : c.uaddr = Nat.toDigits 10 uaddr) (hgaddr' : gaddr < 2 ^ 31) (huaddr' : uaddr < 256)
    (hcommand : ∀ g : Gateway, (handleCommand c.root c.cmd gaddr uaddr g).map Gateway.sent =
      some (g.sent ++ [actions])) : c.root.transmitted = [actions] := by
  have hgui : c.action ≠ alarmAction := by
    rw [haction]
    decide
  have hg : uint (uint (ArduinoJson.JsonVariant.string c.gaddr).asInteger) = gaddr := by
    rw [hgaddr, asInteger_toDigits hgaddr', uint, uint]
    omega
  have hu : byte (uint (ArduinoJson.JsonVariant.string c.uaddr).asInteger) = uaddr := by
    rw [huaddr, asInteger_toDigits (by omega), byte, uint]
    omega
  have hobject : (handleObject 0 c.root idle).map (fun r => r.1.sent) = some [actions] := by
    rw [root_eq, handleObject, Option.bind_some, if_neg hgui]
    simp only [Option.getD_some, Option.bind_some, hg, hu]
    rw [Option.map_map]
    exact hcommand _
  rw [JsonObject.transmitted, hobject, Option.getD_some]

/-- A command is transmitted as it is meant. -/
theorem transmitted_command (o : Order) :
    o.command.root.transmitted = [o.signal.send .esp8266] := by
  cases o with
  | kaku address unit level =>
      have haddress := address.isLt
      have hunit := unit.isLt
      refine transmitted_root rfl rfl rfl (by omega) (by omega) fun g => ?_
      exact congrArg some (sendKaku_level address unit level g)
  | action group unit on =>
      have hgroup : byte group.val = group.val := by
        have hlt := group.isLt
        rw [byte]
        omega
      have hon : decide ((if on then "on".toList else "off".toList) = "on".toList) = on := by
        cases on <;> decide
      have hlt := group.isLt
      refine transmitted_root rfl rfl rfl (by omega) (by omega) fun g => ?_
      have hcmd : (Order.action group unit on).command.cmd = actionCmd := rfl
      rw [hcmd, root_eq, handleCommand, if_neg kakuCmd_ne.1.symm, if_pos rfl]
      simp only [Order.command, Option.map_some, hgroup, hon]
      rfl
  | livolo group unit level =>
      have hlt := group.isLt
      have hunit := unit.isLt
      refine transmitted_root rfl rfl rfl (by omega) (by omega) fun g => ?_
      have hcmd : (Order.livolo group unit level).command.cmd = livoloCmd := rfl
      rw [hcmd, handleCommand, if_neg kakuCmd_ne.2.1.symm, if_neg kakuCmd_ne.2.2.symm, if_pos rfl]
      rfl

/-! ## The other gateway -/

/-- Each transmission is that of its order. -/
theorem sends_zip (os : List Order) {ts : List ℕ} (hlen : ts.length = os.length) :
    List.Forall₂ ArduinoGateway.Signal.SentAs (os.map Order.signal)
      (ts.zip (os.map fun o => o.signal.send .esp8266)) := by
  induction os generalizing ts with
  | nil =>
      rw [List.map_nil, List.map_nil, List.zip_nil_right]
      exact .nil
  | cons o os ih =>
      rcases ts with _ | ⟨t, ts⟩
      · cases hlen
      · exact .cons ⟨.esp8266, rfl⟩ (ih (Nat.succ.inj hlen))

def texts (os : List Order) : List Char := (os.map fun o => o.command.text).flatten

/-- However the texts of the daemon's orders are cut into pieces, as long as no call times out within
one other than right before its closing brace: the gateway transmits the first of them, and all of
them once everything has been read, each once and in their order; and another gateway that waits
whenever a transmission begins, and reads the codes as its library passes them, prints what they ask
for, in lines with consecutive numbers. -/
theorem orders_relayed (g : Gateway) (os : List Order) (calls : List Call)
    (hwhole : Link.EveryWhole ⟨[], texts os⟩ calls) :
    ∃ s done todo actions, receiveAll parseCommand calls ⟨⟨[], texts os⟩, g, []⟩ = some s ∧
      os = done ++ todo ∧ (s.link.arrived ++ s.link.coming = [] → todo = []) ∧
      s.gateway.sent = g.sent ++ actions ∧ actions.length = done.length ∧
      ∀ (layout : ArduinoGateway.Layout) (edge0 edge2 : ULong) (g' : ArduinoGateway.Gateway)
        (times ts : List ℕ), g'.msgCnt < 65536 → ts.length = done.length →
        (∀ o ∈ done, layout.Intact o.signal.handler) →
        let b := (ArduinoGateway.System.started layout edge0 edge2 g').edges times
        b.WaitsEach (ts.zip actions) →
          ∃ ks, List.Forall₂ (fun o k => o.signal.copies.1 ≤ k ∧ k ≤ o.signal.copies.2) done ks ∧
            (b.hears (ts.zip actions)).gateway.output = b.gateway.output ++
              ArduinoGateway.reports b.gateway.msgCnt
                ((done.map fun o n => o.signal.report g'.debug n).zip ks) := by
  -- the orders as texts with their objects
  let sent := os.map fun o => (o.command.text, o.command.root)
  have htexts : (sent.map Prod.fst).flatten = texts os := by
    rw [List.map_map]
    rfl
  have hsent : ∀ m ∈ sent, Sends parseCommand m.1 m.2 := by
    intro m hm
    rcases List.mem_map.1 hm with ⟨o, -, rfl⟩
    exact (writable_command o).sends
  have hstart : Between sent ⟨⟨[], texts os⟩, g, []⟩ :=
    ⟨[], sent, [], rfl, rfl, Or.inl rfl, htexts.symm⟩
  rcases hstart.run (by decide) hsent hwhole with
    ⟨s, hrun, roots, rest, left, hsplit, hacted, -, hunread⟩
  rcases List.map_eq_append_iff.1 hsplit with ⟨done, todo, rfl, hdone, htodo⟩
  refine ⟨s, done, todo, done.map fun o => o.signal.send .esp8266, hrun, rfl, fun hend => ?_, ?_,
    List.length_map _, ?_⟩
  · -- nothing is left, not even the text of one more order
    rw [hend] at hunread
    cases todo with
    | nil => rfl
    | cons o todo =>
        rcases (writable_command o).sends.closed with ⟨body, htext, -⟩
        rw [← htodo, List.map_cons, List.map_cons, List.flatten_cons, htext] at hunread
        have hlength := congrArg List.length hunread
        simp at hlength
  · rcases receiveAll_sent hrun with ⟨new, hnew, hgateway⟩
    have hroots : new = done.map fun o => o.command.root := by
      rw [List.nil_append, hacted, ← hdone, List.map_map] at hnew
      exact hnew.symm
    rw [hgateway, hroots, List.flatMap_map]
    simp only [transmitted_command]
    exact congrArg (g.sent ++ ·) List.map_eq_flatMap.symm
  · intro layout edge0 edge2 g' times ts hcnt hlen hintact b hwaits
    have hstarted : (ArduinoGateway.System.started layout edge0 edge2 g').gateway.msgCnt < 65536 :=
      hcnt
    have hread : ∀ x ∈ done.map Order.signal, b.layout.Intact x.handler := by
      intro x hx
      rcases List.mem_map.1 hx with ⟨o, ho, rfl⟩
      rw [ArduinoGateway.System.layout_edges]
      exact hintact o ho
    have hdebug : b.gateway.debug = g'.debug :=
      ArduinoGateway.System.debug_edges hstarted times
    rcases ArduinoGateway.output_hears (sends_zip done hlen)
      (ArduinoGateway.System.ready_edges (ArduinoGateway.ready_initReceivers edge0 edge2) times)
      (ArduinoGateway.System.msgCnt_edges hstarted times) hread hwaits with
      ⟨ks, hks, houtput⟩
    refine ⟨ks, List.forall₂_map_left_iff.1 hks, ?_⟩
    rwa [List.map_map, hdebug] at houtput

/-- A dimmer is set to 18 of 31, by a text that arrives in two pieces. -/
theorem orders_relayed_example :
    let o := Order.kaku 50000000 3 (.dim 18)
    ∃ s actions, receiveAll parseCommand [⟨true, 20, 50⟩, ⟨true, 1, 0⟩]
        ⟨⟨[], texts [o]⟩, idle, []⟩ = some s ∧ s.gateway.sent = actions ∧ actions.length = 1 ∧
      let b := (ArduinoGateway.System.started .same 0 0 ⟨1, 0, 0, [], []⟩).edges []
      ∃ ks, List.Forall₂ (fun o k => o.signal.copies.1 ≤ k ∧ k ≤ o.signal.copies.2) [o] ks ∧
        (b.hears ([1800].zip actions)).gateway.output = b.gateway.output ++
          ArduinoGateway.reports b.gateway.msgCnt
            (([o].map fun o n => o.signal.report 1 n).zip ks) := by
  intro o
  rcases orders_relayed idle [o] [⟨true, 20, 50⟩, ⟨true, 1, 0⟩] (by decide) with
    ⟨s, done, todo, actions, hrun, hsplit, hall, hsent, hlen, hheard⟩
  have hlink : (receiveAll parseCommand [⟨true, 20, 50⟩, ⟨true, 1, 0⟩]
      ⟨⟨[], texts [o]⟩, idle, []⟩).map (fun s => s.link.arrived ++ s.link.coming) = some [] := by
    decide +kernel
  rw [hrun] at hlink
  obtain rfl : todo = [] := hall (Option.some.inj hlink)
  obtain rfl : done = [o] := by rw [hsplit, List.append_nil]
  have hb := hheard .same 0 0 ⟨1, 0, 0, [], []⟩ [] [1800] (by decide) rfl
    fun o _ => ArduinoGateway.intact_same _
  obtain ⟨a, rfl⟩ : ∃ a, actions = [a] := List.length_eq_one_iff.1 hlen
  exact ⟨s, [a], hrun, hsent, rfl, hb ⟨fun h _ => ArduinoGateway.waits_initReceivers .avr h, trivial⟩⟩

end EspGateway
end LamPI
