import LamPI.ArduinoJson
import LamPI.EspGateway.Commands

/-!
# Reception from the daemon — `WifiReceive` of `ESP-Gateway.ino`

A call reads up to the next closing brace, or up to where nothing more comes for 5 ms, and appends a
brace in either case.  An object that arrives in pieces is then cut into several texts, none of
which need be the object; only a cut right before the closing brace does no harm.
-/

namespace LamPI
namespace EspGateway

/-! ## Bytes -/

def closingBrace : Char := '\x7d'

/-- The bytes from the daemon that have arrived and are not yet read, and those on their way. -/
structure Link where
  arrived : List Char
  coming : List Char
  deriving DecidableEq, Repr

/-- A call of `WifiReceive`: how many bytes have arrived since the call before, and how many more do
while it reads, before it times out. -/
structure Call where
  connected : Bool
  before : ℕ
  during : ℕ
  deriving DecidableEq, Repr

def Link.deliver (link : Link) (n : ℕ) : Link :=
  { arrived := link.arrived ++ link.coming.take n, coming := link.coming.drop n }

def Link.readStringUntil (terminator : Char) (link : Link) : List Char × Link :=
  (link.arrived.takeWhile (· ≠ terminator),
    { link with arrived := (link.arrived.dropWhile (· ≠ terminator)).tail })

def Link.receive (link : Link) (call : Call) : Option (List Char) × Link :=
  let link := link.deliver call.before
  if call.connected ∧ link.arrived ≠ [] then
    let r := (link.deliver call.during).readStringUntil closingBrace
    (some r.1, r.2)
  else (none, link)

/-! ## Objects -/

/-- The bytes, the gateway, and the objects that have been acted on. -/
structure Station where
  link : Link
  gateway : Gateway
  acted : List JsonObject

/-- `OutString += text; printConsole(OutString, d)`, without a connection to the daemon. -/
def Gateway.logOffline (g : Gateway) (text : String) (d : ℤ) : Gateway :=
  let console := { g.console with OutString := g.console.OutString ++ text }
  { g with console := (printConsole g.debug false console console.OutString d).1 }

section Parser

variable (parseObject : List Char → Option JsonObject)

def wifiReceive (s : Station) (call : Call) : Option (Station × ℤ) :=
  let r := s.link.receive call
  let s := { s with link := r.2 }
  if call.connected then
    match r.1 with
    | none => some (s, 0)
    | some text =>
        let line := text ++ [closingBrace]
        match parseObject line with
        | none =>
            some ({ s with gateway := s.gateway.log " ! ERROR WifiReceive:: Json Decode" 1 }, -1)
        | some root =>
            (handleObject line.length root s.gateway).map fun r =>
              ({ s with gateway := r.1, acted := s.acted ++ [root] }, r.2)
  else
    some ({ s with gateway := s.gateway.logOffline "! WifiReceive: not connected" 1 }, -1)

def receiveAll : List Call → Station → Option Station
  | [], s => some s
  | call :: calls, s => (wifiReceive parseObject s call).bind fun r => receiveAll calls r.1

/-- The text is that of a command with all its members, and has no brace inside. -/
structure Sends (text : List Char) (root : JsonObject) : Prop where
  parsed : parseObject text = some root
  closed : ∃ body, text = body ++ [closingBrace] ∧ closingBrace ∉ body
  action : root.action.isSome
  cmd : root.cmd.isSome
  val : root.val.isSome
  gaddr : root.gaddr.isSome
  uaddr : root.uaddr.isSome

/-- The objects up to some point have been acted on, and the texts of the others are still to be
read; at most the brace of the last one is left in front of them. -/
def Between (sent : List (List Char × JsonObject)) (s : Station) : Prop :=
  ∃ done todo rest, sent = done ++ todo ∧ s.acted = done.map Prod.snd ∧
    (rest = [] ∨ rest = [closingBrace]) ∧
    s.link.arrived ++ s.link.coming = rest ++ (todo.map Prod.fst).flatten

end Parser

/-- A call that reads finds the next closing brace, or times out right before it. -/
def Link.Whole (link : Link) (call : Call) : Prop :=
  call.connected → (link.deliver call.before).arrived ≠ [] →
    closingBrace ∈ ((link.deliver call.before).deliver call.during).arrived ∨
      ((link.deliver call.before).deliver call.during).coming.head? = some closingBrace

instance (link : Link) (call : Call) : Decidable (link.Whole call) := by
  unfold Link.Whole
  infer_instance

def Link.EveryWhole : Link → List Call → Prop
  | _, [] => True
  | link, call :: calls => link.Whole call ∧ (link.receive call).2.EveryWhole calls

instance : ∀ (link : Link) (calls : List Call), Decidable (link.EveryWhole calls)
  | _, [] => inferInstanceAs (Decidable True)
  | link, call :: calls =>
      have := instDecidableEveryWhole (link.receive call).2 calls
      inferInstanceAs (Decidable (_ ∧ _))

variable {parseObject : List Char → Option JsonObject} {sent : List (List Char × JsonObject)}
  {s : Station} {link : Link} {call : Call}

/-! ## One read -/

theorem Link.deliver_unread (link : Link) (n : ℕ) :
    (link.deliver n).arrived ++ (link.deliver n).coming = link.arrived ++ link.coming := by
  rw [Link.deliver, List.append_assoc, List.take_append_drop]

/-- What is read up to a terminator. -/
theorem takeWhile_terminator {a : Char} {x : List Char} (hx : a ∉ x) (y : List Char) :
    (x ++ a :: y).takeWhile (· ≠ a) = x ∧ ((x ++ a :: y).dropWhile (· ≠ a)).tail = y := by
  have hne : ∀ c ∈ x, decide (c ≠ a) = true := by
    intro c hc
    exact decide_eq_true fun heq => hx (heq ▸ hc)
  constructor
  · rw [List.takeWhile_append_of_pos hne, List.takeWhile_cons_of_neg (by simp), List.append_nil]
  · rw [List.dropWhile_append_of_pos hne, List.dropWhile_cons_of_neg (by simp), List.tail_cons]

/-- A text has one first terminator. -/
theorem append_terminator_inj {a : Char} {x x' y y' : List Char} (hx : a ∉ x) (hx' : a ∉ x')
    (h : x ++ a :: y = x' ++ a :: y') : x = x' ∧ y = y' := by
  have hleft := takeWhile_terminator hx y
  rw [h] at hleft
  rcases takeWhile_terminator hx' y' with ⟨htake, hdrop⟩
  exact ⟨hleft.1.symm.trans htake, hleft.2.symm.trans hdrop⟩

/-- A call that reads up to the brace that closes `body`, or times out right before it, reads
`body`; the brace is taken off or left. -/
theorem Link.Whole.receive (h : link.Whole call) (hconnected : call.connected = true)
    (hsome : (link.deliver call.before).arrived ≠ []) {body more : List Char}
    (hbody : closingBrace ∉ body)
    (hunread : link.arrived ++ link.coming = body ++ closingBrace :: more) :
    (link.receive call).1 = some body ∧ ∃ rest, (rest = [] ∨ rest = [closingBrace]) ∧
      (link.receive call).2.arrived ++ (link.receive call).2.coming = rest ++ more := by
  have hreads : link.receive call =
      (some (((link.deliver call.before).deliver call.during).readStringUntil closingBrace).1,
        (((link.deliver call.before).deliver call.during).readStringUntil closingBrace).2) :=
    if_pos ⟨hconnected, hsome⟩
  have hall := ((link.deliver call.before).deliver_unread call.during).trans
    (link.deliver_unread call.before)
  have hwhole := h hconnected hsome
  rw [hreads]
  rw [hunread] at hall
  generalize (link.deliver call.before).deliver call.during = l at *
  unfold Link.readStringUntil
  by_cases hmem : closingBrace ∈ l.arrived
  · -- the terminator is there
    rcases List.eq_append_cons_of_mem hmem with ⟨x, y, hxy, hx⟩
    rw [hxy, List.append_assoc, List.cons_append] at hall
    rcases append_terminator_inj hx hbody hall with ⟨rfl, hmore⟩
    rcases takeWhile_terminator hbody y with ⟨htake, hdrop⟩
    rw [hxy]
    refine ⟨congrArg some htake, [], Or.inl rfl, ?_⟩
    simp only [hdrop, List.nil_append]
    exact hmore
  · -- the read times out, and the terminator comes next
    obtain ⟨c, hc⟩ : ∃ c, l.coming = closingBrace :: c := by
      rcases hcoming : l.coming with _ | ⟨c, rest⟩
      · rw [hcoming] at hwhole
        exact absurd (hwhole.resolve_left hmem) (by simp)
      · rw [hcoming] at hwhole
        cases hwhole.resolve_left hmem
        exact ⟨rest, rfl⟩
    rw [hc] at hall
    rcases append_terminator_inj hmem hbody hall with ⟨rfl, rfl⟩
    have hne : ∀ c ∈ l.arrived, decide (c ≠ closingBrace) = true := by
      intro c hc
      exact decide_eq_true fun heq => hmem (heq ▸ hc)
    refine ⟨congrArg some (List.takeWhile_eq_self_iff.2 hne), [closingBrace], Or.inr rfl, ?_⟩
    simp only [List.dropWhile_eq_nil_iff.2 hne, hc]
    rfl

/-! ## One call -/

/-- A complete command is carried out without using a text that is not there. -/
theorem Sends.handled {text : List Char} {root : JsonObject} (h : Sends parseObject text root)
    (length : ℕ) (g : Gateway) :
    ∃ r, handleObject length root g = some r := by
  rcases Option.isSome_iff_exists.1 h.action with ⟨action, haction⟩
  rcases Option.isSome_iff_exists.1 h.cmd with ⟨cmd, hcmd⟩
  rcases Option.isSome_iff_exists.1 h.val with ⟨val, hval⟩
  unfold handleObject
  rw [haction, Option.bind_some, hcmd]
  split
  · exact ⟨_, rfl⟩
  · have hcommand : ∀ gaddr uaddr g, ∃ g', handleCommand root cmd gaddr uaddr g = some g' := by
      intro gaddr uaddr g
      unfold handleCommand
      rw [hval]
      repeat' split
      all_goals exact ⟨_, rfl⟩
    obtain ⟨g', hg'⟩ := hcommand (uint (root.gaddr.getD 0)) (byte (root.uaddr.getD 0)) _
    exact ⟨(g', 0), by rw [Option.bind_some, hg', Option.map_some]⟩

/-- One call: it acts on nothing, or on the next command. -/
theorem Between.step (hbrace : parseObject [closingBrace] = none)
    (hsent : ∀ m ∈ sent, Sends parseObject m.1 m.2) (h : Between sent s)
    (hwhole : s.link.Whole call) :
    ∃ s' n, wifiReceive parseObject s call = some (s', n) ∧ Between sent s' ∧
      s'.link = (s.link.receive call).2 := by
  rcases h with ⟨done, todo, rest, hsplit, hacted, hrest, hunread⟩
  by_cases hreads : call.connected = true ∧ (s.link.deliver call.before).arrived ≠ []
  · rcases hreads with ⟨hconnected, hsome⟩
    rcases hrest with rfl | rfl
    · -- a text begins
      cases todo with
      | nil =>
          -- there is nothing left
          have hempty := s.link.deliver_unread call.before
          rw [hunread] at hempty
          exact absurd (List.append_eq_nil_iff.1 hempty).1 hsome
      | cons m todo =>
          have hm : Sends parseObject m.1 m.2 := hsent m (by simp [hsplit])
          rcases hm.closed with ⟨body, htext, hbody⟩
          have hnext : s.link.arrived ++ s.link.coming =
              body ++ closingBrace :: (todo.map Prod.fst).flatten := by
            rw [hunread, List.map_cons, List.flatten_cons, htext]
            simp
          rcases hwhole.receive hconnected hsome hbody hnext with ⟨hread, rest, hrest, hleft⟩
          rcases hm.handled (body ++ [closingBrace]).length s.gateway with ⟨r, hr⟩
          have hparse : parseObject (body ++ [closingBrace]) = some m.2 := htext ▸ hm.parsed
          refine ⟨{ link := (s.link.receive call).2, gateway := r.1, acted := s.acted ++ [m.2] },
            r.2, ?_, ⟨done ++ [m], todo, rest, ?_, ?_, hrest, hleft⟩, rfl⟩
          · rw [wifiReceive, if_pos hconnected]
            simp only [hread, hparse, hr, Option.map_some]
          · rw [hsplit, List.append_assoc, List.singleton_append]
          · rw [hacted, List.map_append, List.map_singleton]
    · -- the brace of the last command
      rcases hwhole.receive hconnected hsome List.not_mem_nil hunread with
        ⟨hread, rest, hrest, hleft⟩
      refine ⟨{ link := (s.link.receive call).2
                gateway := s.gateway.log " ! ERROR WifiReceive:: Json Decode" 1
                acted := s.acted },
        -1, ?_, ⟨done, todo, rest, hsplit, hacted, hrest, hleft⟩, rfl⟩
      rw [wifiReceive, if_pos hconnected]
      simp only [hread, List.nil_append, hbrace]
  · -- nothing is read
    have hnone : s.link.receive call = (none, s.link.deliver call.before) := if_neg hreads
    have hleft := s.link.deliver_unread call.before
    rw [hunread] at hleft
    rw [wifiReceive, hnone]
    split
    · exact ⟨_, _, rfl, ⟨done, todo, rest, hsplit, hacted, hrest, hleft⟩, rfl⟩
    · exact ⟨_, _, rfl, ⟨done, todo, rest, hsplit, hacted, hrest, hleft⟩, rfl⟩

/-! ## Runs -/

/-- A run acts on the commands from the first one on, and on all of them once everything has been
read. -/
theorem Between.run (hbrace : parseObject [closingBrace] = none)
    (hsent : ∀ m ∈ sent, Sends parseObject m.1 m.2) {calls : List Call} (h : Between sent s)
    (hwhole : s.link.EveryWhole calls) :
    ∃ s', receiveAll parseObject calls s = some s' ∧ Between sent s' := by
  induction calls generalizing s with
  | nil => exact ⟨s, rfl, h⟩
  | cons call calls ih =>
      rcases h.step hbrace hsent hwhole.1 with ⟨s', n, hcall, hbetween, hlink⟩
      rcases ih hbetween (hlink ▸ hwhole.2) with ⟨s'', hrun, hend⟩
      exact ⟨s'', by rw [receiveAll, hcall, Option.bind_some, hrun], hend⟩

/-- However the bytes of the daemon's commands arrive, as long as no call times out within a command
other than right before its closing brace: the commands that are acted on are the first ones of
those sent, each once and in order, and all of them once everything has been read. -/
theorem commands_survive (parseObject : List Char → Option JsonObject)
    (hbrace : parseObject [closingBrace] = none) (sent : List (List Char × JsonObject))
    (hsent : ∀ m ∈ sent, Sends parseObject m.1 m.2) (g : Gateway) (calls : List Call)
    (hwhole : Link.EveryWhole ⟨[], (sent.map Prod.fst).flatten⟩ calls) :
    ∃ s, receiveAll parseObject calls ⟨⟨[], (sent.map Prod.fst).flatten⟩, g, []⟩ = some s ∧
      s.acted <+: sent.map Prod.snd ∧
      (s.link.arrived ++ s.link.coming = [] → s.acted = sent.map Prod.snd) := by
  have hstart : Between sent ⟨⟨[], (sent.map Prod.fst).flatten⟩, g, []⟩ :=
    ⟨[], sent, [], rfl, rfl, Or.inl rfl, rfl⟩
  rcases hstart.run hbrace hsent hwhole with
    ⟨s, hrun, done, todo, rest, hsplit, hacted, -, hunread⟩
  refine ⟨s, hrun, ?_, fun hend => ?_⟩
  · rw [hacted, hsplit, List.map_append]
    exact List.prefix_append _ _
  · -- nothing is left, not even the text of one more command
    rw [hend] at hunread
    cases todo with
    | nil => rw [hacted, hsplit, List.append_nil]
    | cons m todo =>
        rcases (hsent m (by simp [hsplit])).closed with ⟨body, htext, -⟩
        rw [List.map_cons, List.flatten_cons, htext] at hunread
        have hlength := congrArg List.length hunread
        simp at hlength

/-! ## The commands of the daemon -/

def members (root : ArduinoJson.JsonObject) : JsonObject :=
  { action := ArduinoJson.getText root "action".toList
    cmd := ArduinoJson.getText root "cmd".toList
    val := ArduinoJson.getText root "val".toList
    gaddr := (ArduinoJson.getLong root "gaddr".toList).map uint
    uaddr := (ArduinoJson.getLong root "uaddr".toList).map uint }

def parseCommand (line : List Char) : Option JsonObject :=
  (ArduinoJson.parseObject line).map members

structure Command where
  action : List Char
  cmd : List Char
  gaddr : List Char
  uaddr : List Char
  val : List Char
  deriving DecidableEq, Repr

def Command.pairs (c : Command) : List (List Char × List Char) :=
  [("action".toList, c.action), ("cmd".toList, c.cmd), ("gaddr".toList, c.gaddr),
    ("uaddr".toList, c.uaddr), ("val".toList, c.val)]

def Command.text (c : Command) : List Char := ArduinoJson.objectText c.pairs

def Command.root (c : Command) : JsonObject := members (c.pairs.map ArduinoJson.stored)

/-- The texts need no escapes and have no closing brace. -/
def Command.Writable (c : Command) : Prop :=
  ∀ pair ∈ c.pairs, (ArduinoJson.Plain pair.1 ∧ ArduinoJson.Plain pair.2) ∧
    closingBrace ∉ pair.1 ∧ closingBrace ∉ pair.2

instance (c : Command) : Decidable c.Writable := List.decidableBAll _ c.pairs

/-- The text of a command is that of the command. -/
theorem Command.Writable.sends {c : Command} (h : c.Writable) :
    Sends parseCommand c.text c.root where
  parsed := by
    have hkeys : (c.pairs.map Prod.fst).Nodup := by
      change ["action".toList, "cmd".toList, "gaddr".toList, "uaddr".toList, "val".toList].Nodup
      decide
    rw [parseCommand, Command.text,
      ArduinoJson.parseObject_objectText (fun pair hpair => (h pair hpair).1) hkeys]
    rfl
  closed := by
    -- no other brace than the last one closes
    refine ⟨'\x7b' :: ArduinoJson.pairsBody c.pairs, rfl, fun hmem => ?_⟩
    rcases List.mem_cons.1 hmem with hmem | hmem
    · exact absurd hmem (by decide)
    · rcases ArduinoJson.mem_pairsBody hmem with hmem | ⟨pair, hpair, hmem | hmem⟩
      · exact absurd hmem (by decide)
      · exact (h pair hpair).2.1 hmem
      · exact (h pair hpair).2.2 hmem
  action := rfl
  cmd := rfl
  val := rfl
  gaddr := rfl
  uaddr := rfl

/-- Switching a device on, and off. -/
def switchOn : Command :=
  { action := "gui".toList, cmd := "kaku".toList, gaddr := "1234567".toList, uaddr := "3".toList,
    val := "on".toList }

def switchOff : Command := { switchOn with val := "off".toList }

/-- The first command arrives in three pieces, the second of which ends right before the brace. -/
theorem commands_survive_example :
    ∃ s, receiveAll parseCommand
        [⟨true, 20, 49⟩, ⟨true, 1, 0⟩, ⟨false, 30, 0⟩, ⟨true, 0, 41⟩]
        ⟨⟨[], switchOn.text ++ switchOff.text⟩, idle, []⟩ = some s ∧
      s.acted <+: [switchOn.root, switchOff.root] := by
  have hwritable : switchOn.Writable ∧ switchOff.Writable := by decide
  have h := commands_survive parseCommand (by decide)
    [(switchOn.text, switchOn.root), (switchOff.text, switchOff.root)]
    (by
      intro m hm
      rcases List.mem_cons.1 hm with rfl | hm
      · exact hwritable.1.sends
      · rw [List.mem_singleton.1 hm]
        exact hwritable.2.sends)
    idle [⟨true, 20, 49⟩, ⟨true, 1, 0⟩, ⟨false, 30, 0⟩, ⟨true, 0, 41⟩] (by decide)
  rcases h with ⟨s, hrun, hprefix, -⟩
  exact ⟨s, hrun, hprefix⟩

/-- A command that arrives in two pieces, the first of which ends within a text: neither is an
object. -/
theorem command_lost :
    Sends parseCommand switchOn.text switchOn.root ∧
      (receiveAll parseCommand [⟨true, 12, 0⟩, ⟨true, 100, 0⟩]
        ⟨⟨[], switchOn.text⟩, idle, []⟩).map (fun s => (s.link, s.acted)) =
          some (⟨[], []⟩, []) := by
  have hwritable : switchOn.Writable := by decide
  exact ⟨hwritable.sends, by decide +kernel⟩

end EspGateway
end LamPI
