import LamPI.ArduinoGateway.Command
import Mathlib.Data.Nat.ModEq

/-!
# What a command does — `parseCmd` of `ArduinoGateway.ino`

Of the gateway a command reads its settings and the message counter, which it prints.  What it
transmits and how it changes the settings depends on the words of its line only.
-/

namespace LamPI
namespace ArduinoGateway

open PulseLine Tokens

/-! ## Lines that are carried out -/

/-- A line that `parseCmd` takes for a command. -/
def IsCommand (line : List Char) : Prop := line.head? = some '>' ∧ 3 < line.length

instance (line : List Char) : Decidable (IsCommand line) :=
  inferInstanceAs (Decidable (_ ∧ _))

/-- The line is rejected at once, or has all the words that its command uses. -/
def Accepted (line : List Char) : Prop := IsCommand line → Enough (words line)

instance (line : List Char) : Decidable (Accepted line) :=
  inferInstanceAs (Decidable (_ → _))

/-- The part of `parseCmd` behind the checks. -/
def parseWords : Parse Unit := do
  let cnt ← nextToken
  let cmd ← nextToken
  if int (atoi cnt) ≠ 0 then command (byte (atoi cmd)) else update Gateway.count

variable {g : Gateway} {hidden line : List Char}

theorem parseCmd_command (h : IsCommand line) (hidden : List Char) (g : Gateway) :
    parseCmd line (hidden, g) = parseWords (line.tail, g.println (String.ofList line)) := by
  unfold parseCmd
  rw [if_neg (by simp [h.1])]
  simp only [if_neg (Nat.not_le.2 h.2)]
  rfl

/-- What a line that is rejected prints is all that it does. -/
theorem parseCmd_not_command (h : ¬IsCommand line) (hidden : List Char) (g : Gateway) :
    ∃ texts, parseCmd line (hidden, g) =
      some ((), hidden, { g with serial := g.serial ++ texts }) := by
  unfold parseCmd
  by_cases hhead : line.head? ≠ some '>'
  · rw [if_pos hhead]
    exact ⟨["! ERR: cmd \">\" ", "\r\n"], by simp [update, Gateway.println, Gateway.print]⟩
  · have hlen : line.length ≤ 3 := by
      by_contra hlong
      exact h ⟨not_not.1 hhead, Nat.lt_of_not_le hlong⟩
    rw [if_neg hhead]
    simp only [if_pos hlen]
    refine ⟨[String.ofList line, "\r\n", "! ERR: syntax", "\r\n"], ?_⟩
    simp [update, Gateway.println, Gateway.print, bind, StateT.bind]

/-- Whether a line is read to its end does not depend on the gateway. -/
theorem parseCmd_isSome_iff (line hidden : List Char) (g : Gateway) :
    (parseCmd line (hidden, g)).isSome ↔ Accepted line := by
  by_cases h : IsCommand line
  · rw [parseCmd_command h, ← parseCmd_command h []]
    exact (runs_parseCmd g h.1 h.2).trans ⟨fun henough _ => henough, fun hacc => hacc h⟩
  · rcases parseCmd_not_command h hidden g with ⟨texts, hrun⟩
    rw [hrun]
    exact iff_of_true rfl fun hcommand => absurd hcommand h

/-! ## What is transmitted, and what is counted -/

/-- The program transmits and counts what its tokens say, whatever the gateway. -/
def Adds (m : Parse Unit) : Prop :=
  ∃ (actions : List (List Char) → List Action) (n : List (List Char) → ℕ),
    Does delimiter (fun ts g g' => g'.sent = g.sent ++ actions ts ∧
      g'.msgCnt ≡ g.msgCnt + n ts [MOD 65536]) m

/-- A step that transmits `actions` and counts `n` messages. -/
def Adding (actions : List Action) (n : ℕ) (f : Gateway → Gateway) : Prop :=
  ∀ g, (f g).sent = g.sent ++ actions ∧ (f g).msgCnt ≡ g.msgCnt + n [MOD 65536]

theorem adds_update {actions : List Action} {n : ℕ} {f : Gateway → Gateway}
    (h : Adding actions n f) : Adds (update f) :=
  ⟨fun _ => actions, fun _ => n, does_update fun _ => h⟩

theorem adds_next {k : List Char → Parse Unit} (hk : ∀ token, Adds (k token)) :
    Adds (nextToken >>= k) := by
  choose actions n hdoes using hk
  refine ⟨fun ts => actions (ts.headD []) ts.tail, fun ts => n (ts.headD []) ts.tail, ?_⟩
  exact does_next fun token => hdoes token

theorem adds_bind_update {m : Parse Unit} {actions : List Action} {n : ℕ} {f : Gateway → Gateway}
    (hm : Adds m) (h : Adding actions n f) : Adds (do m; update f) := by
  rcases hm with ⟨before, k, hdoes⟩
  refine ⟨fun ts => before ts ++ actions, fun ts => k ts + n, does_bind_update ?_⟩
  intro s s' hs
  rcases hdoes s s' hs with ⟨hsent, hcnt⟩
  rcases h s'.2 with ⟨hsent', hcnt'⟩
  constructor
  · rw [hsent', hsent, List.append_assoc]
  · rw [← Nat.add_assoc]
    exact hcnt'.trans (Nat.ModEq.add_right n hcnt)

/-- What is only printed. -/
theorem adding_of_eq {f : Gateway → Gateway} (hsent : ∀ g, (f g).sent = g.sent)
    (hcnt : ∀ g, (f g).msgCnt = g.msgCnt) : Adding [] 0 f := by
  intro g
  rw [hsent, hcnt, List.append_nil]
  exact ⟨rfl, Nat.ModEq.refl _⟩

theorem Adding.comp {a a' : List Action} {n n' : ℕ} {f f' : Gateway → Gateway}
    (h : Adding a n f) (h' : Adding a' n' f') : Adding (a ++ a') (n + n') (fun g => f' (f g)) := by
  intro g
  rcases h g with ⟨hsent, hcnt⟩
  rcases h' (f g) with ⟨hsent', hcnt'⟩
  constructor
  · rw [hsent', hsent, List.append_assoc]
  · rw [← Nat.add_assoc]
    exact hcnt'.trans (Nat.ModEq.add_right n' hcnt)

theorem adding_count : Adding [] 1 Gateway.count := fun g =>
  ⟨(List.append_nil _).symm, Nat.mod_modEq (g.msgCnt + 1) 65536⟩

theorem adding_print (text : String) : Adding [] 0 fun g => g.print text :=
  adding_of_eq (fun _ => rfl) fun _ => rfl

theorem adding_println (text : String) : Adding [] 0 fun g => g.println text :=
  adding_of_eq (fun _ => rfl) fun _ => rfl

theorem adding_transmit (actions : List Action) : Adding actions 0 fun g => g.transmit actions :=
  fun _ => ⟨rfl, Nat.ModEq.refl _⟩

theorem adds_withArguments {send : List Char → List Char → List Char → Gateway → Gateway}
    (h : ∀ group unit level, ∃ actions n, Adding actions n (send group unit level)) :
    Adds (withArguments send) :=
  adds_next fun group => adds_next fun unit => adds_next fun level => by
    rcases h group unit level with ⟨actions, n, hadding⟩
    exact adds_update hadding

theorem adds_parseKaku : Adds parseKaku := by
  refine adds_withArguments fun group unit pch => ?_
  have hprinted : ∀ {actions : List Action} {f : Gateway → Gateway}, Adding actions 0 f →
      ∃ actions n, Adding actions n fun g =>
        ((f g).print " ! Kaku send: ").println (String.ofList pch) := fun hadding =>
    ⟨_, _, (hadding.comp (adding_print _)).comp (adding_println _)⟩
  by_cases ho : pch[0]? = some 'o'
  · by_cases hn : pch[1]? = some 'n'
    · simp only [if_pos ho, if_pos hn]
      exact hprinted (adding_transmit _)
    · simp only [if_pos ho, if_neg hn]
      exact hprinted (adding_transmit _)
  · simp only [if_neg ho]
    split
    · exact hprinted (adding_transmit _)
    · split
      · exact hprinted (adding_transmit _)
      · exact hprinted (adding_println _)

theorem adds_parseAction : Adds parseAction := by
  refine adds_withArguments fun group unit pch => ?_
  refine ⟨Remote.ActionTransmitter.sendSignal .avr ⟨195, 3⟩ (byte (atoi group))
    (Int.bmod (byte (atoi unit)) 256) (decide (int (atoi pch) = 1)), 0, fun g => ?_⟩
  by_cases hdebug : 1 ≤ g.debug
  · simp only [if_pos hdebug]
    exact ⟨rfl, Nat.ModEq.refl _⟩
  · simp only [if_neg hdebug]
    exact ⟨rfl, Nat.ModEq.refl _⟩

theorem adds_parseLivolo : Adds parseLivolo :=
  adds_withArguments fun _ _ _ => ⟨_, 0, fun _ => ⟨rfl, Nat.ModEq.refl _⟩⟩

theorem adds_parseQuhwa : Adds parseQuhwa :=
  adds_withArguments fun _ _ _ => ⟨_, 0, fun _ => ⟨rfl, Nat.ModEq.refl _⟩⟩

theorem adds_admin (adm : ℕ) : Adds (admin adm) := by
  unfold admin
  split
  · exact adds_update fun g => ⟨(List.append_nil _).symm, Nat.mod_modEq (g.msgCnt + 1) 65536⟩
  · refine adds_next fun codec => adds_next fun val => adds_update (adding_of_eq ?_ ?_)
    · intro g
      split <;> rfl
    · intro g
      split <;> rfl
  · exact adds_update (adding_of_eq (fun _ => rfl) fun _ => rfl)
  · refine adds_next fun val => adds_update (?_ : Adding [] 1 _)
    intro g
    by_cases hval : 1 ≤ byte (atoi val)
    · simp only [if_pos hval]
      exact ⟨(List.append_nil _).symm, Nat.mod_modEq (g.msgCnt + 1) 65536⟩
    · simp only [if_neg hval]
      exact ⟨(List.append_nil _).symm, Nat.mod_modEq (g.msgCnt + 1) 65536⟩
  · exact adds_update (adding_println _)
  · exact adds_update (adding_println _)

theorem adds_transmit (codec : ℕ) : Adds (transmit codec) := by
  have hsent : ∀ {parse : Parse Unit}, Adds parse → Adds (do
      parse
      update fun g => g.count.count) := fun hparse =>
    adds_bind_update hparse (adding_count.comp adding_count)
  unfold transmit
  split
  · exact hsent adds_parseKaku
  split
  · exact hsent adds_parseAction
  split
  · exact hsent (adds_update (adding_println _))
  split
  · exact hsent adds_parseLivolo
  split
  · exact hsent adds_parseQuhwa
  · exact adds_update (adding_println _)

theorem adds_command (cmd : ℕ) : Adds (command cmd) := by
  unfold command
  split
  · exact adds_next fun adm => adds_bind_update (adds_admin _) adding_count
  · exact adds_next fun codec => adds_transmit _
  · exact adds_update ((adding_print _).comp adding_count)
  · exact adds_update (((adding_print _).comp (adding_println _)).comp adding_count)

theorem adds_parseWords : Adds parseWords := by
  refine adds_next fun cnt => adds_next fun cmd => ?_
  split
  · exact adds_command _
  · exact adds_update adding_count

def idle : Gateway := { debug := 0, codecs := 0, msgCnt := 0, serial := [], sent := [] }

def transmitted (line : List Char) : List Action :=
  match parseCmd line ([], idle) with
  | some (_, s) => s.2.sent
  | none => []

def counted (line : List Char) : ℕ :=
  match parseCmd line ([], idle) with
  | some (_, s) => s.2.msgCnt
  | none => 0

/-- A line makes every gateway transmit the same. -/
theorem parseCmd_adds {s : List Char × Gateway} (h : parseCmd line (hidden, g) = some ((), s)) :
    s.2.sent = g.sent ++ transmitted line ∧
      s.2.msgCnt ≡ g.msgCnt + counted line [MOD 65536] := by
  by_cases hcommand : IsCommand line
  · have hidle : (parseCmd line ([], idle)).isSome := by
      rw [parseCmd_isSome_iff, ← parseCmd_isSome_iff line hidden g, h]
      rfl
    rcases Option.isSome_iff_exists.1 hidle with ⟨⟨⟨⟩, r⟩, hr⟩
    rw [transmitted, counted, hr]
    rw [parseCmd_command hcommand] at h hr
    rcases adds_parseWords with ⟨actions, n, hdoes⟩
    rcases hdoes _ _ h with ⟨hsent, hcnt⟩
    rcases hdoes _ _ hr with ⟨hsent', hcnt'⟩
    simp only [Gateway.println, Gateway.print, idle, List.nil_append, Nat.zero_add] at *
    constructor
    · rw [hsent, hsent']
    · exact hcnt.trans (Nat.ModEq.add_left _ hcnt'.symm)
  · rcases parseCmd_not_command hcommand hidden g with ⟨texts, hrun⟩
    rcases parseCmd_not_command hcommand [] idle with ⟨texts', hrun'⟩
    rw [hrun] at h
    cases h
    rw [transmitted, counted, hrun']
    exact ⟨(List.append_nil _).symm, Nat.ModEq.refl _⟩

/-! ## The settings -/

inductive Setting where
  | codec (codec : ℕ) (on : Bool)
  | debug (on : Bool)
  deriving DecidableEq, Repr

def adminSetting (adm : ℕ) (more : List (List Char)) : Option Setting :=
  if adm = 1 then
    match more with
    | codec :: val :: _ => some (.codec (byte (atoi codec)) (byte (atoi val) = 1))
    | _ => none
  else if adm = 3 then
    match more with
    | val :: _ => some (.debug (1 ≤ byte (atoi val)))
    | [] => none
  else none

def commandSetting (cmd : ℕ) (more : List (List Char)) : Option Setting :=
  if cmd = 0 then
    match more with
    | adm :: more => adminSetting (byte (atoi adm)) more
    | [] => none
  else none

def wordsSetting : List (List Char) → Option Setting
  | cnt :: cmd :: more => if int (atoi cnt) ≠ 0 then commandSetting (byte (atoi cmd)) more else none
  | _ => none

def setting (line : List Char) : Option Setting :=
  if IsCommand line then wordsSetting (words line) else none

def Gateway.settings (g : Gateway) : ℕ × ULong := (g.debug, g.codecs)

@[simp] theorem settings_print (g : Gateway) (text : String) :
    (g.print text).settings = g.settings := rfl

@[simp] theorem settings_println (g : Gateway) (text : String) :
    (g.println text).settings = g.settings := rfl

@[simp] theorem settings_transmit (g : Gateway) (actions : List Action) :
    (g.transmit actions).settings = g.settings := rfl

@[simp] theorem settings_count (g : Gateway) : g.count.settings = g.settings := rfl

@[simp] theorem settings_printArguments (g : Gateway) (title group unit : String)
    (level : List Char) : (g.printArguments title group unit level).settings = g.settings := rfl

def set (s : Option Setting) (p : ℕ × ULong) : ℕ × ULong :=
  match s with
  | some (.codec c on) => (p.1, if on then p.2 ||| 1#32 <<< c else p.2 &&& ~~~(1#32 <<< c))
  | some (.debug on) => (if on then 1 else 0, p.2)
  | none => p

def Sets (f : List (List Char) → Option Setting) (m : Parse Unit) : Prop :=
  Does delimiter (fun ts g g' => g'.settings = set (f ts) g.settings) m

theorem sets_nothing {f : Gateway → Gateway} (h : ∀ g, (f g).settings = g.settings) :
    Sets (fun _ => none) (update f) := does_update fun _ => h

theorem sets_update {s : Option Setting} {f : Gateway → Gateway}
    (h : ∀ g, (f g).settings = set s g.settings) : Sets (fun _ => s) (update f) :=
  does_update fun _ => h

theorem sets_next {f : List (List Char) → Option Setting} {k : List Char → Parse Unit}
    (hk : ∀ token, Sets (fun ts => f (token :: ts)) (k token)) : Sets f (nextToken >>= k) :=
  does_next hk

theorem sets_bind_update {f : List (List Char) → Option Setting} {m : Parse Unit}
    {step : Gateway → Gateway} (hm : Sets f m) (h : ∀ g, (step g).settings = g.settings) :
    Sets f (do m; update step) := by
  refine does_bind_update fun s s' hs => ?_
  exact (h s'.2).trans (hm s s' hs)

theorem sets_withArguments {send : List Char → List Char → List Char → Gateway → Gateway}
    (h : ∀ group unit level g, (send group unit level g).settings = g.settings) :
    Sets (fun _ => none) (withArguments send) :=
  sets_next fun group => sets_next fun unit => sets_next fun level => sets_nothing (h group unit level)

theorem sets_transmit (codec : ℕ) : Sets (fun _ => none) (transmit codec) := by
  have hsent : ∀ {parse : Parse Unit}, Sets (fun _ => none) parse → Sets (fun _ => none) (do
      parse
      update fun g => g.count.count) := fun hparse => sets_bind_update hparse fun _ => rfl
  unfold transmit
  split
  · refine hsent (sets_withArguments fun group unit pch g => ?_)
    simp only [apply_ite Gateway.settings, settings_print, settings_println, settings_transmit,
      ite_self]
  split
  · refine hsent (sets_withArguments fun group unit pch g => ?_)
    simp only [apply_ite Gateway.settings, settings_print, settings_println, settings_transmit,
      ite_self]
  split
  · exact hsent (sets_nothing fun _ => rfl)
  split
  · refine hsent (sets_withArguments fun group unit level g => ?_)
    simp only [settings_transmit, settings_printArguments]
  split
  · refine hsent (sets_withArguments fun group unit level g => ?_)
    simp only [settings_transmit, settings_printArguments]
  · exact sets_nothing fun _ => rfl

theorem sets_admin (adm : ℕ) : Sets (adminSetting adm) (admin adm) := by
  unfold admin
  split
  · exact sets_nothing fun _ => rfl
  · refine sets_next fun codec => sets_next fun val => sets_update fun g => ?_
    simp only [settings_print, settings_println]
    by_cases hval : byte (atoi val) = 1 <;>
      simp [set, hval, Gateway.settings, Gateway.onCodec, Gateway.offCodec]
  · exact sets_nothing fun _ => rfl
  · refine sets_next fun val => sets_update fun g => ?_
    simp only [settings_count, settings_println, apply_ite Gateway.settings, settings_print, ite_self]
    by_cases hval : 1 ≤ byte (atoi val) <;> simp [set, hval, Gateway.settings]
  · exact sets_nothing fun _ => rfl
  · next h0 h1 h2 h3 h4 =>
    have hnone : adminSetting adm = fun _ => none := by
      unfold adminSetting
      simp only [if_neg h1, if_neg h3]
    rw [hnone]
    exact sets_nothing fun _ => rfl

theorem sets_command (cmd : ℕ) : Sets (commandSetting cmd) (command cmd) := by
  unfold command
  split
  · exact sets_next fun adm => sets_bind_update (sets_admin _) fun _ => rfl
  · exact sets_next fun codec => sets_transmit _
  · exact sets_nothing fun _ => rfl
  · next h0 h1 h2 =>
    have hnone : commandSetting cmd = fun _ => none := by
      unfold commandSetting
      simp only [if_neg h0]
    rw [hnone]
    exact sets_nothing fun _ => rfl

theorem sets_parseWords : Sets wordsSetting parseWords := by
  refine sets_next fun cnt => sets_next fun cmd => ?_
  by_cases hcnt : int (atoi cnt) ≠ 0
  · simp only [wordsSetting, if_pos hcnt]
    exact sets_command _
  · simp only [wordsSetting, if_neg hcnt]
    exact sets_nothing fun _ => rfl

/-- A line changes the settings in the way that its words say. -/
theorem parseCmd_sets {s : List Char × Gateway} (h : parseCmd line (hidden, g) = some ((), s)) :
    s.2.settings = set (setting line) g.settings := by
  by_cases hcommand : IsCommand line
  · rw [parseCmd_command hcommand] at h
    rw [setting, if_pos hcommand]
    exact sets_parseWords _ _ h
  · rcases parseCmd_not_command hcommand hidden g with ⟨texts, hrun⟩
    rw [hrun] at h
    cases h
    rw [setting, if_neg hcommand]
    rfl

end ArduinoGateway
end LamPI
