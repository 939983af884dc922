import LamPI.Kaku.Transmitter
import LamPI.Library.Tokens
import LamPI.Livolo.Transmitter
import LamPI.Quhwa.Transmitter
import LamPI.Remote.Action

/-!
# Commands on the serial line — `parseCmd` of `ArduinoGateway.ino`

`parseCmd` and the functions that it calls pull the words of a line one by one out of `strtok`, and
none of them looks whether there was one.  A run of the model ends where `atoi` gets `NULL`.
-/

namespace LamPI
namespace ArduinoGateway

open PulseLine Tokens

/-! ## The gateway -/

def KAKU : ℕ := 0

def ACTION : ℕ := 1

def BLOKKER : ℕ := 2

def LIVOLO : ℕ := 5

def QUHWA : ℕ := 7

/-- The variables of the sketch, what has been printed and what has been transmitted.  A `boolean` is
a byte. -/
structure Gateway where
  debug : ℕ
  codecs : ULong
  msgCnt : ℕ
  serial : List String
  sent : List Action

def Gateway.print (g : Gateway) (text : String) : Gateway :=
  { g with serial := g.serial ++ [text] }

def Gateway.println (g : Gateway) (text : String) : Gateway := (g.print text).print "\r\n"

def Gateway.transmit (g : Gateway) (actions : List Action) : Gateway :=
  { g with sent := g.sent ++ actions }

def Gateway.count (g : Gateway) : Gateway := { g with msgCnt := Board.avr.uint (g.msgCnt + 1) }

def Gateway.onCodec (g : Gateway) (codec : ℕ) : Gateway :=
  { g with codecs := g.codecs ||| 1#32 <<< codec }

def Gateway.offCodec (g : Gateway) (codec : ℕ) : Gateway :=
  { g with codecs := g.codecs &&& ~~~(1#32 <<< codec) }

def Gateway.binCodecs (g : Gateway) : String := String.ofList (Nat.toDigits 2 g.codecs.toNat)

/-- The value of an expression once it is a `byte`. -/
def byte (n : ℤ) : ℕ := (n % 256).toNat

/-- The value of an expression once it is an `int`. -/
def int (n : ℤ) : ℤ := Int.bmod n 65536

/-- The value of an expression once it is an `unsigned int`. -/
def uint (n : ℤ) : ℕ := (n % 65536).toNat

/-- The value of an expression once it is an `unsigned long`. -/
def ulong (n : ℤ) : ℕ := (n % 4294967296).toNat

/-! ## Reading a line -/

/-- A function of the sketch that reads the line: it fails where `atoi`, `atol` or `pch[0]` gets
`NULL`. -/
abbrev Parse := Reader Char Gateway

def delimiter (c : Char) : Bool := c = ' ' || c = ',' || c = '.'

/-- `pch = strtok(NULL, " ,.")`, and `pch` is used. -/
def nextToken : Parse (List Char) := next delimiter

/-- The functions for the codecs: three words are read, whatever the codec does with them. -/
def withArguments (send : List Char → List Char → List Char → Gateway → Gateway) : Parse Unit := do
  let group ← nextToken
  let unit ← nextToken
  let level ← nextToken
  update (send group unit level)

def parseKaku : Parse Unit := withArguments fun group unit pch g =>
  let transmitter := Kaku.Transmitter.new 260 3
  let address := ulong (int (atoi group))
  let unit := byte (int (atoi unit))
  let level := int (atoi pch)
  let g :=
    if pch[0]? = some 'o' then
      if pch[1]? = some 'n' then g.transmit (Kaku.sendUnit .avr transmitter address unit true)
      else g.transmit (Kaku.sendUnit .avr transmitter address unit false)
    else if level = 0 then g.transmit (Kaku.sendUnit .avr transmitter address unit false)
    else if 1 ≤ level ∧ level ≤ 15 then
      g.transmit (Kaku.sendDim .avr transmitter address unit (byte level))
    else g.println "! ERROR dim not between 0 and 15!"
  (g.print " ! Kaku send: ").println (String.ofList pch)

/-- `parseAction`; the constructor takes the period and the number of repeats. -/
def parseAction : Parse Unit := withArguments fun group unit pch g =>
  let group := byte (atoi group)
  let unit := byte (atoi unit)
  let lvl := decide (int (atoi pch) = 1)
  let g :=
    if 1 ≤ g.debug then
      ((((((g.print " ! Action Xmt G:").print (toString group)).print ", U:").print
        (toString unit)).print ", L:").println (if lvl then "1" else "0"))
    else g
  -- the device is a `char`
  g.transmit (Remote.ActionTransmitter.sendSignal .avr ⟨195, 3⟩ group (Int.bmod unit 256) lvl)

/-- What `parseLivolo` and `parseQuhwa` print; the level is printed as the character it is. -/
def Gateway.printArguments (g : Gateway) (title group unit : String) (level : List Char) : Gateway :=
  (((((g.print title).print group).print ", U: ").print unit).print ", L: ").println
    (Char.ofNat (byte (atoi level))).toString

def parseLivolo : Parse Unit := withArguments fun group unit level g =>
  let group := int (atoi group)
  let unit := int (atoi unit)
  (g.printArguments "! Livolo:: G: " (toString group) (toString unit) level).transmit
    (Livolo.sendButton (uint group) (byte unit))

def parseQuhwa : Parse Unit := withArguments fun group unit level g =>
  let group := ulong (atoi group)
  let unit := uint (atoi unit)
  (g.printArguments "! Quhwa:: G: " (toString group) (toString unit) level).transmit
    (Quhwa.sendButton group (byte unit))

/-- Case 0 of `parseCmd`. -/
def admin (adm : ℕ) : Parse Unit :=
  match adm with
  | 0 => update fun g => ((((g.print "< ").print (toString g.msgCnt)).print " 0 0 ").println
      g.binCodecs).count
  | 1 => do
      let codec ← nextToken
      let val ← nextToken
      update fun g =>
        let g := if byte (atoi val) = 1 then g.onCodec (byte (atoi codec))
          else g.offCodec (byte (atoi codec))
        (g.print "! set Cod = ").println g.binCodecs
  | 2 => update fun g => (g.print "! Stat = ").println ""
  | 3 => do
      let val ← nextToken
      update fun g =>
        let g := { g with debug := if 1 ≤ byte (atoi val) then 1 else 0 }
        let g := (((g.print "< ").print (toString g.msgCnt)).print " 0 3 ").print (toString g.debug)
        ((if g.debug ≠ 0 then g.print " ! Debug ON" else g).println "").count
  | 4 => update fun g => g.println " ! V. 1.7.4, 151104"
  | _ => update fun g => g.println "! ERR admin cmd"

/-- Case 1 of `parseCmd`; a codec that is not known ends `parseCmd` before `msgCnt` is counted. -/
def transmit (codec : ℕ) : Parse Unit :=
  let sent (parse : Parse Unit) : Parse Unit := do
    parse
    update fun g => g.count.count
  if codec = KAKU then sent parseKaku
  else if codec = ACTION then sent parseAction
  else if codec = BLOKKER then sent (update fun g => g.println "! ERR: Blokker")
  else if codec = LIVOLO then sent parseLivolo
  else if codec = QUHWA then sent parseQuhwa
  else update fun g => g.println "! ERR: Codec"

/-- The `switch` of `parseCmd`, and the last `msgCnt++`. -/
def command (cmd : ℕ) : Parse Unit :=
  match cmd with
  | 0 => do
      let adm ← nextToken
      admin (byte (atoi adm))
      update Gateway.count
  | 1 => do
      let codec ← nextToken
      transmit (byte (atoi codec))
  | 2 => update fun g => (g.print "! cmd 2 not found ").count
  | _ => update fun g => ((g.print "! Unknown command ").println (toString cmd)).count

def parseCmd (readLine : List Char) : Parse Unit :=
  if readLine.head? ≠ some '>' then update fun g => g.println "! ERR: cmd \">\" "
  else do
    update fun g => g.println (String.ofList readLine)
    if readLine.length ≤ 3 then update fun g => g.println "! ERR: syntax"
    else
      start readLine.tail
      let cnt ← nextToken
      let cmd ← nextToken
      if int (atoi cnt) ≠ 0 then command (byte (atoi cmd))
      else update Gateway.count

/-! ## The words that a command needs -/

def adminArguments (adm : ℕ) : ℕ := if adm = 1 then 2 else if adm = 3 then 1 else 0

def codecArguments (codec : ℕ) : ℕ :=
  if codec ∈ [KAKU, ACTION, LIVOLO, QUHWA] then 3 else 0

/-- There are enough words behind the command: it is one that needs none, or the words start with a
subcommand and what that needs. -/
def Arguments (cmd : ℕ) : List (List Char) → Prop
  | [] => cmd ≠ 0 ∧ cmd ≠ 1
  | sub :: more =>
      (cmd = 0 → adminArguments (byte (atoi sub)) ≤ more.length) ∧
        (cmd = 1 → codecArguments (byte (atoi sub)) ≤ more.length)

instance (cmd : ℕ) (more : List (List Char)) : Decidable (Arguments cmd more) := by
  unfold Arguments
  split <;> infer_instance

/-- The words of a line are enough for its command.  A line with number 0 has none. -/
def Enough : List (List Char) → Prop
  | cnt :: cmd :: more => int (atoi cnt) ≠ 0 → Arguments (byte (atoi cmd)) more
  | _ => False

instance (words : List (List Char)) : Decidable (Enough words) := by
  unfold Enough
  split <;> infer_instance

theorem needs_withArguments (send : List Char → List Char → List Char → Gateway → Gateway) :
    Needs delimiter 3 (withArguments send) :=
  needs_next fun group => needs_next fun unit => needs_next fun level =>
    needs_update (send group unit level)

theorem needs_admin (adm : ℕ) : Needs delimiter (adminArguments adm) (admin adm) := by
  unfold admin
  split
  · exact needs_update _
  · exact needs_next fun codec => needs_next fun val => needs_update _
  · exact needs_update _
  · exact needs_next fun val => needs_update _
  · exact needs_update _
  · next h0 h1 h2 h3 h4 =>
    rw [adminArguments, if_neg h1, if_neg h3]
    exact needs_update _

theorem needs_transmit (codec : ℕ) : Needs delimiter (codecArguments codec) (transmit codec) := by
  -- four of the codecs read a group, a unit and a level
  have hthree : ∀ send, Needs delimiter 3 (do
      withArguments send
      update fun g => g.count.count) := fun send => reads_bind_update (needs_withArguments send) _
  unfold transmit
  by_cases hkaku : codec = KAKU
  · subst hkaku
    exact hthree _
  by_cases haction : codec = ACTION
  · subst haction
    exact hthree _
  by_cases hblokker : codec = BLOKKER
  · subst hblokker
    exact reads_bind_update (needs_update _) _
  by_cases hlivolo : codec = LIVOLO
  · subst hlivolo
    exact hthree _
  by_cases hquhwa : codec = QUHWA
  · subst hquhwa
    exact hthree _
  -- an unknown codec is reported and reads no more words
  · have hnone : codecArguments codec = 0 := by
      simp [codecArguments, hkaku, haction, hlivolo, hquhwa]
    simp only [hnone, if_neg hkaku, if_neg haction, if_neg hblokker, if_neg hlivolo, if_neg hquhwa]
    exact needs_update _

theorem reads_command (cmd : ℕ) : Reads delimiter (Arguments cmd) (command cmd) := by
  intro s
  unfold command
  split
  -- command 0: the subcommand decides how many words follow it
  · have hadmin := fun adm : List Char =>
      reads_bind_update (needs_admin (byte (atoi adm))) Gateway.count
    refine (reads_next hadmin s).trans ?_
    cases tokens delimiter s.1 <;> simp [Arguments]
  -- command 1: the codec does
  · have htransmit := fun codec : List Char => needs_transmit (byte (atoi codec))
    refine (reads_next htransmit s).trans ?_
    cases tokens delimiter s.1 <;> simp [Arguments]
  · refine ((needs_update _ : Needs delimiter 0 _) s).trans (iff_of_true (Nat.zero_le _) ?_)
    cases tokens delimiter s.1 <;> simp [Arguments]
  · next h0 h1 h2 =>
    refine ((needs_update _ : Needs delimiter 0 _) s).trans (iff_of_true (Nat.zero_le _) ?_)
    cases tokens delimiter s.1 with
    | nil => exact ⟨h0, h1⟩
    | cons sub more => exact ⟨fun hcmd => absurd hcmd h0, fun hcmd => absurd hcmd h1⟩

/-! ## Lines -/

def words (readLine : List Char) : List (List Char) := tokens delimiter readLine.tail

/-- No string is used that is not there, and a line whose words are not enough transmits nothing. -/
def Safe (g : Gateway) (readLine : List Char) : Prop :=
  ∃ s, parseCmd readLine ([], g) = some ((), s) ∧ (¬Enough (words readLine) → s.2.sent = g.sent)

/-- A line that is rejected at once. -/
theorem parseCmd_rejected (g : Gateway) {readLine : List Char}
    (h : readLine.head? ≠ some '>' ∨ readLine.length ≤ 3) :
    ∃ s, parseCmd readLine ([], g) = some ((), s) ∧ s.2.sent = g.sent := by
  unfold parseCmd
  by_cases hhead : readLine.head? ≠ some '>'
  · rw [if_pos hhead]
    exact ⟨_, rfl, rfl⟩
  · rw [if_neg hhead]
    have hlen : readLine.length ≤ 3 := h.resolve_left hhead
    simp only [if_pos hlen]
    exact ⟨_, rfl, rfl⟩

/-- Any other line is read to the end exactly if its words are enough. -/
theorem runs_parseCmd (g : Gateway) {readLine : List Char} (hhead : readLine.head? = some '>')
    (hlen : 3 < readLine.length) :
    Runs (parseCmd readLine) ([], g) ↔ Enough (words readLine) := by
  -- the number of the line, then the command
  have hcommand : ∀ cnt cmd : List Char,
      Reads delimiter (fun ts => int (atoi cnt) ≠ 0 → Arguments (byte (atoi cmd)) ts)
        (if int (atoi cnt) ≠ 0 then command (byte (atoi cmd)) else update Gateway.count) := by
    intro cnt cmd s
    by_cases hcnt : int (atoi cnt) ≠ 0
    · rw [if_pos hcnt]
      exact (reads_command _ s).trans ⟨fun h _ => h, fun h => h hcnt⟩
    · rw [if_neg hcnt]
      simp [hcnt, Runs, update]
  have hwords := reads_next fun cnt => reads_next (hcommand cnt)
  have hstart : parseCmd readLine ([], g) = (do
      let cnt ← nextToken
      let cmd ← nextToken
      if int (atoi cnt) ≠ 0 then command (byte (atoi cmd)) else update Gateway.count)
        (readLine.tail, g.println (String.ofList readLine)) := by
    unfold parseCmd
    rw [if_neg (by simp [hhead])]
    simp only [if_neg (Nat.not_le.2 hlen)]
    rfl
  unfold Runs
  rw [hstart]
  refine (hwords _).trans ?_
  unfold words
  rcases tokens delimiter readLine.tail with _ | ⟨cnt, _ | ⟨cmd, more⟩⟩
  · simp [Enough]
  · simp [Enough]
  · simp [Enough]

theorem Safe.enough {g : Gateway} {readLine : List Char} (h : Safe g readLine)
    (hhead : readLine.head? = some '>') (hlen : 3 < readLine.length) :
    Enough (words readLine) := by
  rcases h with ⟨s, hs, -⟩
  have hruns : Runs (parseCmd readLine) ([], g) := by
    unfold Runs
    rw [hs]
    rfl
  exact (runs_parseCmd g hhead hlen).1 hruns

/-- `parseCmd` is safe exactly for the lines that it rejects at once and for those that have all the
words of their command. -/
theorem parseCmd_safe_iff (g : Gateway) (readLine : List Char) :
    Safe g readLine ↔
      readLine.head? ≠ some '>' ∨ readLine.length ≤ 3 ∨ Enough (words readLine) := by
  by_cases hrejected : readLine.head? ≠ some '>' ∨ readLine.length ≤ 3
  · rcases parseCmd_rejected g hrejected with ⟨s, hs, hsent⟩
    constructor
    · intro _
      exact hrejected.imp_right Or.inl
    · intro _
      exact ⟨s, hs, fun _ => hsent⟩
  · have hhead : readLine.head? = some '>' := by
      by_contra hhead
      exact hrejected (Or.inl hhead)
    have hlen : 3 < readLine.length :=
      Nat.lt_of_not_le fun hshort => hrejected (Or.inr hshort)
    constructor
    · intro hsafe
      exact Or.inr (Or.inr (hsafe.enough hhead hlen))
    · intro h
      -- with all its words there is nothing to show about the transmissions
      have henough : Enough (words readLine) :=
        (h.resolve_left fun hne => hne hhead).resolve_left (Nat.not_le.2 hlen)
      rcases Option.isSome_iff_exists.1 ((runs_parseCmd g hhead hlen).2 henough) with ⟨⟨_, s⟩, hs⟩
      exact ⟨s, hs, fun hmissing => absurd henough hmissing⟩

/-- The line `>1 1` asks for a transmission and does not name a codec. -/
theorem parseCmd_missing_codec :
    ¬Safe { debug := 1, codecs := 0, msgCnt := 0, serial := [], sent := [] } ">1 1".toList := by
  intro hsafe
  have henough : Enough (words ">1 1".toList) := hsafe.enough rfl (by decide)
  revert henough
  decide

end ArduinoGateway
end LamPI
