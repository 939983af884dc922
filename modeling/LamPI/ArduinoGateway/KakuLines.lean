import LamPI.ArduinoGateway.Command

/-!
# Kaku lines

`parseKaku` reads the address by `atoi` into an `int`, which is extended by its sign to the
`unsigned long` of the transmitter.  Of an address in decimal that leaves the low 15 bits as they
are and makes copies of bit 15 of all others.
-/

namespace LamPI
namespace ArduinoGateway

open PulseLine Tokens BigEndian

/-! ## The lines -/

inductive KakuValue where
  | on
  | off
  | level (n : Fin 16)
  deriving DecidableEq, Repr

def KakuValue.text : KakuValue → String
  | .on => "on"
  | .off => "off"
  | .level n => toString n.val

/-- What the value is a command for; 0 is off for a switch and for a dimmer. -/
def KakuValue.command (unit : Fin 16) : KakuValue → Kaku.Command
  | .on => .unit unit true
  | .off => .unit unit false
  | .level n => if n.val = 0 then .unit unit false else .dim unit n

/-- `> n 1 0 address unit value` -/
def kakuLine (n address : ℕ) (unit : Fin 16) (value : KakuValue) : String :=
  "> " ++ toString n ++ " 1 0 " ++ toString address ++ " " ++ toString unit.val ++ " " ++ value.text

def Transmits (sent : List Action) (y : Kaku.Telegram) : Prop :=
  ∃ n, 0 < n ∧ sent = train (List.replicate n (Kaku.pulses 260 y)).flatten

/-! ## Reading the line -/

variable {g : Gateway} {hidden readLine : List Char} {n address : ℕ} {unit : Fin 16}
  {value : KakuValue}

/-- The arguments of a codec are the last three words. -/
theorem run_withArguments (send : List Char → List Char → List Char → Gateway → Gateway)
    {s : List Char × Gateway} {group unit level : List Char}
    (h : tokens delimiter s.1 = [group, unit, level]) :
    ∃ rest, withArguments send s = some ((), rest, send group unit level s.2) := by
  obtain ⟨rest₁, h₁, hrun₁⟩ := next_bind_of_tokens
    (k := fun group => nextToken >>= fun unit => nextToken >>= fun level =>
      update (send group unit level)) h
  obtain ⟨rest₂, h₂, hrun₂⟩ := next_bind_of_tokens (s := (rest₁, s.2))
    (k := fun unit => nextToken >>= fun level => update (send group unit level)) h₁
  obtain ⟨rest₃, -, hrun₃⟩ := next_bind_of_tokens (s := (rest₂, s.2))
    (k := fun level => update (send group unit level)) h₂
  exact ⟨rest₃, hrun₁.trans (hrun₂.trans hrun₃)⟩

/-- No number begins like `on` and `off`. -/
theorem head_toDigits_ne (n : ℕ) : (Nat.toDigits 10 n)[0]? ≠ some 'o' := by
  intro h
  have hdigit := Nat.isDigit_of_mem_toDigits (b := 10) (by decide) (by decide)
    (List.mem_of_getElem? h)
  exact absurd hdigit (by decide)

theorem int_fin : ∀ n : Fin 16, int (n.val : ℤ) = n := by decide

theorem byte_fin : ∀ n : Fin 16, byte (n.val : ℤ) = n := by decide

/-- `parseKaku` sends the command of its value, to the address that is left of the word. -/
theorem run_parseKaku {s : List Char × Gateway}
    (h : tokens delimiter s.1 =
      [Nat.toDigits 10 address, Nat.toDigits 10 unit.val, value.text.toList]) :
    ∃ rest g', parseKaku s = some ((), rest, g') ∧ g'.sent = s.2.sent ++
      (value.command unit).send .avr (Kaku.Transmitter.new 260 3) (ulong (int address)) := by
  rcases run_withArguments _ h with ⟨rest, hrun⟩
  refine ⟨rest, _, hrun, ?_⟩
  simp only [atoi_toDigits, int_fin, byte_fin]
  cases value with
  | on => rfl
  | off => rfl
  -- a number is no `on` and no `off`, so its value decides
  | level n =>
      have hhead : (KakuValue.level n).text.toList[0]? ≠ some 'o' := by
        rw [KakuValue.text, Nat.toString_eq_repr, Nat.toList_repr]
        exact head_toDigits_ne n
      rw [if_neg hhead]
      simp only [KakuValue.text, Nat.toString_eq_repr, Nat.toList_repr, atoi_toDigits, int_fin,
        byte_fin, KakuValue.command]
      by_cases hzero : n.val = 0
      · rw [hzero]
        rfl
      · have hne : (n.val : ℤ) ≠ 0 := by omega
        have hrange : 1 ≤ (n.val : ℤ) ∧ (n.val : ℤ) ≤ 15 := by omega
        rw [if_neg hne, if_pos hrange, if_neg hzero]
        rfl

/-- A line with the words of a Kaku command is handed to `parseKaku`, whatever text `strtok` has
been reading before. -/
theorem run_parseCmd (g : Gateway) (hidden : List Char)
    (hhead : readLine.head? = some '>') (hlen : 3 < readLine.length)
    {cnt cmd codec group unit level : List Char}
    (hwords : words readLine = [cnt, cmd, codec, group, unit, level])
    (hcnt : int (atoi cnt) ≠ 0) (hcmd : byte (atoi cmd) = 1) (hcodec : byte (atoi codec) = KAKU) :
    ∃ rest, tokens delimiter rest = [group, unit, level] ∧
      ∀ s', parseKaku (rest, g.println (String.ofList readLine)) = some ((), s') →
        parseCmd readLine (hidden, g) = some ((), s'.1, s'.2.count.count) := by
  have hstart : parseCmd readLine (hidden, g) = (nextToken >>= fun cnt => nextToken >>= fun cmd =>
      if int (atoi cnt) ≠ 0 then command (byte (atoi cmd)) else update Gateway.count)
        (readLine.tail, g.println (String.ofList readLine)) := by
    unfold parseCmd
    rw [if_neg (by simp [hhead])]
    simp only [if_neg (Nat.not_le.2 hlen)]
    rfl
  -- the number of the line, the command and the codec are read by `parseCmd`
  rcases next_bind_of_tokens (k := fun cnt => nextToken >>= fun cmd =>
      if int (atoi cnt) ≠ 0 then command (byte (atoi cmd)) else update Gateway.count)
    (s := (readLine.tail, g.println (String.ofList readLine))) hwords with ⟨rest₁, h₁, hrun₁⟩
  rcases next_bind_of_tokens (k := fun cmd =>
      if int (atoi cnt) ≠ 0 then command (byte (atoi cmd)) else update Gateway.count)
    (s := (rest₁, g.println (String.ofList readLine))) h₁ with ⟨rest₂, h₂, hrun₂⟩
  rcases next_bind_of_tokens (k := fun codec => transmit (byte (atoi codec)))
    (s := (rest₂, g.println (String.ofList readLine))) h₂ with ⟨rest₃, h₃, hrun₃⟩
  refine ⟨rest₃, h₃, fun s' hs' => ?_⟩
  rw [hstart]
  refine hrun₁.trans (hrun₂.trans ?_)
  rw [if_pos hcnt, hcmd]
  refine hrun₃.trans ?_
  -- codec 0 is `KAKU`, and the message counts twice
  rw [hcodec]
  unfold transmit
  rw [if_pos rfl]
  simp only [bind, StateT.bind, hs', update]
  rfl

/-! ## The words of the line -/

theorem digits_no_delimiter {c : Char} {k : ℕ} (hc : c ∈ Nat.toDigits 10 k) :
    delimiter c = false := by
  have hdigit := Nat.isDigit_of_mem_toDigits (b := 10) (by decide) (by decide) hc
  cases hdelimiter : delimiter c with
  | false => rfl
  | true =>
      simp only [delimiter, Bool.or_eq_true, decide_eq_true_eq] at hdelimiter
      rcases hdelimiter with (rfl | rfl) | rfl
      · exact absurd hdigit (by decide)
      · exact absurd hdigit (by decide)
      · exact absurd hdigit (by decide)

theorem word_toDigits (k : ℕ) :
    Nat.toDigits 10 k ≠ [] ∧ ∀ c ∈ Nat.toDigits 10 k, delimiter c = false :=
  ⟨Nat.toDigits_ne_nil, fun _ hc => digits_no_delimiter hc⟩

theorem word_text (value : KakuValue) :
    value.text.toList ≠ [] ∧ ∀ c ∈ value.text.toList, delimiter c = false := by
  cases value with
  | on => simp [KakuValue.text, delimiter]
  | off => simp [KakuValue.text, delimiter]
  | level k =>
      rw [KakuValue.text, Nat.toString_eq_repr, Nat.toList_repr]
      exact word_toDigits k

/-- The line is a `>` and six words, each behind a blank. -/
theorem toList_kakuLine : (kakuLine n address unit value).toList =
    '>' :: [Nat.toDigits 10 n, ['1'], ['0'], Nat.toDigits 10 address, Nat.toDigits 10 unit.val,
      value.text.toList].flatMap fun word => ' ' :: word := by
  simp [kakuLine]

theorem words_kakuLine : words (kakuLine n address unit value).toList =
    [Nat.toDigits 10 n, ['1'], ['0'], Nat.toDigits 10 address, Nat.toDigits 10 unit.val,
      value.text.toList] := by
  rw [words, toList_kakuLine, List.tail_cons]
  refine tokens_words (by decide) fun word hword => ?_
  simp only [List.mem_cons, List.not_mem_nil, or_false] at hword
  rcases hword with rfl | rfl | rfl | rfl | rfl | rfl
  · exact word_toDigits n
  · exact ⟨List.cons_ne_nil _ _, List.forall_mem_singleton.2 rfl⟩
  · exact ⟨List.cons_ne_nil _ _, List.forall_mem_singleton.2 rfl⟩
  · exact word_toDigits address
  · exact word_toDigits unit.val
  · exact word_text value

/-- What the gateway sends for the line is sent to the address as `parseKaku` has read it. -/
theorem parseCmd_kakuLine (hn : 1 ≤ n) (hn' : n ≤ 255) :
    ∃ s, parseCmd (kakuLine n address unit value).toList (hidden, g) = some ((), s) ∧
      s.2.sent = g.sent ++
        (value.command unit).send .avr (Kaku.Transmitter.new 260 3) (ulong (int address)) := by
  have hhead : (kakuLine n address unit value).toList.head? = some '>' := by
    rw [toList_kakuLine]
    rfl
  have hlen : 3 < (kakuLine n address unit value).toList.length := by
    rw [toList_kakuLine]
    simp
    omega
  have hcnt : int (atoi (Nat.toDigits 10 n)) ≠ 0 := by
    rw [atoi_toDigits, int, Int.bmod_eq_of_le (by omega) (by omega)]
    omega
  rcases run_parseCmd g hidden hhead hlen words_kakuLine hcnt (by decide)
    (by decide) with ⟨rest, htokens, hrun⟩
  rcases run_parseKaku (s := (rest, g.println _)) htokens with ⟨rest', g', hkaku, hsent⟩
  exact ⟨_, hrun _ hkaku, hsent⟩

/-! ## The address on the air -/

/-- The low 26 bits of an address are still there after it has been extended from 16 bits, exactly
if those above the lowest 15 are all alike. -/
theorem ulong_int_iff {a : ℕ} (ha : a < 2 ^ 26) :
    ulong (int a) % 2 ^ 26 = a ↔ a < 32768 ∨ 2 ^ 26 - 32768 ≤ a := by
  simp only [ulong, int, Int.bmod]
  split <;> omega

/-- The transmitter, given the address as it has been read, sends frames of the command. -/
theorem transmits_send_iff (cmd : Kaku.Command) {a : ℕ} (ha : a < 2 ^ 26) :
    Transmits (cmd.send .avr (Kaku.Transmitter.new 260 3) (ulong (int a))) (cmd.telegram a) ↔
      a < 32768 ∨ 2 ^ 26 - 32768 ≤ a := by
  rw [Kaku.send_eq .avr (by decide) (by decide), ← ulong_int_iff ha]
  constructor
  · rintro ⟨m, hm, hframes⟩
    -- the pulses say which address was sent
    have hsame := Kaku.address_of_frames (by decide) (by decide) hm hframes
    have hvalue := congrArg Fin.val hsame
    rw [Kaku.address_telegram, Kaku.address_telegram, Nat.mod_eq_of_lt ha] at hvalue
    exact hvalue
  · intro hread
    have htelegram : cmd.telegram (ulong (int a)) = cmd.telegram a :=
      Kaku.telegram_congr (by rw [hread, Nat.mod_eq_of_lt ha]) cmd
    rw [htelegram]
    exact ⟨2 ^ 3, by decide, rfl⟩

/-- The line transmits the command to its address exactly if the address is below 32768 or among
the last 32768 of the 26 bits. -/
theorem kakuLine_transmits_iff (g : Gateway) (hidden : List Char) (n address : ℕ) (unit : Fin 16)
    (value : KakuValue) (hn : 1 ≤ n) (hn' : n ≤ 255) (haddress : address < 2 ^ 26) :
    ∃ s actions, parseCmd (kakuLine n address unit value).toList (hidden, g) = some ((), s) ∧
      s.2.sent = g.sent ++ actions ∧
      (Transmits actions ((value.command unit).telegram address) ↔
        address < 32768 ∨ 2 ^ 26 - 32768 ≤ address) := by
  rcases parseCmd_kakuLine hn hn' with ⟨s, hrun, hsent⟩
  exact ⟨s, _, hrun, hsent, transmits_send_iff (value.command unit) haddress⟩

/-- `> 1 1 0 12345 3 on` -/
theorem kakuLine_transmits_on :
    ∃ s actions, parseCmd (kakuLine 1 12345 3 .on).toList ([], ⟨0, 0, 0, [], []⟩) = some ((), s) ∧
      s.2.sent = [] ++ actions ∧
      (Transmits actions ((KakuValue.on.command 3).telegram 12345) ↔
        12345 < 32768 ∨ 2 ^ 26 - 32768 ≤ 12345) :=
  kakuLine_transmits_iff ⟨0, 0, 0, [], []⟩ [] 1 12345 3 .on (by decide) (by decide) (by decide)

/-- The line `> 1 1 0 32768 0 on` transmits another address. -/
theorem not_kakuLine_transmits :
    ¬∀ (g : Gateway) (hidden : List Char) (n address : ℕ) (unit : Fin 16) (value : KakuValue),
      1 ≤ n → n ≤ 255 → address < 2 ^ 26 →
      ∃ s actions, parseCmd (kakuLine n address unit value).toList (hidden, g) = some ((), s) ∧
        s.2.sent = g.sent ++ actions ∧
        Transmits actions ((value.command unit).telegram address) := by
  intro h
  rcases h ⟨0, 0, 0, [], []⟩ [] 1 32768 0 .on (by decide) (by decide) (by decide) with
    ⟨s, actions, hrun, hsent, htransmits⟩
  obtain ⟨s', hrun', hsent'⟩ : ∃ s', parseCmd (kakuLine 1 32768 0 .on).toList
      ([], ⟨0, 0, 0, [], []⟩) = some ((), s') ∧ s'.2.sent = [] ++
        (KakuValue.on.command 0).send .avr (Kaku.Transmitter.new 260 3) (ulong (int 32768)) :=
    parseCmd_kakuLine (by decide) (by decide)
  rw [hrun] at hrun'
  injection hrun' with hsame
  injection hsame with _ hsame
  rw [← hsame, hsent] at hsent'
  rw [List.append_cancel_left hsent'] at htransmits
  rcases (transmits_send_iff (KakuValue.on.command 0) (by decide)).1 htransmits with hlow | hhigh
  · exact absurd hlow (by decide)
  · exact absurd hhigh (by decide)

end ArduinoGateway
end LamPI
