import LamPI.ArduinoGateway.Signals

/-!
# From one gateway to another

A line on the serial port of a gateway makes it transmit, and a second gateway that hears this prints
lines of its own.  For the orders that fit the protocols, these say what the first line has asked for.
-/

namespace LamPI
namespace ArduinoGateway

open PulseLine Tokens

/-! ## Orders -/

/-- What a line can ask of the transmitters; the level of the last two is not sent. -/
inductive Order where
  | kaku (address : Fin (2 ^ 15)) (unit : Fin 16) (value : KakuValue)
  | action (group : Fin 32) (unit : Fin 5) (on : Bool)
  | livolo (group : Fin (2 ^ 16)) (unit : Fin (2 ^ 7)) (level : ℕ)
  | quhwa (group : Fin (2 ^ 27)) (unit : Fin (2 ^ 8)) (level : ℕ)

def Order.signal : Order → Signal
  | .kaku address unit value => .kaku (address.castLE (by decide)) unit value
  | .action group unit on => .action group unit on
  | .livolo group unit _ => .livolo group unit
  | .quhwa group unit _ => .quhwa group unit

def Order.level : Order → String
  | .kaku _ _ value => value.text
  | .action _ _ on => if on then "1" else "0"
  | .livolo _ _ level => toString level
  | .quhwa _ _ level => toString level

/-- `> n 1 codec group unit level` -/
def Order.line (n : ℕ) (o : Order) : String :=
  "> " ++ toString n ++ " 1 " ++ toString o.signal.codec ++ " " ++ toString o.signal.group ++ " " ++
    toString o.signal.unit ++ " " ++ o.level

/-! ## Reading the line -/

variable {o : Order} {n : ℕ} {g : Gateway} {hidden readLine : List Char}

/-- A line with the words of a command for a codec is handed to the function for that codec, whatever
text `strtok` has been reading before. -/
theorem run_transmitLine {parse : Parse Unit} {codec : ℕ}
    (hcodec : transmit codec = (do
      parse
      update fun g => g.count.count))
    (hhead : readLine.head? = some '>') (hlen : 3 < readLine.length)
    {cnt cmd word group unit level : List Char}
    (hwords : words readLine = [cnt, cmd, word, group, unit, level])
    (hcnt : int (atoi cnt) ≠ 0) (hcmd : byte (atoi cmd) = 1) (hword : byte (atoi word) = codec) :
    ∃ rest, tokens delimiter rest = [group, unit, level] ∧
      ∀ s', parse (rest, g.println (String.ofList readLine)) = some ((), s') →
        parseCmd readLine (hidden, g) = some ((), s'.1, s'.2.count.count) := by
  have hstart : parseCmd readLine (hidden, g) = (nextToken >>= fun cnt => nextToken >>= fun cmd =>
      if int (atoi cnt) ≠ 0 then command (byte (atoi cmd)) else update Gateway.count)
        (readLine.tail, g.println (String.ofList readLine)) := by
    unfold parseCmd
    rw [if_neg (by simp [hhead])]
    simp only [if_neg (Nat.not_le.2 hlen)]
    rfl
  -- the number of the line, the command and the codec are read by `parseCmd`
  rcases next_bind_of_tokens (k := fun cnt => nextToken >>= fun cmd =>
      if int (atoi cnt) ≠ 0 then command (byte (atoi cmd)) else update Gateway.count)
    (s := (readLine.tail, g.println (String.ofList readLine))) hwords with ⟨rest₁, h₁, hrun₁⟩
  rcases next_bind_of_tokens (k := fun cmd =>
      if int (atoi cnt) ≠ 0 then command (byte (atoi cmd)) else update Gateway.count)
    (s := (rest₁, g.println (String.ofList readLine))) h₁ with ⟨rest₂, h₂, hrun₂⟩
  rcases next_bind_of_tokens (k := fun codec => transmit (byte (atoi codec)))
    (s := (rest₂, g.println (String.ofList readLine))) h₂ with ⟨rest₃, h₃, hrun₃⟩
  refine ⟨rest₃, h₃, fun s' hs' => ?_⟩
  rw [hstart]
  refine hrun₁.trans (hrun₂.trans ?_)
  rw [if_pos hcnt, hcmd]
  refine hrun₃.trans ?_
  rw [hword, hcodec]
  simp only [bind, StateT.bind, hs', update]
  rfl

/-- The line is a `>` and six words, each behind a blank. -/
theorem toList_line : (o.line n).toList =
    '>' :: [Nat.toDigits 10 n, ['1'], Nat.toDigits 10 o.signal.codec, Nat.toDigits 10 o.signal.group,
      Nat.toDigits 10 o.signal.unit, o.level.toList].flatMap fun word => ' ' :: word := by
  simp [Order.line, Nat.toString_eq_repr, Nat.toList_repr]

theorem word_level (o : Order) :
    o.level.toList ≠ [] ∧ ∀ c ∈ o.level.toList, delimiter c = false := by
  cases o with
  | kaku address unit value => exact word_text value
  | action group unit on => cases on <;> simp [Order.level, delimiter]
  | livolo group unit level =>
      rw [Order.level, Nat.toString_eq_repr, Nat.toList_repr]
      exact word_toDigits level
  | quhwa group unit level =>
      rw [Order.level, Nat.toString_eq_repr, Nat.toList_repr]
      exact word_toDigits level

theorem words_line : words (o.line n).toList =
    [Nat.toDigits 10 n, ['1'], Nat.toDigits 10 o.signal.codec, Nat.toDigits 10 o.signal.group,
      Nat.toDigits 10 o.signal.unit, o.level.toList] := by
  rw [words, toList_line, List.tail_cons]
  refine tokens_words (by decide) fun word hword => ?_
  simp only [List.mem_cons, List.not_mem_nil, or_false] at hword
  rcases hword with rfl | rfl | rfl | rfl | rfl | rfl
  · exact word_toDigits n
  · exact ⟨List.cons_ne_nil _ _, List.forall_mem_singleton.2 rfl⟩
  · exact word_toDigits _
  · exact word_toDigits _
  · exact word_toDigits _
  · exact word_level o

/-- The function for the codec transmits what its three words ask for. -/
theorem run_parse (o : Order) :
    ∃ parse : Parse Unit, transmit o.signal.codec = (do
        parse
        update fun g => g.count.count) ∧
      ∀ s : List Char × Gateway, tokens delimiter s.1 =
          [Nat.toDigits 10 o.signal.group, Nat.toDigits 10 o.signal.unit, o.level.toList] →
        ∃ rest g', parse s = some ((), rest, g') ∧ g'.sent = s.2.sent ++ o.signal.send .avr := by
  cases o with
  | kaku address unit value =>
      refine ⟨parseKaku, rfl, fun s h => ?_⟩
      rcases run_parseKaku h with ⟨rest, g', hrun, hsent⟩
      have haddress : ulong (int ((Order.kaku address unit value).signal.group : ℤ)) = address.val := by
        have hlt := address.isLt
        rw [Order.signal, Signal.group, Fin.val_castLE, int, ulong, Int.bmod_eq_of_le (by omega) (by omega)]
        omega
      rw [haddress] at hsent
      exact ⟨rest, g', hrun, hsent⟩
  | action group unit on =>
      refine ⟨parseAction, rfl, fun s h => ?_⟩
      rcases run_withArguments _ h with ⟨rest, hrun⟩
      refine ⟨rest, _, hrun, ?_⟩
      have hgroup : byte (atoi (Nat.toDigits 10 group.val)) = group.val := by
        have hlt := group.isLt
        rw [atoi_toDigits, byte]
        omega
      have hunit : byte (atoi (Nat.toDigits 10 unit.val)) = unit.val := by
        have hlt := unit.isLt
        rw [atoi_toDigits, byte]
        omega
      have hdevice : Int.bmod unit.val 256 = unit.val := by
        have hlt := unit.isLt
        rw [Int.bmod_eq_of_le (by omega) (by omega)]
      have hlevel : decide (int (atoi (Order.action group unit on).level.toList) = 1) = on := by
        rw [Order.level]
        cases on <;> decide
      simp only [Order.signal, Signal.group, Signal.unit, hgroup, hunit, hdevice, hlevel]
      split
      · rfl
      · rfl
  | livolo group unit level =>
      refine ⟨parseLivolo, rfl, fun s h => ?_⟩
      rcases run_withArguments _ h with ⟨rest, hrun⟩
      refine ⟨rest, _, hrun, ?_⟩
      have hgroup : uint (int (atoi (Nat.toDigits 10 group.val))) = group.val := by
        have hlt := group.isLt
        simp only [atoi_toDigits, int, uint, Int.bmod]
        split <;> omega
      have hunit : byte (int (atoi (Nat.toDigits 10 unit.val))) = unit.val := by
        have hlt := unit.isLt
        rw [atoi_toDigits, int, byte, Int.bmod_eq_of_le (by omega) (by omega)]
        omega
      simp only [Order.signal, Signal.group, Signal.unit, hgroup, hunit]
      rfl
  | quhwa group unit level =>
      refine ⟨parseQuhwa, rfl, fun s h => ?_⟩
      rcases run_withArguments _ h with ⟨rest, hrun⟩
      refine ⟨rest, _, hrun, ?_⟩
      have hgroup : ulong (atoi (Nat.toDigits 10 group.val)) = group.val := by
        have hlt := group.isLt
        rw [atoi_toDigits, ulong]
        omega
      have hunit : byte (uint (atoi (Nat.toDigits 10 unit.val))) = unit.val := by
        have hlt := unit.isLt
        rw [atoi_toDigits, uint, byte]
        omega
      simp only [Order.signal, Signal.group, Signal.unit, hgroup, hunit]
      rfl

/-- The gateway transmits what the line asks for. -/
theorem parseCmd_line (o : Order) (g : Gateway) (hidden : List Char) (hn : n % 65536 ≠ 0) :
    ∃ s, parseCmd (o.line n).toList (hidden, g) = some ((), s) ∧ s.2.sent = g.sent ++ o.signal.send .avr := by
  have hhead : (o.line n).toList.head? = some '>' := by
    rw [toList_line]
    rfl
  have hlen : 3 < (o.line n).toList.length := by
    rw [toList_line]
    simp
    omega
  have hcnt : int (atoi (Nat.toDigits 10 n)) ≠ 0 := by
    rw [atoi_toDigits, int]
    intro hzero
    have hdvd := Int.dvd_of_bmod_eq_zero hzero
    omega
  have hcodec : byte (atoi (Nat.toDigits 10 o.signal.codec)) = o.signal.codec := by
    rw [atoi_toDigits]
    cases o <;> rfl
  rcases run_parse o with ⟨parse, htransmit, hparse⟩
  obtain ⟨rest, htokens, hrun⟩ : ∃ rest, tokens delimiter rest = _ ∧
      ∀ s', parse (rest, g.println _) = some ((), s') →
        parseCmd (o.line n).toList (hidden, g) = some ((), s'.1, s'.2.count.count) :=
    run_transmitLine htransmit hhead hlen words_line hcnt (by decide) hcodec
  rcases hparse (rest, g.println _) htokens with ⟨rest', g', hdone, hsent⟩
  exact ⟨_, hrun _ hdone, hsent⟩

/-! ## The other gateway -/

def Gateway.output (g : Gateway) : String := String.join g.serial

theorem join_flatten (ls : List (List String)) :
    String.join ls.flatten = String.join (ls.map String.join) := by
  induction ls with
  | nil => rfl
  | cons l ls ih => simp [ih]

theorem lines_replicate (debug msgCnt k : ℕ) (c : Call) :
    lines debug msgCnt (List.replicate k c) =
      (List.range k).map fun i => line debug (Board.avr.uint (msgCnt + i)) c := by
  refine List.ext_getElem (by simp [lines]) fun i _ _ => ?_
  simp [lines]

/-- Equal lines but for their numbers. -/
theorem output_heard {k : ℕ} {c : Call} {report : ℕ → String}
    (hreport : ∀ m, Call.text g.debug m c = report m) :
    (g.heard k c).output = g.output ++
      String.join ((List.range k).map fun i => report (Board.avr.uint (g.msgCnt + i))) := by
  have htext : ∀ m, String.join (line g.debug m c) = report m := hreport
  simp only [Gateway.output, Gateway.heard, Gateway.shown, lines_replicate, String.join_append,
    join_flatten, List.map_map, Function.comp_def, htext]

theorem System.debug_edges {s : System} (hcnt : s.gateway.msgCnt < 65536) (times : List ℕ) :
    (s.edges times).gateway.debug = s.gateway.debug := by
  rw [gateway_edges hcnt]
  rfl

/-- Lines with consecutive numbers: each report as often as it goes with. -/
def reports : ℕ → List ((ℕ → String) × ℕ) → String
  | _, [] => ""
  | m, (report, k) :: rest =>
      String.join ((List.range k).map fun i => report (Board.avr.uint (m + i))) ++
        reports (Board.avr.uint (m + k)) rest

/-- Calls that the signals one after the other have led to. -/
theorem output_heards {xs : List Signal} {heard : List (ℕ × Call)} (h : List.Forall₂ Hears xs heard)
    (hcnt : g.msgCnt < 65536) :
    ((heard.flatMap fun c => List.replicate c.1 c.2).foldl Gateway.show g).output =
      g.output ++
        reports g.msgCnt ((xs.map fun x n => x.report g.debug n).zip (heard.map Prod.fst)) := by
  induction h generalizing g with
  | nil => exact String.append_empty.symm
  | @cons x c xs heard hc h ih =>
      rcases c with ⟨k, c⟩
      have hfirst : (List.replicate k c).foldl Gateway.show g = g.heard k c := foldl_show _ _ hcnt
      have hnext : (g.heard k c).msgCnt < 65536 := Nat.mod_lt _ (by decide)
      have hcount : (g.heard k c).msgCnt = Board.avr.uint (g.msgCnt + k) := by
        rw [Gateway.heard, Gateway.shown, List.length_replicate]
      rw [List.flatMap_cons, List.foldl_append, hfirst, ih hnext, output_heard (hc.2.2.text g.debug),
        hcount, String.append_assoc]
      rfl

def System.WaitsEach (s : System) (sends : List (ℕ × List Action)) : Prop :=
  ArduinoGateway.WaitsEach .avr chain s.receivers sends

def System.hears (s : System) (sends : List (ℕ × List Action)) : System := s.edges (edgesOf sends)

/-- Of signals that a gateway hears it prints reports, and nothing else. -/
theorem output_hears {xs : List Signal} {sends : List (ℕ × List Action)}
    (hsends : List.Forall₂ Signal.SentAs xs sends) {s : System}
    (hready : ∀ h : Handler, h.Ready (s.receivers h)) (hcnt : s.gateway.msgCnt < 65536)
    (hintact : ∀ x ∈ xs, s.layout.Intact x.handler) (hwaits : s.WaitsEach sends) :
    ∃ ks, List.Forall₂ (fun x k => x.copies.1 ≤ k ∧ k ≤ x.copies.2) xs ks ∧
      (s.hears sends).gateway.output = s.gateway.output ++
        reports s.gateway.msgCnt ((xs.map fun x n => x.report s.gateway.debug n).zip ks) := by
  rcases callsOf_edgesOf hsends chain_nodup (fun x _ => mem_chain _) (fun h _ => hready h) hwaits with
    ⟨heard, hheard, hcalls⟩
  refine ⟨heard.map Prod.fst, ?_, ?_⟩
  · rw [List.forall₂_map_right_iff]
    exact hheard.imp fun x c hc => ⟨hc.1, hc.2.1⟩
  · have hread : s.layout.reads s.called (callsOf .avr chain s.receivers (edgesOf sends)) =
        heard.flatMap fun c => List.replicate c.1 c.2 := by
      rw [hcalls, reads_heard hheard hintact]
    rw [System.hears, System.gateway_edges hcnt, hread, ← foldl_show _ _ hcnt]
    exact output_heards hheard hcnt

/-- A line makes one gateway transmit, and another one whose receivers wait print what the line has
asked for, as often as the protocol repeats it, in lines with consecutive numbers and nothing else.
The sketch of the other one has to read the code as the library passes it. -/
theorem order_relayed (o : Order) (n : ℕ) (g : Gateway) (hidden : List Char) (hn : n % 65536 ≠ 0) :
    ∃ s actions, parseCmd (o.line n).toList (hidden, g) = some ((), s) ∧
      s.2.sent = g.sent ++ actions ∧
      ∀ (layout : Layout) (edge0 edge2 : ULong) (g' : Gateway) (times : List ℕ) (t : ℕ),
        g'.msgCnt < 65536 → layout.Intact o.signal.handler →
        let b := (System.started layout edge0 edge2 g').edges times
        b.Waits t → ∃ k, o.signal.copies.1 ≤ k ∧ k ≤ o.signal.copies.2 ∧
          (b.edges (edges ⟨LOW, t⟩ actions)).gateway.output = b.gateway.output ++
            String.join ((List.range k).map fun i =>
              o.signal.report g'.debug (Board.avr.uint (b.gateway.msgCnt + i))) := by
  rcases parseCmd_line o g hidden hn with ⟨s, hrun, hsent⟩
  refine ⟨s, o.signal.send .avr, hrun, hsent, ?_⟩
  intro layout edge0 edge2 g' times t hcnt hintact b hwaits
  have hs := System.started_listens hcnt hwaits
  rcases hs.listening.signal o.signal (mem_chain _) .avr with ⟨k, c, hlo, hhi, htold, hcalls⟩
  have hlayout : b.layout = layout := System.layout_edges _ times
  have hdebug : b.gateway.debug = g'.debug :=
    System.debug_edges (s := System.started layout edge0 edge2 g') hcnt times
  have hread : b.layout.Intact c.1 := by
    rw [htold.handler, hlayout]
    exact hintact
  have hreport : ∀ m, Call.text b.gateway.debug m c = o.signal.report g'.debug m := by
    rw [hdebug]
    exact htold.text g'.debug
  refine ⟨k, hlo, hhi, ?_⟩
  rw [System.heard_of_calls hs.msgCnt hcalls hread]
  exact output_heard hreport

/-- `> 1 1 0 12345 3 on` -/
theorem order_relayed_on :
    let o := Order.kaku 12345 3 .on
    ∃ s actions, parseCmd (o.line 1).toList ([], ⟨1, 0, 0, [], []⟩) = some ((), s) ∧
      s.2.sent = [] ++ actions ∧
      let b := (System.started .same 0 0 ⟨1, 0, 0, [], []⟩).edges []
      ∃ k, o.signal.copies.1 ≤ k ∧ k ≤ o.signal.copies.2 ∧
        (b.edges (edges ⟨LOW, 1800⟩ actions)).gateway.output = b.gateway.output ++
          String.join ((List.range k).map fun i =>
            o.signal.report 1 (Board.avr.uint (b.gateway.msgCnt + i))) := by
  intro o
  rcases order_relayed o 1 ⟨1, 0, 0, [], []⟩ [] (by decide) with ⟨s, actions, hrun, hsent, hheard⟩
  exact ⟨s, actions, hrun, hsent, hheard .same 0 0 ⟨1, 0, 0, [], []⟩ [] 1800 (by decide)
    (intact_same _) (waits_initReceivers .avr)⟩

end ArduinoGateway
end LamPI
