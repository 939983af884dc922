import LamPI.ArduinoGateway.Effects
import LamPI.ArduinoGateway.Receivers
import LamPI.ArduinoGateway.Serial

/-!
# The sketch at work — `ArduinoGateway.ino`

Edges come at any time, and bytes on the serial port.  `loop` keeps the interrupt off while it handles
a byte, so that a command is carried out between two edges.  It does not while `readSensors` prints the
lines of the sensors on the board.
-/

namespace LamPI
namespace ArduinoGateway

open PulseLine Tokens

/-! ## The sketch -/

/-- The buffer of the serial port, what `strtok` goes on from, the receivers and the rest. -/
structure Sketch where
  port : Serial.Port
  hidden : List Char
  system : System

/-- What `readSensors` does before an interrupt comes: it prints some characters, or counts a line.  In
the middle of `msgCnt++` an interrupt counts in vain, or spoils one of the two bytes, so that any number
may come of it. -/
inductive SensorStep where
  | print (text : String)
  | count (msgCnt : ℕ)
  deriving DecidableEq, Repr

def Gateway.readSensors (g : Gateway) : SensorStep → Gateway
  | .print text => g.print text
  | .count msgCnt => { g with msgCnt := Board.avr.uint msgCnt }

/-- An edge on the receiver's pin, a byte on the serial port, or a part of `readSensors`. -/
inductive Event where
  | edge (now : ℕ)
  | byte (readChar : Char)
  | sensors (step : SensorStep)
  deriving DecidableEq, Repr

def parseCmds (s : List Char × Gateway) (lines : List (List Char)) : Option (List Char × Gateway) :=
  lines.foldlM (fun s line => (parseCmd line s).map Prod.snd) s

section Run

/- What `parseCmd` leaves in the buffer, into which `strtok` writes. -/
variable (parsed : Serial.Buffer → Serial.Buffer)

/-- One event; a write outside of `readLine` ends the run, and so does the use of `NULL`. -/
def Sketch.step (s : Sketch) : Event → Option Sketch
  | .edge now => some { s with system := processInterrupt0 now chain s.system }
  | .byte readChar => do
      let port ← (Serial.readByte parsed s.port readChar).toOption
      let r ← parseCmds (s.hidden, s.system.gateway) (port.calls.drop s.port.calls.length)
      pure { port := port, hidden := r.1, system := { s.system with gateway := r.2 } }
  | .sensors step => some { s with system.gateway := s.system.gateway.readSensors step }

def Sketch.run (s : Sketch) (es : List Event) : Option Sketch := es.foldlM (step parsed) s

end Run

def Sketch.started (layout : Layout) (readLine : Serial.Buffer) (edge0 edge2 : ULong) (g : Gateway) :
    Sketch :=
  { port := ⟨readLine, 0, []⟩, hidden := [], system := ⟨initReceivers edge0 edge2, g, layout, 0⟩ }

def times (es : List Event) : List ℕ :=
  es.filterMap fun
    | .edge now => some now
    | .byte _ => none
    | .sensors _ => none

def bytes (es : List Event) : List Char :=
  es.filterMap fun
    | .edge _ => none
    | .byte readChar => some readChar
    | .sensors _ => none

def sensorSteps (es : List Event) : List SensorStep :=
  es.filterMap fun
    | .edge _ => none
    | .byte _ => none
    | .sensors step => some step

/-! ## One thing after the other -/

/-- What happens to the gateway: a callback is called with what the sketch reads, a line is handed to
`parseCmd`, or `readSensors` goes on. -/
inductive Act where
  | report (c : Call)
  | command (line : List Char)
  | sensors (step : SensorStep)

def Act.call : Act → Option Call
  | .report c => some c
  | .command _ => none
  | .sensors _ => none

def Act.line : Act → Option (List Char)
  | .report _ => none
  | .command line => some line
  | .sensors _ => none

def Act.step : Act → Option SensorStep
  | .report _ => none
  | .command _ => none
  | .sensors step => some step

def perform (s : List Char × Gateway) : Act → Option (List Char × Gateway)
  | .report c => some (s.1, s.2.show c)
  | .command line => (parseCmd line s).map Prod.snd
  | .sensors step => some (s.1, s.2.readSensors step)

def performs (s : List Char × Gateway) (acts : List Act) : Option (List Char × Gateway) :=
  acts.foldlM perform s

def cut (line : List Char) : List Char := line.takeWhile (· ≠ Serial.nul)

/-- What the receivers, the port and the sensors make of the events, when a callback has been called `n`
times before and `part` of a line has been read. -/
def acts (layout : Layout) (n : ℕ) (receivers : (h : Handler) → h.State) (part : List Char) :
    List Event → List Act
  | [] => []
  | .edge now :: es =>
      let r := Listeners.hear interruptHandler now chain receivers
      (layout.reads n (calls r.2)).map .report ++ acts layout (n + (calls r.2).length) r.1 part es
  | .byte readChar :: es =>
      if readChar = Serial.newline then .command (cut part) :: acts layout n receivers [] es
      else acts layout n receivers (part ++ [readChar]) es
  | .sensors step :: es => .sensors step :: acts layout n receivers part es

variable {parsed : Serial.Buffer → Serial.Buffer} {s s' : Sketch} {part : List Char} {n : ℕ}
  {layout : Layout} {receivers : (h : Handler) → h.State} {g : Gateway} {edge0 edge2 : ULong}
  {readLine : Serial.Buffer} {es : List Event}

/-- Calls are neither lines nor steps of `readSensors`. -/
theorem filterMap_report (cs : List Call) :
    (cs.map Act.report).filterMap Act.call = cs ∧ (cs.map Act.report).filterMap Act.line = [] ∧
      (cs.map Act.report).filterMap Act.step = [] := by
  induction cs with
  | nil => exact ⟨rfl, rfl, rfl⟩
  | cons c cs ih => exact ⟨congrArg (c :: ·) ih.1, ih.2.1, ih.2.2⟩

theorem acts_call (layout : Layout) (n : ℕ) (receivers : (h : Handler) → h.State) (part : List Char)
    (es : List Event) :
    (acts layout n receivers part es).filterMap Act.call =
      layout.reads n (callsOf .avr chain receivers (times es)) := by
  induction es generalizing n receivers part with
  | nil => rfl
  | cons e es ih =>
      cases e with
      | edge now =>
          have htimes : times (.edge now :: es) = now :: times es := rfl
          rw [htimes, callsOf_cons, Layout.reads_append]
          simp only [acts, List.filterMap_append, (filterMap_report _).1, ih]
      | byte readChar =>
          rw [acts]
          split
          · exact ih n receivers []
          · exact ih n receivers _
      | sensors step => exact ih n receivers part

theorem acts_line (layout : Layout) (n : ℕ) (receivers : (h : Handler) → h.State) (part : List Char)
    (es : List Event) :
    (acts layout n receivers part es).filterMap Act.line =
      (Serial.pieces part (bytes es)).dropLast.map cut := by
  induction es generalizing n receivers part with
  | nil =>
      have hnil : bytes [] = [] := rfl
      rw [hnil, Serial.pieces_nil]
      rfl
  | cons e es ih =>
      cases e with
      | edge now =>
          simp only [acts, List.filterMap_append, (filterMap_report _).2.1, ih, List.nil_append]
          rfl
      | byte readChar =>
          have hbytes : bytes (.byte readChar :: es) = readChar :: bytes es := rfl
          rw [acts, hbytes]
          split
          · next hnewline =>
            subst hnewline
            rw [Serial.pieces_newline, List.dropLast_cons_of_ne_nil (Serial.pieces_ne_nil _ _),
              List.map_cons, ← ih n receivers []]
            rfl
          · next hchar => rw [Serial.pieces_char _ _ hchar, ih n receivers]
      | sensors step => exact ih n receivers part

theorem acts_step (layout : Layout) (n : ℕ) (receivers : (h : Handler) → h.State) (part : List Char)
    (es : List Event) :
    (acts layout n receivers part es).filterMap Act.step = sensorSteps es := by
  induction es generalizing n receivers part with
  | nil => rfl
  | cons e es ih =>
      cases e with
      | edge now =>
          simp only [acts, List.filterMap_append, (filterMap_report _).2.2, ih, List.nil_append]
          rfl
      | byte readChar =>
          rw [acts]
          split
          · exact ih n receivers []
          · exact ih n receivers _
      | sensors step => exact congrArg (step :: ·) (ih n receivers part)

/-! ## Runs -/

theorem performs_report (s : List Char × Gateway) (cs : List Call) (rest : List Act) :
    performs s (cs.map .report ++ rest) = performs (s.1, cs.foldl Gateway.show s.2) rest := by
  induction cs generalizing s with
  | nil => rfl
  | cons c cs ih => exact ih (s.1, s.2.show c)

theorem run_cons (s : Sketch) (e : Event) (es : List Event) :
    s.run parsed (e :: es) = (s.step parsed e).bind fun s' => s'.run parsed es := rfl

/-- A byte that has been stored. -/
theorem step_read {c : Char} {port : Serial.Port}
    (hread : Serial.readByte parsed s.port c = .ok port) :
    s.step parsed (.byte c) =
      (parseCmds (s.hidden, s.system.gateway) (port.calls.drop s.port.calls.length)).map fun r =>
        { port := port, hidden := r.1, system := { s.system with gateway := r.2 } } := by
  have hstep : s.step parsed (.byte c) =
      (parseCmds (s.hidden, s.system.gateway) (port.calls.drop s.port.calls.length)).bind fun r =>
        some { port := port, hidden := r.1, system := { s.system with gateway := r.2 } } := by
    simp only [Sketch.step, hread]
    rfl
  rw [hstep]
  cases parseCmds (s.hidden, s.system.gateway) (port.calls.drop s.port.calls.length) <;> rfl

/-- `parseCmd` gets the lines that it has finished. -/
theorem step_byte {c : Char} {port : Serial.Port} {lines : List (List Char)}
    (hread : Serial.readByte parsed s.port c = .ok port)
    (hcalls : port.calls = s.port.calls ++ lines) :
    s.step parsed (.byte c) = (parseCmds (s.hidden, s.system.gateway) lines).map fun r =>
      { port := port, hidden := r.1, system := { s.system with gateway := r.2 } } := by
  rw [step_read hread, hcalls, List.drop_left]

/-- As long as the lines fit, the events are one thing after the other, which the receivers and the
port choose. -/
theorem run_eq (parsed : Serial.Buffer → Serial.Buffer) (h : Serial.Holds s.port part)
    (hfits : ∀ l ∈ Serial.pieces part (bytes es), l.length ≤ 31) :
    (s.run parsed es).map (fun s' => (s'.hidden, s'.system)) =
      (performs (s.hidden, s.system.gateway)
        (acts s.system.layout s.system.called s.system.receivers part es)).map fun r =>
          (r.1,
            { receivers := Listeners.final interruptHandler chain s.system.receivers (times es)
              gateway := r.2
              layout := s.system.layout
              called :=
                s.system.called + (callsOf .avr chain s.system.receivers (times es)).length }) := by
  induction es generalizing s part with
  | nil => rfl
  | cons e es ih =>
      cases e with
      | edge now =>
          have hstep : s.step parsed (.edge now) =
              some { s with system := processInterrupt0 now chain s.system } := rfl
          have hih := ih (s := { s with system := processInterrupt0 now chain s.system }) h hfits
          have htimes : times (.edge now :: es) = now :: times es := rfl
          rw [run_cons, hstep, Option.bind_some, hih, processInterrupt0_eq, acts, performs_report, htimes, callsOf_cons,
            Listeners.final_cons, List.length_append, ← Nat.add_assoc]
          rfl
      | byte c =>
          have hbytes : bytes (.byte c :: es) = c :: bytes es := rfl
          have htimes : times (.byte c :: es) = times es := rfl
          rw [hbytes] at hfits
          rw [run_cons, htimes, acts]
          by_cases hc : c = Serial.newline
          · subst hc
            rw [Serial.pieces_newline] at hfits
            rcases Serial.readByte_newline parsed h with ⟨port, hread, hholds, hcalls⟩
            have hone : parseCmds (s.hidden, s.system.gateway) [cut part] =
                (parseCmd (cut part) (s.hidden, s.system.gateway)).map Prod.snd := by
              simp only [parseCmds, List.foldlM_cons, List.foldlM_nil, bind_pure]
            have hperforms : ∀ as, performs (s.hidden, s.system.gateway) (.command (cut part) :: as) =
                ((parseCmd (cut part) (s.hidden, s.system.gateway)).map Prod.snd).bind fun r =>
                  performs r as := fun _ => rfl
            rw [step_byte hread hcalls, if_pos rfl, hperforms]
            refine (congrArg (fun o => Option.map _ (Option.bind (Option.map _ o) _)) hone).trans ?_
            cases hparse : (parseCmd (cut part) (s.hidden, s.system.gateway)).map Prod.snd with
            | none => rfl
            | some r =>
                exact ih (s := { port := port, hidden := r.1,
                                 system := { s.system with gateway := r.2 } }) hholds
                  fun l hl => hfits l (List.mem_cons_of_mem part hl)
          · rw [Serial.pieces_char _ _ hc] at hfits
            have hroom : part.length < 31 := by
              rcases Serial.exists_prefix (part ++ [c]) (bytes es) with ⟨l, hl, hprefix⟩
              have hle := hprefix.length_le.trans (hfits l hl)
              rwa [List.length_append] at hle
            rcases Serial.readByte_char parsed h hroom hc with ⟨port, hread, hholds, hcalls⟩
            have hnone : port.calls = s.port.calls ++ [] := by rw [hcalls, List.append_nil]
            rw [step_byte hread hnone, if_neg hc]
            exact ih (s := { s with port := port }) hholds hfits
      | sensors step =>
          exact ih (s := { s with system.gateway := s.system.gateway.readSensors step }) h hfits

/-- The port runs as if it were alone. -/
theorem run_port (hrun : s.run parsed es = some s') :
    Serial.loop parsed s.port (bytes es) = .ok s'.port := by
  induction es generalizing s with
  | nil =>
      cases hrun
      rfl
  | cons e es ih =>
      rw [run_cons] at hrun
      rcases Option.bind_eq_some_iff.1 hrun with ⟨s₁, hstep, hrest⟩
      cases e with
      | edge now =>
          cases hstep
          have hloop := ih hrest
          exact hloop
      | byte c =>
          cases hread : Serial.readByte parsed s.port c with
          | error o =>
              simp only [Sketch.step, hread, Except.toOption] at hstep
              cases hstep
          | ok port =>
              have hport : s₁.port = port := by
                rw [step_read hread] at hstep
                rcases Option.map_eq_some_iff.1 hstep with ⟨r, -, rfl⟩
                rfl
              have hloop := ih hrest
              rw [hport] at hloop
              have hbytes : bytes (.byte c :: es) = c :: bytes es := rfl
              rw [hbytes, Serial.loop, List.foldlM_cons, hread]
              exact hloop
      | sensors step =>
          cases hstep
          have hloop := ih hrest
          exact hloop

theorem run_fits (h : Serial.Holds s.port part) (hrun : s.run parsed es = some s') :
    ∀ l ∈ Serial.pieces part (bytes es), l.length ≤ 31 := by
  by_contra hlong
  have hport := run_port hrun
  rw [Serial.loop_overrun parsed _ h hlong] at hport
  cases hport

/-- The lines decide whether all can be done. -/
theorem performs_isSome_iff (s : List Char × Gateway) (as : List Act) :
    (performs s as).isSome ↔ ∀ line ∈ as.filterMap Act.line, Accepted line := by
  induction as generalizing s with
  | nil => exact iff_of_true rfl fun line hline => absurd hline List.not_mem_nil
  | cons a as ih =>
      cases a with
      | report c => exact ih (s.1, s.2.show c)
      | sensors step => exact ih (s.1, s.2.readSensors step)
      | command line =>
          have hcons : performs s (.command line :: as) =
              ((parseCmd line s).map Prod.snd).bind fun r => performs r as := rfl
          have hline := parseCmd_isSome_iff line s.1 s.2
          have hmem : (Act.command line :: as).filterMap Act.line = line :: as.filterMap Act.line := rfl
          rw [hcons, hmem, List.forall_mem_cons, ← hline]
          cases hparse : parseCmd line s with
          | none => simp
          | some r =>
              rw [Option.map_some, Option.bind_some, ih]
              exact (and_iff_right rfl).symm

theorem started_holds (layout : Layout) (readLine : Serial.Buffer) (edge0 edge2 : ULong) (g : Gateway) :
    Serial.Holds (Sketch.started layout readLine edge0 edge2 g).port [] :=
  ⟨rfl, Nat.zero_le _, List.nil_prefix⟩

theorem lines_eq (bytes : List Char) :
    Serial.lines bytes = (Serial.pieces [] bytes).dropLast := by
  rw [Serial.pieces_nil_part]
  rfl

/-- The lines fit: those that have been finished decide. -/
theorem run_isSome_of_fits (hfits : ∀ l ∈ Serial.pieces [] (bytes es), l.length ≤ 31) :
    ((Sketch.started layout readLine edge0 edge2 g).run parsed es).isSome ↔
      ∀ l ∈ Serial.lines (bytes es), Accepted (cut l) := by
  have hrun := congrArg Option.isSome
    (run_eq parsed (started_holds layout readLine edge0 edge2 g) hfits)
  rw [Option.isSome_map, Option.isSome_map] at hrun
  rw [hrun, performs_isSome_iff, acts_line, List.forall_mem_map, lines_eq]

theorem exists_run (parsed : Serial.Buffer → Serial.Buffer) (layout : Layout)
    (readLine : Serial.Buffer) (edge0 edge2 : ULong) (g : Gateway) (es : List Event)
    (hfits : ∀ l ∈ (bytes es).splitOn Serial.newline, l.length ≤ 31)
    (haccepted : ∀ l ∈ Serial.lines (bytes es), Accepted (cut l)) :
    ∃ s', (Sketch.started layout readLine edge0 edge2 g).run parsed es = some s' := by
  rw [← Serial.pieces_nil_part] at hfits
  exact Option.isSome_iff_exists.1 ((run_isSome_of_fits hfits).2 haccepted)

/-- Whatever the edges and the sensors, the sketch goes on exactly as long as every line fits the buffer
and every finished one has the words that its command uses. -/
theorem run_isSome_iff (parsed : Serial.Buffer → Serial.Buffer) (layout : Layout)
    (readLine : Serial.Buffer) (edge0 edge2 : ULong) (g : Gateway) (es : List Event) :
    ((Sketch.started layout readLine edge0 edge2 g).run parsed es).isSome ↔
      (∀ l ∈ (bytes es).splitOn Serial.newline, l.length ≤ 31) ∧
        ∀ l ∈ Serial.lines (bytes es), Accepted (cut l) := by
  rw [← Serial.pieces_nil_part]
  by_cases hfits : ∀ l ∈ Serial.pieces [] (bytes es), l.length ≤ 31
  · exact (run_isSome_of_fits hfits).trans (and_iff_right hfits).symm
  · refine iff_of_false ?_ fun h => hfits h.1
    intro hsome
    rcases Option.isSome_iff_exists.1 hsome with ⟨s', hs'⟩
    exact hfits (run_fits (started_holds layout readLine edge0 edge2 g) hs')

/-! ## What comes of a run -/

/-- What the gateway has carried out. -/
theorem exists_acts (hrun : (Sketch.started layout readLine edge0 edge2 g).run parsed es = some s') :
    ∃ (as : List Act) (cs : List Call),
      performs ([], g) as = some (s'.hidden, s'.system.gateway) ∧
      as.filterMap Act.line = (Serial.lines (bytes es)).map cut ∧
      as.filterMap Act.step = sensorSteps es ∧ as.filterMap Act.call = layout.reads 0 cs ∧
      ∀ h, Listeners.of h cs =
          callbacks (Mealy.events (interruptHandler h) (initReceivers edge0 edge2 h) (times es)) ∧
        s'.system.receivers h =
          Mealy.final (interruptHandler h) (initReceivers edge0 edge2 h) (times es) := by
  have hholds := started_holds layout readLine edge0 edge2 g
  have hmap := run_eq parsed hholds (run_fits hholds hrun)
  rw [hrun] at hmap
  rcases Option.map_eq_some_iff.1 hmap.symm with ⟨r, hr, heq⟩
  have hhidden : r.1 = s'.hidden := congrArg Prod.fst heq
  have hgateway : r.2 = s'.system.gateway := congrArg (fun r => r.2.gateway) heq
  have hreceivers : Listeners.final interruptHandler chain (initReceivers edge0 edge2) (times es) =
      s'.system.receivers := congrArg (fun r => r.2.receivers) heq
  refine ⟨acts layout 0 (initReceivers edge0 edge2) [] es,
    callsOf .avr chain (initReceivers edge0 edge2) (times es), ?_, ?_, ?_, ?_, fun h => ?_⟩
  · rw [← hhidden, ← hgateway]
    exact hr
  · rw [acts_line, lines_eq]
  · rw [acts_step]
  · rw [acts_call]
  · rw [of_calls, ← hreceivers]
    exact ⟨congrArg callbacks (Listeners.run_of_mem chain_nodup (mem_chain h) (times es)).2,
      (Listeners.run_of_mem chain_nodup (mem_chain h) (times es)).1⟩

/-- Whatever the edges, the bytes and the sensors, the gateway has carried out whole commands and whole
callbacks one after the other, between the steps of `readSensors`: the lines in their order, and for
every receiver the callbacks that it would make alone, with its codes as the sketch reads them. -/
theorem run_in_order (hrun : (Sketch.started layout readLine edge0 edge2 g).run parsed es = some s') :
    ∃ (as : List Act) (cs : List Call),
      performs ([], g) as = some (s'.hidden, s'.system.gateway) ∧
      as.filterMap Act.line = (Serial.lines (bytes es)).map cut ∧
      as.filterMap Act.step = sensorSteps es ∧ as.filterMap Act.call = layout.reads 0 cs ∧
      ∀ h, Listeners.of h cs =
          callbacks (Mealy.events (interruptHandler h) (initReceivers edge0 edge2 h) (times es)) ∧
        s'.system.receivers h =
          Mealy.final (interruptHandler h) (initReceivers edge0 edge2 h) (times es) :=
  exists_acts hrun

/-- A line that puts codec 5 on, three edges in between, and a part of a sensor's line. -/
theorem run_in_order_example :
    let es := .edge 1800 :: ("> 1 0 1 5 1".toList.map Event.byte ++
      [.edge 2170, .byte Serial.newline, .sensors (.print "< 2 3 0 "), .edge 2540])
    ∃ s', (Sketch.started .same (Vector.replicate 32 Serial.nul) 0 0 idle).run id es = some s' ∧
      ∃ (as : List Act) (cs : List Call),
        performs ([], idle) as = some (s'.hidden, s'.system.gateway) ∧
        as.filterMap Act.line = (Serial.lines (bytes es)).map cut ∧
        as.filterMap Act.step = sensorSteps es ∧ as.filterMap Act.call = Layout.same.reads 0 cs ∧
        ∀ h, Listeners.of h cs =
            callbacks (Mealy.events (interruptHandler h) (initReceivers 0 0 h) (times es)) ∧
          s'.system.receivers h =
            Mealy.final (interruptHandler h) (initReceivers 0 0 h) (times es) := by
  intro es
  rcases exists_run id .same (Vector.replicate 32 Serial.nul) 0 0 idle es (by decide) (by decide)
    with
    ⟨s', hrun⟩
  exact ⟨s', hrun, run_in_order hrun⟩

def Unanswered (steps : List SensorStep) : Prop := ∀ msgCnt, SensorStep.count msgCnt ∉ steps

/-- What commands and callbacks make of the gateway, one after the other. -/
theorem performs_adds {as : List Act} {s r : List Char × Gateway} (h : performs s as = some r) :
    r.2.sent = s.2.sent ++ (as.filterMap Act.line).flatMap transmitted ∧
      (Unanswered (as.filterMap Act.step) →
        r.2.msgCnt ≡ s.2.msgCnt + ((as.filterMap Act.call).length +
          ((as.filterMap Act.line).map counted).sum) [MOD 65536]) ∧
      r.2.settings =
        (as.filterMap Act.line).foldl (fun p line => set (setting line) p) s.2.settings := by
  induction as generalizing s with
  | nil =>
      cases h
      exact ⟨(List.append_nil _).symm, fun _ => Nat.ModEq.refl _, rfl⟩
  | cons a as ih =>
      rcases Option.bind_eq_some_iff.1 h with ⟨s₁, hone, hrest⟩
      rcases ih hrest with ⟨hsent, hcnt, hset⟩
      cases a with
      | report c =>
          cases hone
          rw [show_eq] at hsent hcnt hset
          refine ⟨hsent, fun hunanswered => ?_, hset⟩
          have hcount : (s.2.printed (line s.2.debug s.2.msgCnt c)).msgCnt ≡ s.2.msgCnt + 1
            [MOD 65536] := Nat.mod_modEq _ _
          refine (hcnt hunanswered).trans ((Nat.ModEq.add_right _ hcount).trans ?_)
          have hlen : (Act.report c :: as).filterMap Act.call = c :: as.filterMap Act.call := rfl
          have hline : (Act.report c :: as).filterMap Act.line = as.filterMap Act.line := rfl
          rw [hlen, hline, List.length_cons]
          exact congrArg (· % 65536) (by omega)
      | command line =>
          rcases Option.map_eq_some_iff.1 hone with ⟨⟨⟨⟩, s₂⟩, hparse, rfl⟩
          rcases parseCmd_adds hparse with ⟨hsent', hcnt'⟩
          have hset' := parseCmd_sets hparse
          have hline : (Act.command line :: as).filterMap Act.line =
            line :: as.filterMap Act.line := rfl
          have hcall : (Act.command line :: as).filterMap Act.call = as.filterMap Act.call := rfl
          rw [hline, hcall]
          refine ⟨?_, fun hunanswered => ?_, ?_⟩
          · rw [hsent, hsent', List.flatMap_cons, List.append_assoc]
          · refine (hcnt hunanswered).trans ((Nat.ModEq.add_right _ hcnt').trans ?_)
            rw [List.map_cons, List.sum_cons]
            exact congrArg (· % 65536) (by omega)
          · rw [hset, hset']
            rfl
      | sensors step =>
          cases hone
          cases step with
          | print text =>
              refine ⟨hsent, fun hunanswered => hcnt fun msgCnt hmem => ?_, hset⟩
              exact hunanswered msgCnt (List.mem_cons_of_mem _ hmem)
          | count msgCnt =>
              exact ⟨hsent, fun hunanswered => absurd List.mem_cons_self (hunanswered msgCnt), hset⟩

/-! ## The settings -/

def codecSet (c : ℕ) (line : List Char) : Option Bool :=
  match setting line with
  | some (.codec c' on) => if c' = c then some on else none
  | _ => none

def debugSet (line : List Char) : Option ℕ :=
  match setting line with
  | some (.debug on) => some (if on then 1 else 0)
  | _ => none

theorem getLsbD_set {c : ℕ} (hc : c < 32) (line : List Char) (p : ℕ × ULong) :
    (set (setting line) p).2.getLsbD c = (codecSet c line).getD (p.2.getLsbD c) := by
  unfold set codecSet
  cases hset : setting line with
  | none => rfl
  | some x =>
      cases x with
      | debug on => rfl
      | codec c' on =>
          have hbit : (1#32 <<< c').getLsbD c = decide (c' = c) := by
            rw [BitVec.getLsbD_shiftLeft, BitVec.getLsbD_one]
            by_cases hcc : c' = c
            · subst hcc
              simp [hc]
            · have hsub : c < c' ∨ ¬c - c' = 0 := by omega
              rcases hsub with hlt | hne
              · simp [hlt, hcc]
              · simp [hne, hcc]
          cases on with
          | true =>
              simp only [if_true, BitVec.getLsbD_or, hbit]
              by_cases hcc : c' = c <;> simp [hcc]
          | false =>
              simp only [Bool.false_eq_true, if_false, BitVec.getLsbD_and, BitVec.getLsbD_not, hbit]
              by_cases hcc : c' = c <;> simp [hcc, hc]

theorem debug_set (line : List Char) (p : ℕ × ULong) :
    (set (setting line) p).1 = (debugSet line).getD p.1 := by
  unfold set debugSet
  rcases setting line with _ | _ | _ <;> rfl

/-- A value that every line may change is the last one that a line has given it. -/
theorem foldl_set {β : Type} {f : ℕ × ULong → β} {change : List Char → Option β}
    (h : ∀ line p, f (set (setting line) p) = (change line).getD (f p)) (lines : List (List Char))
    (p : ℕ × ULong) :
    f (lines.foldl (fun p line => set (setting line) p) p) =
      (lines.filterMap change).getLastD (f p) := by
  induction lines generalizing p with
  | nil => rfl
  | cons line lines ih =>
      rw [List.foldl_cons, ih, h]
      cases hchange : change line with
      | none => rw [List.filterMap_cons_none hchange, Option.getD_none]
      | some x => rw [List.filterMap_cons_some hchange, Option.getD_some, List.getLastD_cons]

/-- What has been transmitted and set depends on the lines only: each transmits what it would make
an idle gateway transmit, and a codec and the debug level are what the last line has made them that
names them.  As long as no sensor has answered, `msgCnt` counts the lines and the callbacks. -/
theorem run_by_lines (hrun : (Sketch.started layout readLine edge0 edge2 g).run parsed es = some s') :
    let lines := (Serial.lines (bytes es)).map cut
    s'.system.gateway.sent = g.sent ++ lines.flatMap transmitted ∧
      (∀ c < 32, s'.system.gateway.codecs.getLsbD c =
        (lines.filterMap (codecSet c)).getLastD (g.codecs.getLsbD c)) ∧
      s'.system.gateway.debug = (lines.filterMap debugSet).getLastD g.debug ∧
      (Unanswered (sensorSteps es) →
        s'.system.gateway.msgCnt ≡ g.msgCnt + ((lines.map counted).sum +
          (chain.map fun h => (callbacks (Mealy.events (interruptHandler h)
            (initReceivers edge0 edge2 h) (times es))).length).sum) [MOD 65536]) := by
  intro lines
  rcases exists_acts hrun with ⟨as, cs, hperforms, hlines, hsteps, hread, hcalls⟩
  rcases performs_adds hperforms with ⟨hsent, hcnt, hset⟩
  rw [hlines] at hsent hcnt hset
  refine ⟨hsent, fun c hc => ?_, ?_, fun hunanswered => ?_⟩
  · have hcodecs := foldl_set (f := fun p => p.2.getLsbD c) (getLsbD_set hc) lines g.settings
    exact (congrArg (fun p => p.2.getLsbD c) hset).trans hcodecs
  · have hdebug := foldl_set (f := Prod.fst) debug_set lines g.settings
    exact (congrArg Prod.fst hset).trans hdebug
  · rw [hsteps] at hcnt
    refine (hcnt hunanswered).trans (congrArg (· % 65536) ?_)
    have hlength := Listeners.length_eq_sum chain_nodup cs fun c _ => mem_chain c.1
    have hsame : (fun h => (Listeners.of h cs).length) = fun h =>
        (callbacks (Mealy.events (interruptHandler h) (initReceivers edge0 edge2 h)
          (times es))).length := funext fun h => congrArg List.length (hcalls h).1
    rw [hread, Layout.length_reads, hlength.trans (congrArg (fun f => (chain.map f).sum) hsame)]
    exact congrArg (g.msgCnt + ·) (Nat.add_comm _ _)

/-- Codec 5 is put on, and on again after it has been put off; in between a sensor answers. -/
theorem run_by_lines_example :
    let es := "> 1 0 1 5 0".toList.map Event.byte ++ [.byte Serial.newline, .edge 1800] ++
      [.sensors (.print "< 2 3 0 40 0 21.5 48.0"), .sensors (.count 3)] ++
      "> 2 0 1 5 1".toList.map Event.byte ++ [.edge 2170, .byte Serial.newline]
    ∃ s', (Sketch.started .same (Vector.replicate 32 Serial.nul) 0 0 idle).run id es = some s' ∧
      s'.system.gateway.codecs.getLsbD 5 = true := by
  intro es
  rcases exists_run id .same (Vector.replicate 32 Serial.nul) 0 0 idle es (by decide) (by decide)
    with
    ⟨s', hrun⟩
  refine ⟨s', hrun, ((run_by_lines hrun).2.1 5 (by decide)).trans ?_⟩
  decide

end ArduinoGateway
end LamPI
