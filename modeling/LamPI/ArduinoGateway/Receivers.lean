import LamPI.ArduinoGateway
import LamPI.ArduinoGateway.Command
import LamPI.Auriol.Receiver
import LamPI.InterruptChain
import LamPI.Kaku.Receiver
import LamPI.Kopou.Receiver
import LamPI.Library.Listeners
import LamPI.Livolo.Receiver
import LamPI.Quhwa.Receiver
import LamPI.Wt440.Receiver

/-!
# The receivers of the Arduino gateway — `ArduinoGateway.ino`

`setup` puts the handlers of seven receivers into the chain of interrupt 0, so that every edge is
handed to all of them, the one added last first.  Each has a callback that prints a line for the
daemon.
-/

namespace LamPI
namespace ArduinoGateway

/-! ## The handlers -/

/-- The callbacks in the chain: the interrupt handlers of the receivers. -/
inductive Handler where
  | auriol
  | remote
  | kaku
  | livolo
  | kopou
  | quhwa
  | wt440
  deriving DecidableEq, Repr

abbrev Handler.State : Handler → Type
  | .auriol => Auriol.State
  | .remote => Remote.State
  | .kaku => Kaku.State
  | .livolo => Livolo.State
  | .kopou => Kopou.State
  | .quhwa => Quhwa.State
  | .wt440 => Wt440.State

abbrev Handler.Code : Handler → Type
  | .auriol => Auriol.Code
  | .remote => Remote.Received
  | .kaku => Kaku.Code
  | .livolo => Livolo.Code
  | .kopou => Kopou.Code
  | .quhwa => Quhwa.Code
  | .wt440 => Wt440.Code

/-- `interruptHandler` of the receivers, as compiled for a board. -/
def Handler.interruptHandler (b : Board) :
    (h : Handler) → h.State → ℕ → h.State × Option (Completion h.Code)
  | .auriol => Auriol.interruptHandler b
  | .remote => Remote.interruptHandler b
  | .kaku => Kaku.interruptHandler b
  | .livolo => Livolo.interruptHandler b
  | .kopou => Kopou.interruptHandler b
  | .quhwa => Quhwa.interruptHandler b
  | .wt440 => Wt440.interruptHandler

/-- The same on the board of this gateway. -/
abbrev interruptHandler : (h : Handler) → h.State → ℕ → h.State × Option (Completion h.Code) :=
  Handler.interruptHandler .avr

/-- The static variables after `setup`, the last two edges having been seen at `edge0` and `edge2`. -/
def initReceivers (edge0 edge2 : ULong) : (h : Handler) → h.State
  | .auriol => Auriol.init 2 edge2
  | .remote => Remote.init 2 edge0 edge2
  | .kaku => Kaku.init 2 edge0 edge2
  | .livolo => Livolo.init 3 edge2
  | .kopou => Kopou.init 3 edge2
  | .quhwa => Quhwa.init 3 edge2
  | .wt440 => Wt440.init 1 edge2

def CHANGE : ℕ := 1

def setupCalls : List (InterruptChain.Call Handler) :=
  .setMode InterruptChain.interrupt0 CHANGE ::
    [Handler.auriol, .remote, .kaku, .livolo, .kopou, .quhwa, .wt440].map
      (.addInterruptCallback InterruptChain.interrupt0)

def chain : List Handler := [.wt440, .quhwa, .kopou, .livolo, .kaku, .remote, .auriol]

theorem chain_nodup : chain.Nodup := by decide

theorem mem_chain (h : Handler) : h ∈ chain := by
  cases h <;> decide

def loopCalls (bytes : ℕ) : List (InterruptChain.Call Handler) :=
  (List.replicate bytes [.disable InterruptChain.interrupt0,
    .enable InterruptChain.interrupt0]).flatten

theorem loopCalls_succ (bytes : ℕ) : loopCalls (bytes + 1) =
    loopCalls bytes ++ [.disable InterruptChain.interrupt0, .enable InterruptChain.interrupt0] := by
  rw [loopCalls, List.replicate_succ', List.flatten_append]
  rfl

/-- No byte changes the mode. -/
theorem modeSet_loopCalls (bytes : ℕ) :
    InterruptChain.modeSet InterruptChain.interrupt0 (setupCalls ++ loopCalls bytes) = CHANGE := by
  induction bytes with
  | zero => rfl
  | succ bytes ih =>
      rw [loopCalls_succ, ← List.append_assoc, List.append_cons,
        InterruptChain.modeSet_other (by simp), InterruptChain.modeSet_other (by simp), ih]

theorem callback_loopCalls (bytes : ℕ) :
    (loopCalls bytes).flatMap (InterruptChain.Call.callback InterruptChain.interrupt0) = [] := by
  induction bytes with
  | zero => rfl
  | succ bytes ih =>
      rw [loopCalls_succ, List.flatMap_append, ih]
      rfl

/-- Whatever interrupts have come in the meantime, after `setup` and any number of bytes an edge on pin
2 makes the handlers run, each once and the one added last first. -/
theorem setup_chain {es : List (InterruptChain.Event Handler)} {s : InterruptChain.System Handler}
    {bytes : ℕ} (h : InterruptChain.Run es s)
    (hcalls : InterruptChain.calls es = setupCalls ++ loopCalls bytes) (hpc : s.pc = .outside) :
    s.chains.attached InterruptChain.interrupt0 = some CHANGE ∧
      ∀ handlers, s.chains.Calls InterruptChain.interrupt0 handlers ↔ handlers = chain := by
  constructor
  · rw [h.attached_eq hpc, hcalls]
    cases bytes with
    | zero =>
        refine ⟨setupCalls.dropLast, .addInterruptCallback InterruptChain.interrupt0 .wt440, [], ?_⟩
        exact ⟨rfl, rfl, by simp, rfl⟩
    -- the last call is an `enable`
    | succ bytes =>
        have henables : (InterruptChain.Call.enable InterruptChain.interrupt0 :
            InterruptChain.Call Handler).Enables InterruptChain.interrupt0 := rfl
        rw [loopCalls_succ, ← List.append_assoc, List.append_cons,
          InterruptChain.attachedWith_enables henables, InterruptChain.modeSet_other (by simp),
          modeSet_loopCalls]
  · intro handlers
    rw [h.calls_iff hpc, InterruptChain.added_eq, hcalls, List.flatMap_append, callback_loopCalls,
      List.append_nil]
    rfl

/-- A `setup` in the course of which no interrupt comes, and two bytes. -/
theorem setup_chain_example :
    ∃ s : InterruptChain.System Handler,
      s.chains.attached InterruptChain.interrupt0 = some CHANGE ∧
        ∀ handlers, s.chains.Calls InterruptChain.interrupt0 handlers ↔ handlers = chain := by
  rcases InterruptChain.exists_run (setupCalls ++ loopCalls 2) with ⟨es, s, hrun, hcalls, hpc⟩
  exact ⟨s, setup_chain hrun hcalls hpc⟩

/-! ## The callbacks -/

/-- `showWt440Code`; a constant that is none of the four has no type of message. -/
def showWt440Code (receivedCode : Wt440.Code) (g : Gateway) : Gateway :=
  let g := (g.print "< ").print (toString g.msgCnt)
  let g := match receivedCode.wconst with
    | 0 => g.print " 3 4 "
    | 4 => g.print " 3 3 "
    | 6 => g.print " 3 1 "
    | 7 => g.print " 3 2 "
    | _ => g
  let g := ((((((g.print (toString receivedCode.address)).print " ").print
    (toString receivedCode.channel)).print " ").print (toString receivedCode.temperature)).print
    " ").print (toString receivedCode.humidity)
  let g := if 1 ≤ g.debug then g.print " ! WT440:: " else g
  (g.println "").count

def bin (n : ℕ) : String := String.ofList (Nat.toDigits 2 n)

def showAuriolCode (receivedCode : Auriol.Code) (g : Gateway) : Gateway :=
  let g := ((g.print "< ").print (toString g.msgCnt)).print " 3 8 "
  let g := ((((((g.print (toString receivedCode.address)).print " ").print
    (toString receivedCode.channel)).print " ").print (toString receivedCode.temperature)).print
    " ").print (toString receivedCode.humidity)
  let g :=
    if 1 ≤ g.debug then
      (((((g.print " ! Auriol Cs: ").print (toString receivedCode.csum)).print ", N1: ").print
        (bin receivedCode.n1)).print ", N2: ").print (bin receivedCode.n2)
    else g
  (g.println "").count

/-- `showKakuCode`; the message is counted as soon as its number has been printed. -/
def showKakuCode (receivedCode : Kaku.Code) (g : Gateway) : Gateway :=
  let g := (((g.print "< ").print (toString g.msgCnt)).print " 2 0 ").print
    (toString receivedCode.address)
  let g := g.count
  let g := if receivedCode.groupBit then g.print " G " else
    (g.print " ").print (toString receivedCode.unit)
  let g := match receivedCode.switchType with
    | .off => g.print " 0"
    | .on => g.print " on"
    | .dim =>
        if receivedCode.dimLevelPresent then
          (g.print " ").print (toString receivedCode.dimLevel)
        else g
  let g :=
    if g.debug ≠ 0 then
      let g := ((((g.print " ! Kaku G: ").print (toString receivedCode.address)).print " N ").print
        (toString receivedCode.unit)).print " "
      match receivedCode.switchType with
        | .off => g.print " 0"
        | .on => g.print " on"
        | .dim =>
            let g := g.print " dim "
            if receivedCode.dimLevelPresent then
              (g.print " ").print (toString receivedCode.dimLevel)
            else g
    else g
  g.println ""

/-- What the three callbacks for a switch with a level print; they differ in the codec and the name. -/
def showSwitch (codec name : String) (address unit level : ℕ) (g : Gateway) : Gateway :=
  let g := ((g.print "< ").print (toString g.msgCnt)).print codec
  let g := ((((g.print (toString address)).print " ").print (toString unit)).print " ").print
    (toString level)
  let g := if 1 ≤ g.debug then g.print name else g
  (g.println "").count

def showLivoloCode (receivedCode : Livolo.Code) : Gateway → Gateway :=
  showSwitch " 2 5 " " ! Livolo " receivedCode.address receivedCode.unit receivedCode.level

def showKopouCode (receivedCode : Kopou.Code) : Gateway → Gateway :=
  showSwitch " 2 6 " " ! Kopou " receivedCode.address receivedCode.unit receivedCode.level

def showQuhwaCode (receivedCode : Quhwa.Code) : Gateway → Gateway :=
  showSwitch " 2 7 " " ! Quhwa " receivedCode.address receivedCode.unit receivedCode.level

def printRemoteCode (receivedCode period : ℕ) (g : Gateway) : Gateway :=
  let m := showRemoteCode receivedCode period
  let g := ((g.print "< ").print (toString g.msgCnt)).print " 2 "
  let g := ((((((g.print (toString m.codec)).print " ").print (toString m.address)).print " ").print
    (toString m.unit)).print " ").print (toString m.level)
  let g :=
    if 1 ≤ g.debug then (g.print " ! Remote:: period: ").print (toString period) else g
  (g.println "").count

def callback : (h : Handler) → h.Code → Gateway → Gateway
  | .auriol => showAuriolCode
  | .remote => fun r => printRemoteCode r.code r.period
  | .kaku => showKakuCode
  | .livolo => showLivoloCode
  | .kopou => showKopouCode
  | .quhwa => showQuhwaCode
  | .wt440 => showWt440Code

abbrev Call : Type := Σ h : Handler, h.Code

def Gateway.show (g : Gateway) (c : Call) : Gateway := callback c.1 c.2 g

/-! ## Passing codes by value -/

/-- `livoloCode` and `kopouCode` have more members where `STATISTICS` is defined.  The sketches define
it, the library is compiled without it, so that one side passes by value what the other reads in
another layout.  What it reads when a callback is called for the `n`th time is up to the compiler, but
an address is 32 bits. -/
structure Layout where
  livolo : ℕ → Livolo.Code → Livolo.Code
  kopou : ℕ → Kopou.Code → Kopou.Code
  typed : ∀ n c, c.address < 2 ^ 32 → (livolo n c).address < 2 ^ 32

/-- `STATISTICS` is defined for both sides or for none. -/
def Layout.same : Layout := ⟨fun _ c => c, fun _ c => c, fun _ _ h => h⟩

/-- What the sketch reads in call `n` of a callback.  The other structs are the same on both sides, as
far as anything comes of them. -/
def Layout.read (l : Layout) (n : ℕ) : Call → Call
  | ⟨.livolo, c⟩ => ⟨.livolo, l.livolo n c⟩
  | ⟨.kopou, c⟩ => ⟨.kopou, l.kopou n c⟩
  | c => c

def Layout.reads (l : Layout) (n : ℕ) (cs : List Call) : List Call :=
  cs.mapIdx fun k c => l.read (n + k) c

/-- The sketch reads the codes of a receiver as they are passed. -/
def Layout.Intact (l : Layout) (h : Handler) : Prop := ∀ n (c : h.Code), l.read n ⟨h, c⟩ = ⟨h, c⟩

theorem intact_same (h : Handler) : Layout.same.Intact h := by
  cases h <;> exact fun _ _ => rfl

theorem Layout.reads_append (l : Layout) (n : ℕ) (cs cs' : List Call) :
    l.reads n (cs ++ cs') = l.reads n cs ++ l.reads (n + cs.length) cs' := by
  unfold Layout.reads
  rw [List.mapIdx_append]
  refine congrArg _ (congrArg (fun f => List.mapIdx f cs') ?_)
  funext k c
  rw [Nat.add_assoc, Nat.add_comm cs.length]

@[simp] theorem Layout.length_reads (l : Layout) (n : ℕ) (cs : List Call) :
    (l.reads n cs).length = cs.length := List.length_mapIdx

theorem Layout.reads_eq_self {l : Layout} {cs : List Call} (h : ∀ c ∈ cs, l.Intact c.1) (n : ℕ) :
    l.reads n cs = cs := by
  refine List.ext_getElem (l.length_reads n cs) fun i hi hi' => ?_
  have hread : (l.reads n cs)[i] = l.read (n + i) cs[i] := List.getElem_mapIdx
  rw [hread]
  exact h _ (List.getElem_mem hi') _ _

/-! ## Edges -/

/-- The static variables of the receivers, the rest of the sketch, and how often a callback has been
called. -/
structure System where
  receivers : (h : Handler) → h.State
  gateway : Gateway
  layout : Layout
  called : ℕ

abbrev Frame : Type := Σ h : Handler, Completion h.Code

/-- What a completed frame does to the sketch: its handler may call the callback. -/
def System.callBack (s : System) (e : Frame) : System :=
  if e.2.calledBack then
    { s with
      gateway := s.gateway.show (s.layout.read s.called ⟨e.1, e.2.code⟩)
      called := s.called + 1 }
  else s

/-- `processInterrupt0` at an edge: the handlers of a chain run one after the other, each with its
callback.  They all read the same `micros()`: the time that they take themselves is neglected. -/
def processInterrupt0 (now : ℕ) : List Handler → System → System
  | [], s => s
  | h :: hs, s =>
      let r := interruptHandler h (s.receivers h) now
      let s := { s with receivers := Function.update s.receivers h r.1 }
      processInterrupt0 now hs ((r.2.toList.map (Sigma.mk h)).foldl System.callBack s)

/-- The edges at the given times, while interrupt 0 is attached. -/
def System.edges (s : System) (times : List ℕ) : System :=
  times.foldl (fun s now => processInterrupt0 now chain s) s

def calls (es : List Frame) : List Call :=
  (es.filter fun e => e.2.calledBack).map fun e => ⟨e.1, e.2.code⟩

theorem calls_append (es es' : List Frame) : calls (es ++ es') = calls es ++ calls es' := by
  rw [calls, calls, calls, List.filter_append, List.map_append]

/-- The callbacks that the receivers of a chain make at some edges. -/
abbrev callsOf (b : Board) (hs : List Handler) (receivers : (h : Handler) → h.State)
    (times : List ℕ) : List Call :=
  calls (Listeners.events (Handler.interruptHandler b) hs receivers times)

theorem callsOf_cons (b : Board) (hs : List Handler) (receivers : (h : Handler) → h.State)
    (t : ℕ) (ts : List ℕ) :
    callsOf b hs receivers (t :: ts) =
      calls (Listeners.hear (Handler.interruptHandler b) t hs receivers).2 ++
        callsOf b hs (Listeners.hear (Handler.interruptHandler b) t hs receivers).1 ts := by
  rw [callsOf, Listeners.events_cons, calls_append]

theorem callsOf_append (b : Board) (hs : List Handler) (receivers : (h : Handler) → h.State)
    (times times' : List ℕ) :
    callsOf b hs receivers (times ++ times') = callsOf b hs receivers times ++
      callsOf b hs (Listeners.final (Handler.interruptHandler b) hs receivers times) times' := by
  rw [callsOf, Listeners.events_append, calls_append]

def System.told (s : System) (cs : List Call) : System :=
  { s with
    gateway := (s.layout.reads s.called cs).foldl Gateway.show s.gateway
    called := s.called + cs.length }

theorem System.told_append (s : System) (cs cs' : List Call) :
    s.told (cs ++ cs') = (s.told cs).told cs' := by
  simp only [System.told, Layout.reads_append, List.foldl_append, List.length_append, Nat.add_assoc]

theorem foldl_callBack (s : System) (es : List Frame) :
    es.foldl System.callBack s = s.told (calls es) := by
  induction es generalizing s with
  | nil => rfl
  | cons e es ih =>
      have hcons : calls (e :: es) = calls [e] ++ calls es := calls_append [e] es
      rw [List.foldl_cons, ih, hcons, System.told_append]
      congr 1
      unfold System.callBack calls
      by_cases he : e.2.calledBack = true
      · simp only [List.filter_singleton, he]
        rfl
      · simp only [List.filter_singleton, he]
        rfl

/-- The handlers run as listeners, the callbacks on what they emit. -/
theorem processInterrupt0_eq (now : ℕ) (hs : List Handler) (s : System) :
    processInterrupt0 now hs s =
      { s with receivers := (Listeners.hear interruptHandler now hs s.receivers).1 }.told
        (calls (Listeners.hear interruptHandler now hs s.receivers).2) := by
  induction hs generalizing s with
  | nil => rfl
  | cons h hs ih =>
      rw [processInterrupt0, ih, foldl_callBack, Listeners.hear, calls_append, System.told_append]
      rfl

theorem edges_eq (s : System) (times : List ℕ) :
    s.edges times =
      { s with receivers := Listeners.final interruptHandler chain s.receivers times }.told
        (callsOf .avr chain s.receivers times) := by
  induction times generalizing s with
  | nil => rfl
  | cons t ts ih =>
      have hstep : s.edges (t :: ts) = (processInterrupt0 t chain s).edges ts := rfl
      rw [hstep, ih, processInterrupt0_eq, callsOf_cons, System.told_append, Listeners.final_cons]
      rfl

/-- The callbacks of one receiver. -/
theorem of_calls (h : Handler) (es : List Frame) :
    Listeners.of h (calls es) = callbacks (Listeners.of h es) := by
  induction es with
  | nil => rfl
  | cons e es ih =>
      have hcons : calls (e :: es) = calls [e] ++ calls es := calls_append [e] es
      have hof : Listeners.of h (e :: es) = Listeners.of h [e] ++ Listeners.of h es := by
        rw [← Listeners.of_append, List.singleton_append]
      have hone : Listeners.of h (calls [e]) = callbacks (Listeners.of h [e]) := by
        rcases e with ⟨j, code, b⟩
        by_cases hj : j = h
        · subst hj
          cases b <;> simp [calls, Listeners.of, callbacks, codes]
        · cases b <;> simp [calls, Listeners.of, callbacks, codes, Listeners.eventOf_ne hj]
      rw [hcons, hof, Listeners.of_append, callbacks_append, ih, hone]

/-! ## The lines -/

/-- What a callback prints when the debug level and the message counter are these. -/
def line (debug msgCnt : ℕ) (c : Call) : List String :=
  (Gateway.show { debug := debug, codecs := 0, msgCnt := msgCnt, serial := [], sent := [] } c).serial

def Gateway.printed (g : Gateway) (texts : List String) : Gateway :=
  { g with serial := g.serial ++ texts, msgCnt := Board.avr.uint (g.msgCnt + 1) }

theorem showSwitch_eq (codec name : String) (address unit level : ℕ) (g : Gateway) :
    showSwitch codec name address unit level g =
      g.printed (["< ", toString g.msgCnt, codec, toString address, " ", toString unit, " ",
        toString level] ++ (if 1 ≤ g.debug then [name] else []) ++ ["", "\r\n"]) := by
  unfold showSwitch Gateway.printed
  by_cases hdebug : 1 ≤ g.debug <;>
    simp [Gateway.print, Gateway.println, Gateway.count, hdebug]

/-- Every callback prints its line, counts it, and leaves everything else as it is. -/
theorem show_eq (g : Gateway) (c : Call) : g.show c = g.printed (line g.debug g.msgCnt c) := by
  rcases g with ⟨debug, codecs, msgCnt, serial, sent⟩
  rcases c with ⟨_ | _ | _ | _ | _ | _ | _, code⟩
  · by_cases hdebug : 1 ≤ debug <;>
      simp [Gateway.show, line, callback, showAuriolCode, Gateway.printed, Gateway.print,
        Gateway.println, Gateway.count, hdebug]
  · by_cases hdebug : 1 ≤ debug <;>
      simp [Gateway.show, line, callback, printRemoteCode, Gateway.printed, Gateway.print,
        Gateway.println, Gateway.count, hdebug]
  · rcases code with ⟨period, address, groupBit, switchType, unit, present, dimLevel⟩
    by_cases hdebug : debug = 0 <;> cases groupBit <;> cases switchType <;> cases present <;>
      simp [Gateway.show, line, callback, showKakuCode, Gateway.printed, Gateway.print,
        Gateway.println, Gateway.count, hdebug]
  · simp [Gateway.show, line, callback, showLivoloCode, showSwitch_eq, Gateway.printed]
  · simp [Gateway.show, line, callback, showKopouCode, showSwitch_eq, Gateway.printed]
  · simp [Gateway.show, line, callback, showQuhwaCode, showSwitch_eq, Gateway.printed]
  · rcases code with ⟨sync, address, channel, wconst, temperature, humidity, par⟩
    by_cases hdebug : 1 ≤ debug <;>
      simp only [Gateway.show, line, callback, showWt440Code] <;> split <;>
      simp [Gateway.printed, Gateway.print, Gateway.println, Gateway.count, hdebug]

def lines (debug msgCnt : ℕ) (cs : List Call) : List (List String) :=
  cs.mapIdx fun k c => line debug (Board.avr.uint (msgCnt + k)) c

/-- Counting on from the next number. -/
theorem uint_count (n k : ℕ) :
    Board.avr.uint (Board.avr.uint (n + 1) + k) = Board.avr.uint (n + (k + 1)) := by
  have huint : ∀ n, Board.avr.uint n = n % 65536 := fun _ => rfl
  rw [huint, huint, huint, Nat.mod_add_mod, Nat.add_assoc, Nat.add_comm 1 k]

def Gateway.shown (g : Gateway) (cs : List Call) : Gateway :=
  { g with
    serial := g.serial ++ (lines g.debug g.msgCnt cs).flatten
    msgCnt := Board.avr.uint (g.msgCnt + cs.length) }

theorem foldl_show (g : Gateway) (cs : List Call) (hcnt : g.msgCnt < 65536) :
    cs.foldl Gateway.show g = g.shown cs := by
  unfold Gateway.shown
  induction cs generalizing g with
  | nil => simp [lines, Board.avr.uint_of_lt hcnt]
  | cons c cs ih =>
      have hnext : (g.show c).msgCnt < 65536 := by
        rw [show_eq]
        exact Nat.mod_lt _ (by decide)
      have hlines : lines g.debug g.msgCnt (c :: cs) = line g.debug g.msgCnt c ::
          lines g.debug (Board.avr.uint (g.msgCnt + 1)) cs := by
        simp only [lines, List.mapIdx_cons, Nat.add_zero, Board.avr.uint_of_lt hcnt, uint_count]
      rw [List.foldl_cons, ih _ hnext, show_eq, hlines]
      simp only [Gateway.printed, uint_count, List.flatten_cons, List.append_assoc,
        List.length_cons]

/-- The gateway after some callbacks. -/
theorem System.gateway_told {s : System} (hcnt : s.gateway.msgCnt < 65536) (cs : List Call) :
    (s.told cs).gateway = s.gateway.shown (s.layout.reads s.called cs) := foldl_show _ _ hcnt

/-- Whatever the edges, every receiver does what it would do alone, and the gateway prints one line
for each call of a callback, whole and numbered consecutively, and nothing else. -/
theorem edges_printed (s : System) (times : List ℕ) (hcnt : s.gateway.msgCnt < 65536) :
    ∃ cs : List Call,
      (∀ h, Listeners.of h cs =
        callbacks (Mealy.events (interruptHandler h) (s.receivers h) times)) ∧
      (s.edges times).receivers =
        (fun h => Mealy.final (interruptHandler h) (s.receivers h) times) ∧
      (s.edges times).gateway =
        { s.gateway with
          serial := s.gateway.serial ++
            (lines s.gateway.debug s.gateway.msgCnt (s.layout.reads s.called cs)).flatten
          msgCnt := Board.avr.uint (s.gateway.msgCnt + cs.length) } := by
  refine ⟨callsOf .avr chain s.receivers times, fun h => ?_, ?_, ?_⟩
  · rw [callsOf, of_calls, (Listeners.run_of_mem chain_nodup (mem_chain h) times).2]
  · funext h
    rw [edges_eq]
    exact (Listeners.run_of_mem chain_nodup (mem_chain h) times).1
  · rw [edges_eq]
    refine (System.gateway_told hcnt _).trans ?_
    rw [Gateway.shown, Layout.length_reads]

/-- Two edges, with the message counter just before it wraps. -/
theorem edges_printed_example :
    let s : System := ⟨initReceivers 0 0, ⟨0, 0, 65535, [], []⟩, .same, 0⟩
    ∃ cs : List Call,
      (∀ h, Listeners.of h cs =
        callbacks (Mealy.events (interruptHandler h) (initReceivers 0 0 h) [1800, 2170])) ∧
      (s.edges [1800, 2170]).receivers =
        (fun h => Mealy.final (interruptHandler h) (initReceivers 0 0 h) [1800, 2170]) ∧
      (s.edges [1800, 2170]).gateway =
        ⟨0, 0, Board.avr.uint (65535 + cs.length),
          [] ++ (lines 0 65535 (Layout.same.reads 0 cs)).flatten, []⟩ :=
  edges_printed ⟨initReceivers 0 0, ⟨0, 0, 65535, [], []⟩, .same, 0⟩ [1800, 2170] (by decide)

end ArduinoGateway
end LamPI
