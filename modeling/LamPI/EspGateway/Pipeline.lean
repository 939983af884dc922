import LamPI.ArduinoGateway.Receivers
import LamPI.EspGateway.Handsets
import LamPI.EspGateway.Sensors
import LamPI.WifiQueue

/-!
# From the receivers to the main loop — `ESP-Gateway.ino`

The interrupt runs the handlers of six receivers, whose callbacks add items to the queue.  The main
loop takes them off in single steps, between which the interrupt may come.
-/

namespace LamPI
namespace EspGateway

open ArduinoGateway (Handler Layout callsOf callsOf_append callsOf_cons of_calls)

/-! ## The receivers -/

abbrev interruptHandler : (h : Handler) → h.State → ℕ → h.State × Option (Completion h.Code) :=
  Handler.interruptHandler .esp8266

/-- The chain of the interrupt, the handler added last first.  The Kopou receiver is not compiled. -/
def chain : List Handler := [.quhwa, .livolo, .kaku, .remote, .auriol, .wt440]

theorem chain_nodup : chain.Nodup := by decide

/-! ## Callbacks -/

/-- An item as a callback has left it; those of the handsets may have members that are not set. -/
inductive Item where
  | full (item : QueueItem)
  | raw (item : RawItem)

def showAuriolCode (queue : List QueueItem) (receivedCode : Auriol.Code) : List QueueItem :=
  let item : QueueItem :=
    { gaddr := receivedCode.address, uaddr := receivedCode.channel,
      val := .value (float (float receivedCode.temperature / 10)), action := "sensor",
      cmd := "auriol", message := "temperature" }
  queue ++ [item]

def items : ArduinoGateway.Call → List Item
  | ⟨.auriol, c⟩ => (showAuriolCode [] c).map .full
  | ⟨.remote, c⟩ => (showRemoteCode [] c.code c.period).map .full
  | ⟨.kaku, c⟩ => (showKakuCode [] c).map .raw
  | ⟨.livolo, c⟩ => (showLivoloCode [] c).map .raw
  | ⟨.kopou, _⟩ => []
  | ⟨.quhwa, c⟩ => (showQuhwaCode [] c).map .raw
  | ⟨.wt440, c⟩ => (showWt440Code [] c).map .full

/-! ## The system -/

namespace Pipeline

/-- The static variables of the receivers, the queue with the main loop, and how often a callback has
been called. -/
structure System where
  receivers : (h : Handler) → h.State
  queue : WifiQueue.System Item
  layout : Layout
  called : ℕ

/-- An edge on the receiver's pin, or a step of `processQueue`. -/
inductive Event where
  | edge (now : ℕ)
  | main
  deriving DecidableEq, Repr

/-- The items are added one after the other, `malloc` returning any free addresses. -/
inductive AddItems : List Item → WifiQueue.System Item → WifiQueue.System Item → Prop
  | nil (q : WifiQueue.System Item) : AddItems [] q q
  | cons {item : Item} {rest : List Item} {q q₁ q' : WifiQueue.System Item}
      (hadd : WifiQueue.Step q (.interrupt item) q₁) (hrest : AddItems rest q₁ q') :
      AddItems (item :: rest) q q'

def System.calls (s : System) (now : ℕ) : List ArduinoGateway.Call :=
  ArduinoGateway.calls (Listeners.hear interruptHandler now chain s.receivers).2

def System.added (s : System) (now : ℕ) : List Item :=
  (s.layout.reads s.called (s.calls now)).flatMap items

/-- One step of the system.  The interrupt is not interrupted. -/
inductive Step (s : System) : Event → System → Prop
  | edge (now : ℕ) {q : WifiQueue.System Item} (hadd : AddItems (s.added now) s.queue q) :
      Step s (.edge now)
        { s with
          receivers := (Listeners.hear interruptHandler now chain s.receivers).1
          queue := q
          called := s.called + (s.calls now).length }
  | main {q : WifiQueue.System Item} (hmain : WifiQueue.processQueue s.queue = some q) :
      Step s .main { s with queue := q }

/-- The runs of the system: the states passed, each with what happened in it, and the state
reached. -/
inductive Run (receivers : (h : Handler) → h.State) : List (System × Event) → System → Prop
  | start (heap : LinkedList.Heap Item) (layout : Layout) :
      Run receivers [] ⟨receivers, WifiQueue.start heap, layout, 0⟩
  | step {past : List (System × Event)} {s s' : System} {e : Event} (h : Run receivers past s)
      (hstep : Step s e s') : Run receivers (past ++ [(s, e)]) s'

def times (past : List (System × Event)) : List ℕ :=
  past.filterMap fun te =>
    match te.2 with
    | .edge now => some now
    | .main => none

variable {receivers : (h : Handler) → h.State} {past : List (System × Event)} {s : System}

/-! ## The receivers by themselves -/

theorem AddItems.added_eq {is : List Item} {q q' : WifiQueue.System Item} (h : AddItems is q q') :
    q'.added = q.added ++ is := by
  induction h with
  | nil q => exact (List.append_nil _).symm
  | @cons item rest q q₁ q' hadd hrest ih =>
      cases hadd with
      | interrupt p item hadd =>
          rw [ih, List.append_assoc]
          rfl

/-- The receivers run as if there were no queue, and what has been added to it is what their callbacks
have added. -/
theorem Run.added_eq (h : Run receivers past s) :
    s.receivers = Listeners.final interruptHandler chain receivers (times past) ∧
      s.called = (callsOf .esp8266 chain receivers (times past)).length ∧
      s.queue.added =
        (s.layout.reads 0 (callsOf .esp8266 chain receivers (times past))).flatMap items := by
  induction h with
  | start heap layout => exact ⟨rfl, rfl, rfl⟩
  | @step past s s' e h hstep ih =>
      rcases ih with ⟨hreceivers, hcalled, hadded⟩
      have htimes : times (past ++ [(s, e)]) = times past ++ times [(s, e)] := List.filterMap_append
      rw [htimes]
      cases hstep with
      | @edge now q hadd =>
          have hedge : times [(s, Event.edge now)] = [now] := rfl
          have hcalls : callsOf .esp8266 chain receivers (times past ++ [now]) =
              callsOf .esp8266 chain receivers (times past) ++ s.calls now := by
            rw [callsOf_append, ← hreceivers, callsOf_cons]
            exact congrArg _ (List.append_nil _)
          rw [hedge, hcalls, Listeners.final_append, ← hreceivers, List.length_append, ← hcalled,
            Layout.reads_append, List.flatMap_append, ← hadded, ← hcalled, Nat.zero_add]
          exact ⟨rfl, rfl, hadd.added_eq⟩
      | main hmain =>
          have hnone : times [(s, Event.main)] = [] := rfl
          rw [hnone, List.append_nil]
          exact ⟨hreceivers, hcalled, (WifiQueue.processQueue_added hmain).trans hadded⟩

/-! ## The queue by itself -/

/-- Items that are added are interrupts of the queue. -/
theorem AddItems.run {is : List Item} {q q' : WifiQueue.System Item}
    {before : List (WifiQueue.System Item × WifiQueue.Event Item)} (h : AddItems is q q')
    (hrun : WifiQueue.Run before q) :
    ∃ after, WifiQueue.Run (before ++ after) q' ∧ ∀ t, (t, WifiQueue.Event.main) ∉ after := by
  induction h generalizing before with
  | nil q => exact ⟨[], by rwa [List.append_nil], fun t => List.not_mem_nil⟩
  | @cons item rest q q₁ q' hadd hrest ih =>
      rcases ih (hrun.step hadd) with ⟨after, hrun', hnone⟩
      refine ⟨(q, .interrupt item) :: after, ?_, fun t ht => ?_⟩
      · rwa [List.append_assoc] at hrun'
      · rcases List.mem_cons.1 ht with heq | ht
        · cases heq
        · exact hnone t ht

/-- The queue runs as if there were no receivers. -/
theorem Run.queue (h : Run receivers past s) :
    ∃ before, WifiQueue.Run before s.queue ∧
      ∀ t, (t, WifiQueue.Event.main) ∈ before → ∃ u, (u, Event.main) ∈ past ∧ u.queue = t := by
  induction h with
  | start heap layout =>
      exact ⟨[], WifiQueue.Run.start heap, fun t ht => absurd ht List.not_mem_nil⟩
  | @step past s s' e h hstep ih =>
      rcases ih with ⟨before, hrun, hmains⟩
      have hearlier : ∀ t, (t, WifiQueue.Event.main) ∈ before →
          ∃ u, (u, Event.main) ∈ past ++ [(s, e)] ∧ u.queue = t := fun t ht => by
        rcases hmains t ht with ⟨u, hu, heq⟩
        exact ⟨u, List.mem_append_left _ hu, heq⟩
      cases hstep with
      | edge now hadd =>
          rcases hadd.run hrun with ⟨after, hrun', hnone⟩
          refine ⟨before ++ after, hrun', fun t ht => ?_⟩
          exact hearlier t ((List.mem_append.1 ht).resolve_right (hnone t))
      | main hmain =>
          refine ⟨before ++ [(s.queue, .main)], hrun.step (WifiQueue.Step.main hmain), fun t ht => ?_⟩
          rcases List.mem_append.1 ht with ht | ht
          · exact hearlier t ht
          · cases List.mem_singleton.1 ht
            exact ⟨s, List.mem_append_right _ List.mem_cons_self, rfl⟩

/-! ## Nothing is lost on the way -/

/-- Every receiver makes the callbacks that it would make alone.  As long as the main loop never
writes a `next` to `queue` that an interrupt has changed after it was read, the main loop has got the
items of these callbacks, as the sketch reads them, up to some point, in their order; the others are in
the queue, and it gets them too as soon as no more edges come. -/
theorem items_arrive (h : Run receivers past s) :
    ∃ cs : List ArduinoGateway.Call,
      (∀ h ∈ chain, s.receivers h = Mealy.final (interruptHandler h) (receivers h) (times past) ∧
        Listeners.of h cs =
          callbacks (Mealy.events (interruptHandler h) (receivers h) (times past))) ∧
      ((∀ t, (t, Event.main) ∈ past → t.queue.Timely) →
        (∃ waiting, s.queue.chain.Holds waiting ∧
          s.queue.returned ++ s.queue.removing ++ waiting =
            (s.layout.reads 0 cs).flatMap items) ∧
        (s.queue.Timely → ∃ n q, WifiQueue.mainLoop n s.queue = some q ∧
          q.returned = (s.layout.reads 0 cs).flatMap items)) := by
  rcases h.added_eq with ⟨hreceivers, -, hadded⟩
  refine ⟨callsOf .esp8266 chain receivers (times past), fun k hk => ?_, fun htimely => ?_⟩
  · rw [hreceivers, callsOf, of_calls]
    exact ⟨(Listeners.run_of_mem chain_nodup hk (times past)).1,
      congrArg callbacks (Listeners.run_of_mem chain_nodup hk (times past)).2⟩
  · rcases h.queue with ⟨before, hrun, hmains⟩
    have hinv := WifiQueue.inv_run hrun fun t ht => by
      rcases hmains t ht with ⟨u, hu, rfl⟩
      exact htimely u hu
    rcases hinv with ⟨ls, hinv⟩
    rw [← hadded]
    exact ⟨hinv.complete, WifiQueue.exists_drained hinv⟩

/-- An Auriol receiver that has read all bits of a frame but the last, for the second time. -/
def lastBit : (h : Handler) → h.State :=
  Function.update (ArduinoGateway.initReceivers 0 0) .auriol
    { enabled := true
      edge2 := 0
      decoder :=
        { state := 63
          receivedCode := Auriol.emptyCode
          filter :=
            { minRepeats := 2, inCallback := false, previousCode := Auriol.emptyCode,
              repeats := 1 } } }

def reading : Item :=
  .full
    { gaddr := 0, uaddr := 0, val := .value (float (float (0 : ℤ) / 10)), action := "sensor",
      cmd := "auriol", message := "temperature" }

theorem silent_lastBit {j : Handler} (hj : j ≠ .auriol) :
    Mealy.events (interruptHandler j) (lastBit j) [2000] = [] := by
  cases j with
  | auriol => exact absurd rfl hj
  | remote => rfl
  | kaku => rfl
  | livolo => rfl
  | kopou => rfl
  | quhwa => rfl
  | wt440 => rfl

/-- A space of 2 ms completes the frame. -/
theorem added_lastBit (q : WifiQueue.System Item) (layout : Layout) :
    (System.mk lastBit q layout 0).added 2000 = [reading] := by
  have hevents : Listeners.events interruptHandler chain lastBit [2000] =
      (Mealy.events (interruptHandler .auriol) (lastBit .auriol) [2000]).map (Sigma.mk .auriol) :=
    Listeners.events_of_silent chain_nodup (by decide) fun j _ hj => silent_lastBit hj
  rw [Listeners.events_cons, Listeners.events_nil, List.append_nil] at hevents
  have hauriol : Mealy.events (interruptHandler .auriol) (lastBit .auriol) [2000] =
      [⟨Auriol.emptyCode, true⟩] := by rfl
  rw [System.added, System.calls, hevents, hauriol]
  rfl

/-- The temperature of the sensor is queued and taken off the queue. -/
theorem items_arrive_example :
    ∃ past s, Run lastBit past s ∧ past.length = 8 ∧
      s.queue.returned = [reading] ∧
      ∃ cs : List ArduinoGateway.Call,
        (∀ h ∈ chain, s.receivers h = Mealy.final (interruptHandler h) (lastBit h) (times past) ∧
          Listeners.of h cs =
            callbacks (Mealy.events (interruptHandler h) (lastBit h) (times past))) ∧
        ((∀ t, (t, Event.main) ∈ past → t.queue.Timely) →
          (∃ waiting, s.queue.chain.Holds waiting ∧
            s.queue.returned ++ s.queue.removing ++ waiting =
              (s.layout.reads 0 cs).flatMap items) ∧
          (s.queue.Timely → ∃ n q, WifiQueue.mainLoop n s.queue = some q ∧
            q.returned = (s.layout.reads 0 cs).flatMap items)) := by
  have hone : AddItems [reading] (WifiQueue.start fun _ => none) _ :=
    AddItems.cons (WifiQueue.Step.interrupt 0 reading (WifiQueue.AddQueue.first rfl rfl))
      (AddItems.nil _)
  have hadd := added_lastBit (WifiQueue.start fun _ => none) .same ▸ hone
  have hedge := (@Run.start lastBit (fun _ => none) .same).step (Step.edge 2000 hadd)
  have hmain := ((((((hedge.step (Step.main rfl)).step (Step.main rfl)).step (Step.main rfl)).step
    (Step.main rfl)).step (Step.main rfl)).step (Step.main rfl)).step (Step.main rfl)
  exact ⟨_, _, hmain, rfl, rfl, items_arrive hmain⟩

end Pipeline
end EspGateway
end LamPI
