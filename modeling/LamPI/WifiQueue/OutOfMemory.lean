import LamPI.WifiQueue

/-!
# Out of memory — `wifiQueue.cpp` when `malloc` fails

`addQueue` does not look at what `malloc` has returned.  It links the pointer and writes the item
through it, also if it is null.  Here the calls follow one another, no interrupt comes between their
steps.
-/

namespace LamPI
namespace WifiQueue

open LinkedList

variable {α : Type}

/-! ## The calls -/

/-- `ptr->init(item, NULL)`; `none` is an access through the null pointer. -/
def init (heap : Heap α) (ptr : Option ℕ) (item : α) : Option (Heap α) :=
  ptr.map fun p => Function.update heap p (some ⟨none, item⟩)

/-- `QueueChain::addQueue`, `malloc` having returned `ptr`, and what the call leaves behind. -/
inductive AddQueueCall (ptr : Option ℕ) (item : α) (c : QueueChain α) :
    Option (QueueChain α) → Prop
  | first (hqueue : c.queue = none) :
      AddQueueCall ptr item c
        ((init c.heap ptr item).map fun heap => { heap := heap, queue := ptr })
  | behind {q walk : ℕ} {l : Link α} (hqueue : c.queue = some q) (hwalk : Last c.heap q walk)
      (hl : c.heap walk = some l) :
      AddQueueCall ptr item c
        ((init (Function.update c.heap walk (some { l with next := ptr })) ptr item).map
          fun heap => { c with heap := heap })

/-- A whole call of `QueueChain::processQueue` and the item that it returns, if it does not return
-1. -/
def processQueueCall (c : QueueChain α) : Option (QueueChain α × Option α) :=
  match c.queue with
  | none => some (c, none)
  | some ql => (c.heap ql).map fun l =>
      ({ heap := Function.update c.heap ql none, queue := l.next }, some l.item)

inductive Call (α : Type) where
  | addQueue (item : α) (ptr : Option ℕ)
  | processQueue

def Call.Failed : Call α → Prop
  | .addQueue _ ptr => ptr = none
  | .processQueue => False

def Call.allocated : Call α → List α
  | .addQueue item (some _) => [item]
  | _ => []

/-- A call and its outcome, which is `none` if it has gone through the null pointer.  An address
that `malloc` returns is free. -/
inductive CallStep (s : System α) : Call α → Option (System α) → Prop
  | addQueue {item : α} {ptr : Option ℕ} {out : Option (QueueChain α)}
      (hfree : ∀ p, ptr = some p → s.chain.heap p = none)
      (hadd : AddQueueCall ptr item s.chain out) :
      CallStep s (.addQueue item ptr) (out.map fun c =>
        { s with chain := c, added := s.added ++ (Call.addQueue item ptr).allocated })
  | processQueue : CallStep s .processQueue ((processQueueCall s.chain).map fun r =>
      { s with chain := r.1, returned := s.returned ++ r.2.toList })

/-- The runs: the calls, each with the state before it and its outcome, and the last outcome. -/
inductive CallRun : List (System α × Call α × Option (System α)) → Option (System α) → Prop
  | start (heap : Heap α) : CallRun [] (some (start heap))
  | call {past : List (System α × Call α × Option (System α))} {s : System α} {call : Call α}
      {out : Option (System α)} (h : CallRun past (some s)) (hcall : CallStep s call out) :
      CallRun (past ++ [(s, call, out)]) out

/-! ## What the calls are for -/

/-- A call on a queue of items: what is in it afterwards and what is returned.  Without memory,
nothing changes. -/
def Call.fifo (items : List α) : Call α → List α × Option α
  | .addQueue item (some _) => (items ++ [item], none)
  | .addQueue _ none => (items, none)
  | .processQueue => (items.tail, items.head?)

/-- The call goes through no null pointer, does on the list what it is for, and a call without
memory leaves the list as it was. -/
def Intact (s : System α) (call : Call α) (out : Option (System α)) : Prop :=
  ∃ s' items, out = some s' ∧ s.chain.Holds items ∧ s'.chain.Holds (call.fifo items).1 ∧
    s'.returned = s.returned ++ (call.fifo items).2.toList ∧ (call.Failed → s'.chain = s.chain)

variable {s s' : System α} {c : QueueChain α} {call : Call α} {out : Option (System α)} {item : α}
  {items items' : List α} {past : List (System α × Call α × Option (System α))}

/-! ## One call -/

/-- Without memory, `addQueue` goes through the null pointer. -/
theorem addQueueCall_failed {out : Option (QueueChain α)} (h : AddQueueCall none item c out) :
    out = none := by
  cases h with
  | first => rfl
  | behind => rfl

/-- With memory, it is the `addQueue` that an interrupt may call. -/
theorem addQueueCall_allocated {p : ℕ} {out : Option (QueueChain α)} (hfree : c.heap p = none)
    (h : AddQueueCall (some p) item c out) : ∃ c', out = some c' ∧ AddQueue p item c c' := by
  cases h with
  | first hqueue => exact ⟨_, rfl, AddQueue.first hqueue hfree⟩
  | behind hqueue hwalk hl => exact ⟨_, rfl, AddQueue.behind hqueue hwalk hl hfree⟩

/-- `processQueue` as one call takes the steps that the main loop takes. -/
theorem exists_mainLoop (hpc : s.pc = .outside) :
    ∃ n, mainLoop n s = (processQueueCall s.chain).map fun r =>
      { s with chain := r.1, returned := s.returned ++ r.2.toList } := by
  rcases s with ⟨⟨heap, queue⟩, pc, returned, added⟩
  have hpc' : pc = .outside := hpc
  subst hpc'
  cases queue with
  | none => exact ⟨2, by simp [mainLoop, processQueue, processQueueCall]⟩
  | some ql =>
      refine ⟨7, ?_⟩
      cases hql : heap ql with
      | none => simp [mainLoop, processQueue, processQueueCall, hql]
      | some l => simp [mainLoop, processQueue, processQueueCall, hql]

/-- It returns the first item and takes it off. -/
theorem processQueueCall_holds (h : c.Holds items) :
    ∃ c', processQueueCall c = some (c', items.head?) ∧ c'.Holds items.tail := by
  rcases h with ⟨ls, hchain, rfl⟩
  rcases c with ⟨heap, queue⟩
  cases hchain with
  | nil => exact ⟨⟨heap, none⟩, rfl, [], Chain.nil, rfl⟩
  | @cons ql l ls hql hls =>
      have hheap : heap ql = some l := hql
      have hcall : processQueueCall ⟨heap, some ql⟩ =
          some (⟨Function.update heap ql none, l.next⟩, some l.item) := by
        simp [processQueueCall, hheap]
      refine ⟨_, hcall, ls, ?_, rfl⟩
      refine hls.frame fun a ha => Function.update_of_ne ?_ _ _
      rintro rfl
      exact Chain.head_not_mem hql hls ha

theorem QueueChain.Holds.unique (h : c.Holds items) (h' : c.Holds items') : items = items' := by
  rcases h with ⟨ls, hchain, rfl⟩
  rcases h' with ⟨ls', hchain', rfl⟩
  rw [hchain.unique hchain']

/-- A call without memory has no outcome. -/
theorem CallStep.out_of_failed (hcall : CallStep s call out) (hfailed : call.Failed) :
    out = none := by
  cases hcall with
  | addQueue hfree hadd =>
      have hnull : _ = none := hfailed
      subst hnull
      rw [addQueueCall_failed hadd]
      rfl
  | processQueue => exact absurd hfailed not_false

/-- Every other call is what it should be. -/
theorem intact_of_callStep (h : s.chain.Holds items) (hcall : CallStep s call out)
    (hok : ¬call.Failed) : Intact s call out := by
  cases hcall with
  | @addQueue item ptr out hfree hadd =>
      cases ptr with
      | none => exact absurd rfl hok
      | some p =>
          rcases addQueueCall_allocated (hfree p rfl) hadd with ⟨c', rfl, hadd'⟩
          exact ⟨_, items, rfl, h, hadd'.holds h, (List.append_nil _).symm,
            fun hfailed => absurd hfailed hok⟩
  | processQueue =>
      rcases processQueueCall_holds h with ⟨c', hc', hholds⟩
      rw [hc']
      exact ⟨_, items, rfl, h, hholds, rfl, fun hfailed => absurd hfailed hok⟩

/-- What the queue is for loses nothing and keeps the order. -/
theorem fifo_balance (call : Call α) (items : List α) :
    (call.fifo items).2.toList ++ (call.fifo items).1 = items ++ call.allocated := by
  cases call with
  | addQueue item ptr => cases ptr <;> simp [Call.fifo, Call.allocated]
  | processQueue => cases items <;> simp [Call.fifo, Call.allocated]

/-- A call that returns has added the item that got memory. -/
theorem CallStep.added_eq (hcall : CallStep s call (some s')) :
    s'.pc = s.pc ∧ s'.added = s.added ++ call.allocated := by
  generalize hsome : some s' = out at hcall
  cases hcall with
  | addQueue hfree hadd =>
      rcases Option.map_eq_some_iff.1 hsome.symm with ⟨c, -, rfl⟩
      exact ⟨rfl, rfl⟩
  | processQueue =>
      rcases Option.map_eq_some_iff.1 hsome.symm with ⟨r, -, rfl⟩
      exact ⟨rfl, (List.append_nil _).symm⟩

/-- Between the calls, what has been returned and what is in the queue is what has got memory. -/
theorem complete_iff_of_outside (hpc : s.pc = .outside) :
    s.Complete ↔ ∃ items, s.chain.Holds items ∧ s.returned ++ items = s.added := by
  have hremoving : s.removing = [] := by rw [System.removing, hpc]
  rw [System.Complete, hremoving, List.append_nil]

theorem complete_of_intact (hpc : s.pc = .outside) (h : s.Complete)
    (hcall : CallStep s call (some s')) (hintact : Intact s call (some s')) :
    s'.pc = .outside ∧ s'.Complete := by
  rcases hintact with ⟨s'', items, hout, hholds, hholds', hreturned, -⟩
  cases hout
  rcases (complete_iff_of_outside hpc).1 h with ⟨items', hitems', hadded⟩
  cases hitems'.unique hholds
  rcases hcall.added_eq with ⟨hsame, hmore⟩
  have hpc' : s'.pc = .outside := hsame.trans hpc
  refine ⟨hpc', (complete_iff_of_outside hpc').2 ⟨_, hholds', ?_⟩⟩
  calc
    s'.returned ++ (call.fifo items).1
        = s.returned ++ ((call.fifo items).2.toList ++ (call.fifo items).1) := by
          rw [hreturned, List.append_assoc]
    _ = s.added ++ call.allocated := by rw [fifo_balance, ← List.append_assoc, hadded]
    _ = s'.added := hmore.symm

/-! ## All calls -/

/-- As long as no call has gone through the null pointer, nothing is lost. -/
theorem complete_run (h : CallRun past (some s)) : s.pc = .outside ∧ s.Complete := by
  generalize hout : some s = out at h
  induction h generalizing s with
  | start heap =>
      cases hout
      exact ⟨rfl, (inv_start heap).complete⟩
  | call h hcall ih =>
      subst hout
      rcases ih rfl with ⟨hpc, items, hholds, hadded⟩
      have hok : ¬Call.Failed _ := fun hfailed => by cases hcall.out_of_failed hfailed
      exact complete_of_intact hpc ⟨items, hholds, hadded⟩ hcall
        (intact_of_callStep hholds hcall hok)

/-- Every call of a run was made in a state that the run had reached. -/
theorem CallRun.mem (h : CallRun past out) {e : System α × Call α × Option (System α)}
    (he : e ∈ past) : ∃ past', CallRun past' (some e.1) ∧ CallStep e.1 e.2.1 e.2.2 := by
  induction h with
  | start heap => cases he
  | @call past s call out h hcall ih =>
      rcases List.mem_append.1 he with he | he
      · exact ih he
      · cases List.mem_singleton.1 he
        exact ⟨past, h, hcall⟩

/-- No call is stuck, whatever `malloc` returns. -/
theorem exists_callStep (h : CallRun past (some s))
    (hfree : ∀ item p, call = .addQueue item (some p) → s.chain.heap p = none) :
    ∃ out, CallStep s call out := by
  rcases complete_run h with ⟨-, items, ⟨ls, hchain, -⟩, -⟩
  cases call with
  | processQueue => exact ⟨_, CallStep.processQueue⟩
  | addQueue item ptr =>
      have hadd : ∃ out, AddQueueCall ptr item s.chain out := by
        cases hqueue : s.chain.queue with
        | none => exact ⟨_, AddQueueCall.first hqueue⟩
        | some q =>
            rw [hqueue] at hchain
            rcases hchain.exists_last_link with ⟨t, l, hlast, hl⟩
            exact ⟨_, AddQueueCall.behind hqueue hlast hl⟩
      rcases hadd with ⟨out, hadd⟩
      exact ⟨_, CallStep.addQueue (fun p hp => hfree item p (by rw [hp])) hadd⟩

/-- The queue stays intact in a run, and all items that got memory are returned in their order,
exactly if `malloc` never fails. -/
theorem intact_iff_allocated (h : CallRun past out) :
    ((∀ e ∈ past, Intact e.1 e.2.1 e.2.2) ∧ ∃ s, out = some s ∧ s.Complete) ↔
      ∀ e ∈ past, ¬e.2.1.Failed := by
  constructor
  -- a call without memory has no outcome, so it is not intact
  · rintro ⟨hintact, -⟩ e he hfailed
    rcases h.mem he with ⟨_, -, hcall⟩
    rcases hintact e he with ⟨s', _, hout, -⟩
    rw [hcall.out_of_failed hfailed] at hout
    cases hout
  · intro hok
    have hintact : ∀ e ∈ past, Intact e.1 e.2.1 e.2.2 := by
      intro e he
      rcases h.mem he with ⟨_, hbefore, hcall⟩
      rcases complete_run hbefore with ⟨-, items, hholds, -⟩
      exact intact_of_callStep hholds hcall (hok e he)
    -- the last call has returned, so its state is one of the run
    have hend : ∃ s, out = some s := by
      cases h with
      | start heap => exact ⟨_, rfl⟩
      | @call past s call out h hcall =>
          rcases hintact _ (List.mem_append_right past List.mem_cons_self) with ⟨s', _, hout, -⟩
          exact ⟨s', hout⟩
    rcases hend with ⟨s, rfl⟩
    exact ⟨hintact, s, rfl, (complete_run h).2⟩

/-- Two items are added, and both are returned. -/
theorem intact_iff_allocated_example :
    ∃ (past : List (System ℕ × Call ℕ × Option (System ℕ))) (s : System ℕ),
      (s.returned = [1, 2] ∧ past.length = 4) ∧
      (((∀ e ∈ past, Intact e.1 e.2.1 e.2.2) ∧ ∃ t, some s = some t ∧ t.Complete) ↔
        ∀ e ∈ past, ¬e.2.1.Failed) := by
  have hfirst : CallStep (start fun _ => none) (.addQueue 1 (some 0)) _ :=
    CallStep.addQueue (fun _ _ => rfl) (AddQueueCall.first rfl)
  have hsecond : CallStep ⟨⟨Function.update (fun _ => none) 0 (some ⟨none, 1⟩), some 0⟩, .outside,
      [], [1]⟩ (.addQueue 2 (some 1)) _ :=
    CallStep.addQueue (fun p hp => by cases hp; rfl)
      (AddQueueCall.behind rfl (Last.here rfl rfl) rfl)
  have hreturned := ((((CallRun.start fun _ => none).call hfirst).call hsecond).call
    CallStep.processQueue).call CallStep.processQueue
  exact ⟨_, _, ⟨rfl, rfl⟩, intact_iff_allocated hreturned⟩

/-- The first allocation fails: `queue->init` goes through the null pointer. -/
theorem not_intact_out_of_memory :
    ¬∀ (past : List (System ℕ × Call ℕ × Option (System ℕ))) (out : Option (System ℕ)),
      CallRun past out →
        (∀ e ∈ past, Intact e.1 e.2.1 e.2.2) ∧ ∃ s, out = some s ∧ s.Complete := by
  intro h
  have hfirst : CallStep (start fun _ => none) (.addQueue 1 none) _ :=
    CallStep.addQueue (fun p hp => by cases hp) (AddQueueCall.first rfl)
  rcases (h _ _ ((CallRun.start fun _ => none).call hfirst)).2 with ⟨s, hs, -⟩
  cases hs

end WifiQueue
end LamPI
