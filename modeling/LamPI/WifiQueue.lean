import LamPI.Library.LinkedList

/-!
# The queue between interrupts and main loop — `wifiQueue.cpp`

`addQueue` is called by the receivers' callbacks, within an interrupt, and appends a link.
`processQueue` is called by the main loop and takes the first link off, in steps between which an
interrupt may come.
-/

namespace LamPI
namespace WifiQueue

open LinkedList

variable {α : Type}

/-! ## The two operations -/

/-- The memory and `QueueChain::queue`. -/
structure QueueChain (α : Type) where
  heap : Heap α
  queue : Option ℕ

/-- `QueueChain::addQueue`, `malloc` having returned the address `p`. -/
inductive AddQueue (p : ℕ) (item : α) (c : QueueChain α) : QueueChain α → Prop
  | first (hqueue : c.queue = none) (hfree : c.heap p = none) :
      AddQueue p item c
        { heap := Function.update c.heap p (some ⟨none, item⟩), queue := some p }
  | behind {q walk : ℕ} {l : Link α} (hqueue : c.queue = some q) (hwalk : Last c.heap q walk)
      (hl : c.heap walk = some l) (hfree : c.heap p = none) :
      AddQueue p item c { c with heap := linkBehind c.heap walk l p item }

/-- How far a call of `QueueChain::processQueue` has come. -/
inductive Pc (α : Type) where
  /-- there is no call -/
  | outside
  /-- `queue` has been read for the test -/
  | test (queue : Option ℕ)
  /-- the test has succeeded -/
  | lock
  /-- `ql` has been set -/
  | locked (ql : ℕ)
  /-- `queue->next` has been read -/
  | unlink (ql : ℕ) (next : Option ℕ)
  /-- `queue` has been written -/
  | unlinked (ql : ℕ)
  /-- the item has been copied to the caller -/
  | copied (ql : ℕ) (item : α)

/-- The queue, the call of the main loop, and what has been returned and added so far. -/
structure System (α : Type) where
  chain : QueueChain α
  pc : Pc α
  returned : List α
  added : List α

/-- The next step of `processQueue`; `none` would be an access through the null pointer or to free
memory. -/
def processQueue (s : System α) : Option (System α) :=
  match s.pc with
  | .outside => some { s with pc := .test s.chain.queue }
  -- `return (-1)`
  | .test none => some { s with pc := .outside }
  | .test (some _) => some { s with pc := .lock }
  | .lock => s.chain.queue.map fun ql => { s with pc := .locked ql }
  | .locked ql => (s.chain.queue.bind s.chain.heap).map fun l =>
      { s with pc := .unlink ql l.next }
  | .unlink ql next =>
      some { s with chain := { s.chain with queue := next }, pc := .unlinked ql }
  | .unlinked ql => (s.chain.heap ql).map fun l => { s with pc := .copied ql l.item }
  -- `free(ql)` and `return (0)`
  | .copied ql item => some
      { s with
        chain := { s.chain with heap := Function.update s.chain.heap ql none }
        pc := .outside
        returned := s.returned ++ [item] }

/-- What may happen next: an interrupt with an item, or a step of the main loop. -/
inductive Event (α : Type) where
  | interrupt (item : α)
  | main

inductive Step (s : System α) : Event α → System α → Prop
  | interrupt (p : ℕ) (item : α) {c : QueueChain α} (hadd : AddQueue p item s.chain c) :
      Step s (.interrupt item) { s with chain := c, added := s.added ++ [item] }
  | main {s' : System α} (hmain : processQueue s = some s') : Step s .main s'

/-- The empty queue at the start of the sketch, whatever memory is allocated. -/
def start (heap : Heap α) : System α := ⟨⟨heap, none⟩, .outside, [], []⟩

inductive Run : List (System α × Event α) → System α → Prop
  | start (heap : Heap α) : Run [] (start heap)
  | step {past : List (System α × Event α)} {s s' : System α} {e : Event α} (h : Run past s)
      (hstep : Step s e s') : Run (past ++ [(s, e)]) s'

/-! ## What is in the queue -/

/-- The item that has left the queue, but has not been returned. -/
def System.removing (s : System α) : List α :=
  match s.pc with
  | .unlinked ql => ((s.chain.heap ql).map Link.item).toList
  | .copied _ item => [item]
  | _ => []

def QueueChain.Holds (c : QueueChain α) (items : List α) : Prop :=
  ∃ ls, Chain c.heap c.queue ls ∧ ls.map Prod.snd = items

/-- The items that have been returned, the one that is being removed and those in the queue are the
items that were added, in their order. -/
def System.Complete (s : System α) : Prop :=
  ∃ items, s.chain.Holds items ∧ s.returned ++ s.removing ++ items = s.added

/-- The link that is being removed still has the `next` that has been read. -/
def System.Timely (s : System α) : Prop :=
  ∀ ql next, s.pc = .unlink ql next → ∃ l, s.chain.heap ql = some l ∧ l.next = next

/-! ## The invariant -/

/-- What the call of `processQueue` knows of the queue, whose links are `ls`.  The `next` that has
been read is out of date if it was null and an interrupt has come since. -/
def Pc.Knows (c : QueueChain α) (ls : List (ℕ × α)) : Pc α → Prop
  | .outside => True
  | .test none => True
  | .test (some _) => c.queue ≠ none
  | .lock => c.queue ≠ none
  | .locked ql => c.queue = some ql
  | .unlink ql next => c.queue = some ql ∧ ∃ l, c.heap ql = some l ∧ (next = none ∨ l.next = next)
  | .unlinked ql => ql ∉ ls.map Prod.fst ∧ ∃ l, c.heap ql = some l
  | .copied ql _ => ql ∉ ls.map Prod.fst ∧ ∃ l, c.heap ql = some l

/-- The queue is a chain, and nothing is lost. -/
structure System.Inv (s : System α) (ls : List (ℕ × α)) : Prop where
  chain : Chain s.chain.heap s.chain.queue ls
  items : s.returned ++ s.removing ++ ls.map Prod.snd = s.added
  knows : s.pc.Knows s.chain ls

variable {s s' : System α} {c c' : QueueChain α} {ls : List (ℕ × α)} {p : ℕ} {item : α}

theorem System.Inv.complete (h : s.Inv ls) : s.Complete := ⟨_, ⟨ls, h.chain, rfl⟩, h.items⟩

theorem inv_start (heap : Heap α) : (start heap).Inv [] := ⟨Chain.nil, rfl, trivial⟩

/-! ## Interrupts -/

/-- `addQueue` appends a link. -/
theorem AddQueue.chain (hadd : AddQueue p item c c') (hc : Chain c.heap c.queue ls) :
    Chain c'.heap c'.queue (ls ++ [(p, item)]) := by
  cases hadd with
  | first hqueue hfree =>
      rw [hqueue] at hc
      cases hc
      exact Chain.cons (Function.update_self _ _ _) Chain.nil
  | behind hqueue hwalk hl hfree =>
      rw [hqueue] at hc ⊢
      exact hc.linkBehind hwalk hl hfree

/-- It is never stuck: the walk along the queue ends. -/
theorem exists_addQueue (hc : Chain c.heap c.queue ls) (hfree : c.heap p = none) (item : α) :
    ∃ c', AddQueue p item c c' := by
  cases hqueue : c.queue with
  | none => exact ⟨_, AddQueue.first hqueue hfree⟩
  | some q =>
      rw [hqueue] at hc
      rcases hc.exists_last_link with ⟨t, l, hlast, hl⟩
      exact ⟨_, AddQueue.behind hqueue hlast hl hfree⟩

theorem AddQueue.free (hadd : AddQueue p item c c') : c.heap p = none := by
  cases hadd with
  | first _ hfree => exact hfree
  | behind _ _ _ hfree => exact hfree

/-- The head of a queue that is not empty stays. -/
theorem AddQueue.queue_eq (hadd : AddQueue p item c c') (hne : c.queue ≠ none) :
    c'.queue = c.queue := by
  cases hadd with
  | first hqueue => exact absurd hqueue hne
  | behind => rfl

/-- Of the links that are there, only the last one of the queue is touched: its null `next` is set
to the new link. -/
theorem AddQueue.link_cases (hadd : AddQueue p item c c') {a : ℕ} {l : Link α}
    (hl : c.heap a = some l) :
    c'.heap a = some l ∨
      (∃ q, c.queue = some q ∧ Last c.heap q a) ∧ l.next = none ∧
        c'.heap a = some { l with next := some p } := by
  have hne : a ≠ p := by
    rintro rfl
    rw [hadd.free] at hl
    cases hl
  cases hadd with
  | first => exact Or.inl ((Function.update_of_ne hne _ _).trans hl)
  | @behind q walk _ hqueue hwalk hwl _ =>
      by_cases hlast : a = walk
      · subst hlast
        rcases hwalk.next_eq_none with ⟨m, hm, hnone⟩
        cases hl.symm.trans hwl
        cases hl.symm.trans hm
        exact Or.inr ⟨⟨q, hqueue, hwalk⟩, hnone, linkBehind_last hne⟩
      · exact Or.inl ((linkBehind_other hne hlast).trans hl)

/-- A link outside the queue is not touched. -/
theorem AddQueue.heap_eq (hadd : AddQueue p item c c') (hc : Chain c.heap c.queue ls) {a : ℕ}
    {l : Link α} (hl : c.heap a = some l) (ha : a ∉ ls.map Prod.fst) : c'.heap a = some l := by
  rcases hadd.link_cases hl with hsame | ⟨⟨q, hqueue, hlast⟩, -, -⟩
  · exact hsame
  · rw [hqueue] at hc
    exact absurd (hlast.mem hc) ha

/-- A link with a next one is not touched. -/
theorem AddQueue.next_eq (hadd : AddQueue p item c c') {a : ℕ} {l : Link α}
    (hl : c.heap a = some l) (hnext : l.next ≠ none) : c'.heap a = some l := by
  rcases hadd.link_cases hl with hsame | ⟨-, hnone, -⟩
  · exact hsame
  · exact absurd hnone hnext

/-- A link is never freed. -/
theorem AddQueue.allocated (hadd : AddQueue p item c c') {a : ℕ} {l : Link α}
    (hl : c.heap a = some l) : ∃ l', c'.heap a = some l' := by
  rcases hadd.link_cases hl with hsame | ⟨-, -, hset⟩
  · exact ⟨l, hsame⟩
  · exact ⟨_, hset⟩

/-- Whatever `processQueue` is doing, an interrupt keeps the invariant. -/
theorem inv_interrupt (h : s.Inv ls) (hadd : AddQueue p item s.chain c) :
    System.Inv { s with chain := c, added := s.added ++ [item] } (ls ++ [(p, item)]) := by
  have hchain := hadd.chain h.chain
  have hp : ∀ {a}, (∃ l, s.chain.heap a = some l) → a ∉ ls.map Prod.fst →
      a ∉ (ls ++ [(p, item)]).map Prod.fst := by
    rintro a ⟨l, hl⟩ ha hmem
    rw [List.map_append, List.mem_append] at hmem
    rcases hmem with hmem | hmem
    · exact ha hmem
    · rw [List.mem_singleton.1 hmem, hadd.free] at hl
      cases hl
  have hitems : ∀ removing, s.returned ++ removing ++ ls.map Prod.snd = s.added →
      s.returned ++ removing ++ (ls ++ [(p, item)]).map Prod.snd = s.added ++ [item] := by
    intro removing heq
    rw [List.map_append, ← List.append_assoc, heq]
    rfl
  have hknows := h.knows
  have hold := h.items
  rcases s with ⟨chain, pc, returned, added⟩
  refine ⟨hchain, ?_, ?_⟩
  · cases pc with
    | unlinked ql =>
        rcases hknows with ⟨hql, l, hl⟩
        have hsame : c.heap ql = chain.heap ql := (hadd.heap_eq h.chain hl hql).trans hl.symm
        simp only [System.removing, hsame] at hold ⊢
        exact hitems _ hold
    | _ => exact hitems _ hold
  · cases pc with
    | outside => trivial
    | test queue =>
        cases queue with
        | none => trivial
        | some q =>
            have hne : chain.queue ≠ none := hknows
            exact (hadd.queue_eq hne).trans_ne hne
    | lock =>
        have hne : chain.queue ≠ none := hknows
        exact (hadd.queue_eq hne).trans_ne hne
    | locked ql =>
        have hq : chain.queue = some ql := hknows
        exact (hadd.queue_eq (by rw [hq]; exact Option.some_ne_none _)).trans hq
    | unlink ql next =>
        rcases hknows with ⟨hq, l, hl, hnext⟩
        refine ⟨(hadd.queue_eq (by rw [hq]; exact Option.some_ne_none _)).trans hq, ?_⟩
        by_cases hnone : l.next = none
        · -- the last link: if it is the one to remove, the next one has been read as null
          rcases hadd.allocated hl with ⟨l', hl'⟩
          refine ⟨l', hl', Or.inl ?_⟩
          rcases hnext with hnext | hnext
          · exact hnext
          · rw [← hnext, hnone]
        · exact ⟨l, hadd.next_eq hl hnone, hnext⟩
    | unlinked ql =>
        rcases hknows with ⟨hql, l, hl⟩
        exact ⟨hp ⟨l, hl⟩ hql, hadd.allocated hl⟩
    | copied ql item' =>
        rcases hknows with ⟨hql, l, hl⟩
        exact ⟨hp ⟨l, hl⟩ hql, hadd.allocated hl⟩

/-! ## Steps of the main loop -/

/-- `processQueue` never goes through the null pointer or to free memory. -/
theorem exists_processQueue (h : s.Inv ls) : ∃ s', processQueue s = some s' := by
  have hknows := h.knows
  unfold processQueue
  rcases s with ⟨⟨heap, queue⟩, pc, returned, added⟩
  -- only three of the steps go through a pointer
  cases pc with
  | lock =>
      rcases Option.ne_none_iff_exists'.1 hknows with ⟨ql, hq⟩
      have hqueue : queue = some ql := hq
      simp [hqueue]
  | locked ql =>
      have hqueue : queue = some ql := hknows
      have hchain := h.chain
      rw [hqueue] at hchain
      cases hchain with
      | cons hp hls =>
          have hheap : heap ql = some _ := hp
          simp [hqueue, hheap]
  | unlinked ql =>
      rcases hknows with ⟨-, l, hl⟩
      have hheap : heap ql = some l := hl
      simp [hheap]
  | test queue => cases queue <;> exact ⟨_, rfl⟩
  | _ => exact ⟨_, rfl⟩

/-- If the `next` that is written to `queue` is still right, the invariant is kept. -/
theorem inv_main (h : s.Inv ls) (htimely : s.Timely) (hmain : processQueue s = some s') :
    ∃ ls', s'.Inv ls' := by
  have hknows := h.knows
  have hchain := h.chain
  have hitems := h.items
  rcases s with ⟨⟨heap, queue⟩, pc, returned, added⟩
  unfold processQueue at hmain
  cases pc with
  -- `queue` is read: if it is not null now, it stays so, for no interrupt removes a link
  | outside =>
      cases hmain
      refine ⟨ls, hchain, hitems, ?_⟩
      cases queue with
      | none => trivial
      | some q => exact Option.some_ne_none q
  | test q =>
      cases q with
      | none =>
          cases hmain
          exact ⟨ls, hchain, hitems, trivial⟩
      | some q =>
          cases hmain
          exact ⟨ls, hchain, hitems, hknows⟩
  | lock =>
      rcases Option.map_eq_some_iff.1 hmain with ⟨ql, hql, rfl⟩
      exact ⟨ls, hchain, hitems, hql⟩
  -- the `next` that is read is the right one at this moment
  | locked ql =>
      rcases Option.map_eq_some_iff.1 hmain with ⟨l, hl, rfl⟩
      have hqueue : queue = some ql := hknows
      rw [hqueue] at hl
      exact ⟨ls, hchain, hitems, hqueue, l, hl, Or.inr rfl⟩
  | unlink ql next =>
      cases hmain
      rcases htimely ql next rfl with ⟨l, hl, hnext⟩
      have hqueue : queue = some ql := hknows.1
      rw [hqueue] at hchain
      cases hchain with
      | @cons _ l' ls hp hls =>
          have hsame : l' = l := Option.some.inj (hp.symm.trans hl)
          subst hsame
          rw [hnext] at hls
          refine ⟨ls, hls, ?_, ?_, _, hp⟩
          · -- the first item of the queue is now the one that is being removed
            have hheap : heap ql = some l' := hp
            simpa [System.removing, hheap] using hitems
          · rw [← hnext] at hls
            exact Chain.head_not_mem hp hls
  | unlinked ql =>
      rcases Option.map_eq_some_iff.1 hmain with ⟨l, hl, rfl⟩
      have hheap : heap ql = some l := hl
      refine ⟨ls, hchain, ?_, hknows⟩
      simpa [System.removing, hheap] using hitems
  -- the removed link is freed, which is not in the queue any more
  | copied ql item =>
      cases hmain
      refine ⟨ls, ?_, ?_, trivial⟩
      · refine hchain.frame ?_
        intro a ha
        have hne : a ≠ ql := by
          rintro rfl
          exact hknows.1 ha
        exact Function.update_of_ne hne _ _
      · simpa [System.removing] using hitems

/-- If it is not, the items behind the removed one are lost. -/
theorem main_loses (h : s.Inv ls) (hlate : ¬s.Timely) (hmain : processQueue s = some s') :
    ¬s'.Complete := by
  have hknows := h.knows
  have hchain := h.chain
  have hitems := h.items
  rcases s with ⟨⟨heap, queue⟩, pc, returned, added⟩
  simp only [System.Timely, not_forall] at hlate
  rcases hlate with ⟨ql, next, hpc, hlate⟩
  have hpc' : pc = .unlink ql next := hpc
  subst hpc'
  cases hmain
  rcases hknows with ⟨hq, l, hl, hnext⟩
  have hqueue : queue = some ql := hq
  have hheap : heap ql = some l := hl
  have hnull : next = none := hnext.resolve_right fun heq => hlate ⟨l, hl, heq⟩
  have hmore : l.next ≠ none := fun heq => hlate ⟨l, hl, heq.trans hnull.symm⟩
  subst hnull
  rw [hqueue] at hchain
  rintro ⟨items, ⟨ls', hchain', rfl⟩, hlost⟩
  cases hchain'
  cases hchain with
  | @cons _ l' ls hp hls =>
      have hsame : l' = l := Option.some.inj (hp.symm.trans hl)
      subst hsame
      generalize l'.next = q at hls hmore
      cases hls with
      | nil => exact hmore rfl
      | cons hp' hls' =>
          -- the queue had another item
          rw [← hlost] at hitems
          have hlen := congrArg List.length hitems
          simp [System.removing, hheap] at hlen

/-! ## Runs -/

variable {past : List (System α × Event α)}

theorem inv_run (h : Run past s) (htimely : ∀ t, (t, Event.main) ∈ past → t.Timely) :
    ∃ ls, s.Inv ls := by
  induction h with
  | start heap => exact ⟨[], inv_start heap⟩
  | @step past s s' e h hstep ih =>
      rcases ih fun t ht => htimely t (List.mem_append_left _ ht) with ⟨ls, hinv⟩
      cases hstep with
      | interrupt p item hadd => exact ⟨_, inv_interrupt hinv hadd⟩
      | main hmain =>
          have hlast : s.Timely := htimely s (List.mem_append_right _ List.mem_cons_self)
          exact inv_main hinv hlast hmain

/-- Nothing is lost in a run exactly if `processQueue` never writes a `next` to `queue` that an
interrupt has changed after it was read. -/
theorem complete_iff_timely (h : Run past s) :
    (s.Complete ∧ ∀ te ∈ past, te.1.Complete) ↔ ∀ t, (t, Event.main) ∈ past → t.Timely := by
  constructor
  · rintro ⟨hs, hpast⟩
    induction h with
    | start heap =>
        intro t ht
        cases ht
    | @step past s s' e h hstep ih =>
        have hbefore := ih (hpast (s, e) (List.mem_append_right _ List.mem_cons_self))
          fun te hte => hpast te (List.mem_append_left _ hte)
        intro t ht
        rcases List.mem_append.1 ht with ht | ht
        · exact hbefore t ht
        · cases List.mem_singleton.1 ht
          -- the first late step would lose an item, and the state after it is not complete
          by_contra hlate
          rcases inv_run h hbefore with ⟨ls, hinv⟩
          cases hstep with
          | main hmain => exact main_loses hinv hlate hmain hs
  · intro htimely
    rcases inv_run h htimely with ⟨ls, hinv⟩
    refine ⟨hinv.complete, ?_⟩
    clear hinv
    induction h with
    | start heap =>
        intro te hte
        cases hte
    | @step past s s' e h hstep ih =>
        have hbefore : ∀ t, (t, Event.main) ∈ past → t.Timely :=
          fun t ht => htimely t (List.mem_append_left _ ht)
        intro te hte
        rcases List.mem_append.1 hte with hte | hte
        · exact ih hbefore te hte
        -- the state before the last step was reached in time
        · rw [List.mem_singleton.1 hte]
          rcases inv_run h hbefore with ⟨ls', hinv'⟩
          exact hinv'.complete

/-- Two items are added, and the first of them is taken off the queue and returned. -/
theorem complete_iff_timely_example :
    ∃ (past : List (System ℕ × Event ℕ)) (s : System ℕ),
      (s.added = [1, 2] ∧ s.returned = [1] ∧ past.length = 9) ∧
      ((s.Complete ∧ ∀ te ∈ past, te.1.Complete) ↔ ∀ t, (t, Event.main) ∈ past → t.Timely) := by
  have hadded := ((Run.start fun _ => none).step (Step.interrupt 0 1 (AddQueue.first rfl rfl))).step
    (Step.interrupt 1 2 (AddQueue.behind rfl (Last.here rfl rfl) rfl rfl))
  have hcall := ((((((hadded.step (Step.main rfl)).step (Step.main rfl)).step
    (Step.main rfl)).step (Step.main rfl)).step (Step.main rfl)).step (Step.main rfl)).step
    (Step.main rfl)
  exact ⟨_, _, ⟨rfl, rfl, rfl⟩, complete_iff_timely hcall⟩

/-- The second item comes after `queue->next` of the first has been read and before `queue` is
written: it is neither returned nor in the queue any more. -/
theorem item_lost :
    ∃ (past : List (System ℕ × Event ℕ)) (s : System ℕ), Run past s ∧
      s.added = [1, 2] ∧ s.returned = [1] ∧ s.chain.queue = none ∧ ¬s.Complete := by
  have hread := (((((Run.start fun _ => none).step
    (Step.interrupt 0 1 (AddQueue.first rfl rfl))).step (Step.main rfl)).step
    (Step.main rfl)).step (Step.main rfl)).step (Step.main rfl)
  have hreturned := (((hread.step
    (Step.interrupt 1 2 (AddQueue.behind rfl (Last.here rfl rfl) rfl rfl))).step
    (Step.main rfl)).step (Step.main rfl)).step (Step.main rfl)
  refine ⟨_, _, hreturned, rfl, rfl, rfl, ?_⟩
  rintro ⟨items, ⟨ls, hchain, rfl⟩, hall⟩
  cases hchain
  exact absurd hall (by decide)

/-! ## Without interrupts -/

def mainLoop : ℕ → System α → Option (System α)
  | 0, s => some s
  | n + 1, s => (processQueue s).bind (mainLoop n)

/-- Without interrupts, `processQueue` returns -1 and leaves an empty queue as it is. -/
theorem mainLoop_empty (hpc : s.pc = .outside) (h : s.chain.Holds []) : mainLoop 2 s = some s := by
  rcases h with ⟨ls, hchain, hitems⟩
  rw [List.map_eq_nil_iff.1 hitems] at hchain
  rcases s with ⟨⟨heap, queue⟩, pc, returned, added⟩
  have hqueue : queue = none := by
    have hnil : Chain heap queue [] := hchain
    cases hnil
    rfl
  have hpc' : pc = .outside := hpc
  subst hqueue hpc'
  rfl

/-- Without interrupts, `processQueue` returns the first item of the queue and takes it off. -/
theorem mainLoop_first {x : α} {xs : List α} (hpc : s.pc = .outside) (h : s.chain.Holds (x :: xs)) :
    ∃ s', mainLoop 7 s = some s' ∧ s'.pc = .outside ∧ s'.chain.Holds xs ∧
      s'.returned = s.returned ++ [x] := by
  rcases h with ⟨ls, hchain, hitems⟩
  rcases s with ⟨⟨heap, queue⟩, pc, returned, added⟩
  have hpc' : pc = .outside := hpc
  subst hpc'
  cases hchain with
  | nil => cases hitems
  -- the head is unlinked, copied and freed; the rest of the chain is untouched
  | @cons p l ls hp hls =>
      rw [List.map_cons, List.cons.injEq] at hitems
      rcases hitems with ⟨hx, hxs⟩
      have hheap : heap p = some l := hp
      refine ⟨⟨⟨Function.update heap p none, l.next⟩, .outside, returned ++ [x], added⟩, ?_, rfl,
        ⟨ls, ?_, hxs⟩, rfl⟩
      · simp [mainLoop, processQueue, hheap, ← hx]
      · refine hls.frame ?_
        intro a ha
        have hne : a ≠ p := by
          rintro rfl
          exact Chain.head_not_mem hp hls ha
        exact Function.update_of_ne hne _ _

/-- `addQueue` appends an item. -/
theorem AddQueue.holds {xs : List α} (hadd : AddQueue p item c c') (h : c.Holds xs) :
    c'.Holds (xs ++ [item]) := by
  rcases h with ⟨ls, hchain, hitems⟩
  refine ⟨ls ++ [(p, item)], hadd.chain hchain, ?_⟩
  rw [List.map_append, hitems]
  rfl

/-! ## Until the queue is empty -/

theorem processQueue_added (hmain : processQueue s = some s') : s'.added = s.added := by
  unfold processQueue at hmain
  split at hmain
  · cases hmain; rfl
  · cases hmain; rfl
  · cases hmain; rfl
  · rcases Option.map_eq_some_iff.1 hmain with ⟨_, -, rfl⟩; rfl
  · rcases Option.map_eq_some_iff.1 hmain with ⟨_, -, rfl⟩; rfl
  · cases hmain; rfl
  · rcases Option.map_eq_some_iff.1 hmain with ⟨_, -, rfl⟩; rfl
  · cases hmain; rfl

/-- How many steps a call has still to go. -/
def Pc.left : Pc α → ℕ
  | .outside => 0
  | .test none => 1
  | .test (some _) => 6
  | .lock => 5
  | .locked _ => 4
  | .unlink _ _ => 3
  | .unlinked _ => 2
  | .copied _ _ => 1

/-- A step of a call leaves one less. -/
theorem processQueue_left (hpc : s.pc ≠ .outside) (hmain : processQueue s = some s') :
    s'.pc.left + 1 = s.pc.left := by
  unfold processQueue at hmain
  split at hmain
  · next hout => exact absurd hout hpc
  · next htest => cases hmain; rw [htest]; rfl
  · next htest => cases hmain; rw [htest]; rfl
  · next hlock => rcases Option.map_eq_some_iff.1 hmain with ⟨_, -, rfl⟩; rw [hlock]; rfl
  · next hlocked => rcases Option.map_eq_some_iff.1 hmain with ⟨_, -, rfl⟩; rw [hlocked]; rfl
  · next hunlink => cases hmain; rw [hunlink]; rfl
  · next hunlinked => rcases Option.map_eq_some_iff.1 hmain with ⟨_, -, rfl⟩; rw [hunlinked]; rfl
  · next hcopied => cases hmain; rw [hcopied]; rfl

/-- What a step has read of the queue is right for the moment. -/
theorem processQueue_timely (h : s.Inv ls) (hmain : processQueue s = some s') : s'.Timely := by
  have hknows := h.knows
  rcases s with ⟨⟨heap, queue⟩, pc, returned, added⟩
  cases pc with
  | locked ql =>
      have hqueue : queue = some ql := hknows
      simp only [processQueue, hqueue, Option.bind_some] at hmain
      rcases Option.map_eq_some_iff.1 hmain with ⟨l, hl, rfl⟩
      intro ql' next heq
      cases heq
      exact ⟨l, hl, rfl⟩
  | test queue' =>
      cases queue' <;> (cases hmain; exact fun _ _ heq => by cases heq)
  | lock =>
      rcases Option.map_eq_some_iff.1 hmain with ⟨_, -, rfl⟩
      exact fun _ _ heq => by cases heq
  | unlinked ql =>
      rcases Option.map_eq_some_iff.1 hmain with ⟨_, -, rfl⟩
      exact fun _ _ heq => by cases heq
  | _ =>
      cases hmain
      exact fun _ _ heq => by cases heq

theorem mainLoop_add (n m : ℕ) (s : System α) :
    mainLoop (n + m) s = (mainLoop n s).bind (mainLoop m) := by
  induction n generalizing s with
  | zero => rw [Nat.zero_add]; rfl
  | succ n ih =>
      rw [Nat.succ_add, mainLoop, mainLoop]
      cases processQueue s with
      | none => rfl
      | some s' => exact ih s'

/-- The call that is in progress ends, if no interrupt comes. -/
theorem exists_outside (h : s.Inv ls) (htimely : s.Timely) :
    ∃ n s' ls', mainLoop n s = some s' ∧ s'.pc = .outside ∧ s'.Inv ls' ∧ s'.added = s.added := by
  generalize hleft : s.pc.left = k
  induction k generalizing s ls with
  | zero =>
      have hpc : s.pc = .outside := by
        rcases hpc : s.pc with _ | (_ | _) | _ | _ | _ | _ | _ <;> rw [hpc] at hleft <;> first
          | rfl
          | cases hleft
      exact ⟨0, s, ls, rfl, hpc, h, rfl⟩
  | succ k ih =>
      have hpc : s.pc ≠ .outside := by
        intro hpc
        rw [hpc] at hleft
        cases hleft
      rcases exists_processQueue h with ⟨s₁, hmain⟩
      rcases inv_main h htimely hmain with ⟨ls₁, hinv⟩
      have hleft₁ := processQueue_left hpc hmain
      rcases ih hinv (processQueue_timely h hmain) (by omega) with ⟨n, s', ls', hrun, hout, hinv', hadded⟩
      refine ⟨n + 1, s', ls', ?_, hout, hinv', hadded.trans (processQueue_added hmain)⟩
      rw [mainLoop, hmain]
      exact hrun

/-- Between two calls, one call for each item returns them all. -/
theorem exists_returned {xs : List α} (hpc : s.pc = .outside) (h : s.chain.Holds xs) :
    ∃ n s', mainLoop n s = some s' ∧ s'.returned = s.returned ++ xs := by
  induction xs generalizing s with
  | nil => exact ⟨0, s, rfl, (List.append_nil _).symm⟩
  | cons x xs ih =>
      rcases mainLoop_first hpc h with ⟨s₁, hfirst, hpc₁, hholds, hreturned⟩
      rcases ih hpc₁ hholds with ⟨n, s', hrun, hall⟩
      refine ⟨7 + n, s', ?_, ?_⟩
      · rw [mainLoop_add, hfirst]
        exact hrun
      · rw [hall, hreturned, List.append_assoc]
        rfl

/-- Everything that has been added is returned in the end. -/
theorem exists_drained (h : s.Inv ls) (htimely : s.Timely) :
    ∃ n s', mainLoop n s = some s' ∧ s'.returned = s.added := by
  rcases exists_outside h htimely with ⟨n, s₁, ls₁, hrun, hpc, hinv, hadded⟩
  rcases exists_returned hpc ⟨ls₁, hinv.chain, rfl⟩ with ⟨m, s', hrest, hreturned⟩
  refine ⟨n + m, s', ?_, ?_⟩
  · rw [mainLoop_add, hrun]
    exact hrest
  · have hitems := hinv.items
    have hremoving : s₁.removing = [] := by rw [System.removing, hpc]
    rw [hremoving, List.append_nil] at hitems
    rw [hreturned, hitems, hadded]

end WifiQueue
end LamPI
