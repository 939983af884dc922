import LamPI.WifiQueue

/-!
# Printing the queue — `printQueue` of `wifiQueue.cpp`

The main loop walks along the queue from link to link, and interrupts may append items to it in the
meantime.
-/

namespace LamPI
namespace WifiQueue

open LinkedList

variable {α : Type}

/-! ## The walk -/

/-- How far a call of `printQueue` has come. -/
inductive PrintPc where
  /-- it has not begun -/
  | start
  /-- `q` has been set, and is tested next -/
  | walk (q : Option ℕ)
  /-- the item of `q` has been printed -/
  | item (q : ℕ)
  /-- it is over -/
  | finished

/-- The queue, the call of the main loop, and what it has printed and interrupts have added. -/
structure Printing (α : Type) where
  chain : QueueChain α
  pc : PrintPc
  printed : List α
  added : List α

/-- The next step of `printQueue`; `none` would be an access to free memory. -/
def printQueue (s : Printing α) : Option (Printing α) :=
  match s.pc with
  | .start => some { s with pc := .walk s.chain.queue }
  | .walk none => some { s with pc := .finished }
  | .walk (some q) => (s.chain.heap q).map fun l =>
      { s with pc := .item q, printed := s.printed ++ [l.item] }
  | .item q => (s.chain.heap q).map fun l => { s with pc := .walk l.next }
  | .finished => some s

inductive PrintStep (s : Printing α) : Event α → Printing α → Prop
  | interrupt (p : ℕ) (item : α) {c : QueueChain α} (hadd : AddQueue p item s.chain c) :
      PrintStep s (.interrupt item) { s with chain := c, added := s.added ++ [item] }
  | main {s' : Printing α} (hmain : printQueue s = some s') : PrintStep s .main s'

inductive Prints (c : QueueChain α) : Printing α → Prop
  | start : Prints c ⟨c, .start, [], []⟩
  | step {s s' : Printing α} {e : Event α} (h : Prints c s) (hstep : PrintStep s e s') :
      Prints c s'

/-! ## The invariant -/

/-- What the call knows of the queue, whose links are `ls`, when `xs` were in it at the beginning. -/
def PrintPc.Knows (xs printed : List α) (ls : List (ℕ × α)) : PrintPc → Prop
  | .start => printed = []
  | .walk none => xs <+: printed ∧ printed <+: ls.map Prod.snd
  | .walk (some q) => ∃ before x behind, ls = before ++ (q, x) :: behind ∧
      printed = before.map Prod.snd
  | .item q => ∃ before x behind, ls = before ++ (q, x) :: behind ∧
      printed = before.map Prod.snd ++ [x]
  | .finished => xs <+: printed ∧ printed <+: ls.map Prod.snd

structure Printing.Inv (xs : List α) (s : Printing α) (ls : List (ℕ × α)) : Prop where
  chain : Chain s.chain.heap s.chain.queue ls
  items : ls.map Prod.snd = xs ++ s.added
  knows : s.pc.Knows xs s.printed ls

variable {c c' : QueueChain α} {s s' : Printing α} {xs printed : List α} {ls : List (ℕ × α)} {p : ℕ}
  {item : α}

/-- What the call knows stays true when a link is appended. -/
theorem PrintPc.Knows.append {pc : PrintPc} (h : pc.Knows xs printed ls) (link : ℕ × α) :
    pc.Knows xs printed (ls ++ [link]) := by
  have hprefix : printed <+: ls.map Prod.snd → printed <+: (ls ++ [link]).map Prod.snd := by
    intro hprinted
    rw [List.map_append]
    exact hprinted.trans (List.prefix_append _ _)
  cases pc with
  | start => exact h
  | walk q =>
      cases q with
      | none => exact ⟨h.1, hprefix h.2⟩
      | some q =>
          rcases h with ⟨before, x, behind, rfl, hprinted⟩
          exact ⟨before, x, behind ++ [link], by rw [List.append_assoc]; rfl, hprinted⟩
  | item q =>
      rcases h with ⟨before, x, behind, rfl, hprinted⟩
      exact ⟨before, x, behind ++ [link], by rw [List.append_assoc]; rfl, hprinted⟩
  | finished => exact ⟨h.1, hprefix h.2⟩

theorem inv_print_interrupt (h : s.Inv xs ls) (hadd : AddQueue p item s.chain c) :
    Printing.Inv xs { s with chain := c, added := s.added ++ [item] } (ls ++ [(p, item)]) := by
  refine ⟨hadd.chain h.chain, ?_, h.knows.append _⟩
  rw [List.map_append, h.items, List.append_assoc]
  rfl

/-- What is behind a pointer of the chain. -/
theorem knows_walk {heap : Heap α} {q : Option ℕ} {before behind : List (ℕ × α)}
    (hchain : Chain heap q behind) (hls : ls = before ++ behind)
    (hprinted : printed = before.map Prod.snd) (hxs : xs <+: ls.map Prod.snd) :
    (PrintPc.walk q).Knows xs printed ls := by
  cases hchain with
  | nil =>
      rw [List.append_nil] at hls
      subst hls hprinted
      exact ⟨hxs, List.prefix_refl _⟩
  | cons hp hrest => exact ⟨before, _, _, hls, hprinted⟩

/-- A step of the call. -/
theorem inv_print_main (h : s.Inv xs ls) : ∃ s', printQueue s = some s' ∧ s'.Inv xs ls := by
  have hchain := h.chain
  have hknows := h.knows
  have hitems := h.items
  have hxs : xs <+: ls.map Prod.snd := ⟨s.added, hitems.symm⟩
  rcases s with ⟨⟨heap, queue⟩, pc, printed, added⟩
  cases pc with
  | start =>
      refine ⟨_, rfl, hchain, hitems, ?_⟩
      have hls : ls = [] ++ ls := rfl
      exact knows_walk hchain hls hknows hxs
  | walk q =>
      cases q with
      | none => exact ⟨_, rfl, hchain, hitems, hknows⟩
      | some q =>
          rcases hknows with ⟨before, x, behind, rfl, hprinted⟩
          rcases Chain.middle hchain with ⟨l, hl, hitem, -⟩
          have hheap : heap q = some l := hl
          refine ⟨⟨⟨heap, queue⟩, .item q, printed ++ [l.item], added⟩, by simp [printQueue, hheap],
            hchain, hitems, ?_⟩
          exact ⟨before, x, behind, rfl, by rw [hitem]; exact congrArg (· ++ [x]) hprinted⟩
  | item q =>
      rcases hknows with ⟨before, x, behind, rfl, hprinted⟩
      rcases Chain.middle hchain with ⟨l, hl, -, hbehind⟩
      have hheap : heap q = some l := hl
      refine ⟨⟨⟨heap, queue⟩, .walk l.next, printed, added⟩, by simp [printQueue, hheap],
        hchain, hitems, ?_⟩
      have hls : before ++ (q, x) :: behind = (before ++ [(q, x)]) ++ behind := by
        rw [List.append_assoc]
        rfl
      have hprinted' : printed = (before ++ [(q, x)]).map Prod.snd := by
        rw [List.map_append]
        exact hprinted
      exact knows_walk hbehind hls hprinted' hxs
  | finished => exact ⟨_, rfl, hchain, hitems, hknows⟩

theorem inv_prints (hc : c.Holds xs) (h : Prints c s) : ∃ ls, s.Inv xs ls := by
  induction h with
  | start =>
      rcases hc with ⟨ls, hchain, hitems⟩
      exact ⟨ls, hchain, by rw [hitems]; exact (List.append_nil xs).symm, rfl⟩
  | @step s s' e h hstep ih =>
      rcases ih with ⟨ls, hinv⟩
      cases hstep with
      | interrupt p item hadd => exact ⟨_, inv_print_interrupt hinv hadd⟩
      | main hmain =>
          rcases inv_print_main hinv with ⟨s'', hmain', hinv'⟩
          cases hmain.symm.trans hmain'
          exact ⟨ls, hinv'⟩

/-- Whatever interrupts come, `printQueue` never follows a pointer to free memory.  What it prints
are the first items of the queue in their order, when it is over at least those that were there when
it began; and all items that interrupts add are in the queue. -/
theorem prints_queue (hc : c.Holds xs) (h : Prints c s) :
    (∃ s', printQueue s = some s') ∧ s.chain.Holds (xs ++ s.added) ∧
      s.printed <+: xs ++ s.added ∧ (s.pc = .finished → xs <+: s.printed) := by
  rcases inv_prints hc h with ⟨ls, hinv⟩
  rcases inv_print_main hinv with ⟨s', hmain, -⟩
  have hknows := hinv.knows
  refine ⟨⟨s', hmain⟩, ⟨ls, hinv.chain, hinv.items⟩, ?_, ?_⟩
  · rw [← hinv.items]
    rcases hpc : s.pc with _ | (_ | q) | q | _ <;> rw [hpc] at hknows
    · have hnil : s.printed = [] := hknows
      rw [hnil]
      exact List.nil_prefix
    · exact hknows.2
    · rcases hknows with ⟨before, x, behind, rfl, hprinted⟩
      rw [hprinted, List.map_append]
      exact List.prefix_append _ _
    · rcases hknows with ⟨before, x, behind, rfl, hprinted⟩
      refine ⟨behind.map Prod.snd, ?_⟩
      rw [hprinted, List.map_append, List.append_assoc]
      rfl
    · exact hknows.2
  · intro hpc
    rw [hpc] at hknows
    exact hknows.1

/-- An item that comes while the one before it is printed is printed as well. -/
theorem prints_queue_example :
    ∃ (c : QueueChain ℕ) (s : Printing ℕ), (c.Holds [1] ∧ Prints c s) ∧
      (s.added = [2] ∧ s.printed = [1, 2] ∧ s.pc = .finished) ∧
      (∃ s', printQueue s = some s') ∧ s.chain.Holds ([1] ++ s.added) ∧
        s.printed <+: [1] ++ s.added ∧ (s.pc = .finished → [1] <+: s.printed) := by
  have hc : QueueChain.Holds ⟨fun p => if p = 0 then some ⟨none, 1⟩ else none, some 0⟩ [1] :=
    ⟨[(0, 1)], Chain.cons (l := ⟨none, 1⟩) rfl .nil, rfl⟩
  have hstart : Prints ⟨fun p => if p = 0 then some ⟨none, 1⟩ else none, some 0⟩ _ := .start
  have hwalk := (hstart.step (.main rfl)).step (.main rfl)
  have hadded := hwalk.step (.interrupt 1 2 (.behind rfl (Last.here rfl rfl) rfl rfl))
  have hfinished := (((hadded.step (.main rfl)).step (.main rfl)).step (.main rfl)).step (.main rfl)
  exact ⟨_, _, ⟨hc, hfinished⟩, ⟨rfl, rfl, rfl⟩, prints_queue hc hfinished⟩

end WifiQueue
end LamPI
