import LamPI.Library.LinkedList
import Mathlib.Data.List.Induction

/-!
# The chain of interrupt handlers — `InterruptChain.cpp`

Each interrupt has a chain of callbacks, and `addInterruptCallback` puts a link in front of it.  It
also enables the interrupt; so whoever adds a second callback does it while the interrupt may come,
between any two steps of the call.
-/

namespace LamPI
namespace InterruptChain

open LinkedList

variable {κ : Type}

/-! ## The calls and the interrupts -/

def MAX_INTERRUPTS : ℕ := 6

abbrev Nr : Type := Fin MAX_INTERRUPTS

/-- Interrupt 0, to which the sketches add their receivers. -/
def interrupt0 : Nr := ⟨0, by decide⟩

def lowMode : ℕ := 0

inductive Call (κ : Type) where
  | setMode (interruptNr : Nr) (modeIn : ℕ)
  | addInterruptCallback (interruptNr : Nr) (callback : κ)
  | delInterruptCallback (interruptNr : Nr) (callback : κ)
  | enable (interruptNr : Nr)
  | disable (interruptNr : Nr)

/-- The memory, the static variables of the class, and for each interrupt the mode with which its
`processInterrupt` is attached. -/
structure Chains (κ : Type) where
  heap : Heap κ
  chain : Nr → Option ℕ
  mode : Nr → ℕ
  attached : Nr → Option ℕ

inductive Pc (κ : Type) where
  /-- there is no call -/
  | outside
  /-- `prevLink` has been read -/
  | read (interruptNr : Nr) (callback : κ) (prevLink : Option ℕ)
  /-- `chain[interruptNr]` points to what `malloc` has returned -/
  | linked (interruptNr : Nr) (callback : κ) (prevLink : Option ℕ) (p : ℕ)
  /-- `init` has written the callback, and not yet `next` -/
  | init (interruptNr : Nr) (callback : κ) (prevLink : Option ℕ) (p : ℕ)
  /-- `init` is over -/
  | ready (interruptNr : Nr)

structure System (κ : Type) where
  chains : Chains κ
  pc : Pc κ

/-- `enable`; the interrupt is attached with the mode that is set now. -/
def Chains.enable (c : Chains κ) (n : Nr) : Chains κ :=
  { c with attached := Function.update c.attached n (some (c.mode n)) }

def Chains.disable (c : Chains κ) (n : Nr) : Chains κ :=
  { c with attached := Function.update c.attached n none }

def Chains.setMode (c : Chains κ) (n : Nr) (modeIn : ℕ) : Chains κ :=
  { c with mode := Function.update c.mode n modeIn }

/-- The main program calls a function.  The body of `delInterruptCallback` is that of
`addInterruptCallback`. -/
def call (s : System κ) : Call κ → System κ
  | .setMode n modeIn => { s with chains := s.chains.setMode n modeIn }
  | .addInterruptCallback n callback => { s with pc := .read n callback (s.chains.chain n) }
  | .delInterruptCallback n callback => { s with pc := .read n callback (s.chains.chain n) }
  | .enable n => { s with chains := s.chains.enable n }
  | .disable n => { s with chains := s.chains.disable n }

/-- The next step of `addInterruptCallback`; `p` is what `malloc` returns.  What a link holds before
its `init` is over is not defined: the heap has no link there. -/
def addInterruptCallback (p : ℕ) (s : System κ) : System κ :=
  match s.pc with
  | .outside => s
  | .read n callback prevLink =>
      { chains := { s.chains with chain := Function.update s.chains.chain n (some p) }
        pc := .linked n callback prevLink p }
  | .linked n callback prevLink p => { s with pc := .init n callback prevLink p }
  | .init n callback prevLink p =>
      { chains :=
          { s.chains with heap := Function.update s.chains.heap p (some ⟨prevLink, callback⟩) }
        pc := .ready n }
  | .ready n => { chains := s.chains.enable n, pc := .outside }

inductive Event (κ : Type) where
  /-- the main program calls a function -/
  | call (c : Call κ)
  /-- a step of the call -/
  | main (p : ℕ)
  /-- an interrupt -/
  | interrupt (interruptNr : Nr)

/-- One step of the system.  An interrupt comes if it is attached, and walks along its chain without
changing it. -/
inductive Step (s : System κ) : Event κ → System κ → Prop
  | call (c : Call κ) (hpc : s.pc = .outside) : Step s (.call c) (call s c)
  | main {p : ℕ} (hpc : s.pc ≠ .outside)
      (hfree : ∀ n callback prevLink, s.pc = .read n callback prevLink → s.chains.heap p = none) :
      Step s (.main p) (addInterruptCallback p s)
  | interrupt {n : Nr} {mode : ℕ} (hattached : s.chains.attached n = some mode) :
      Step s (.interrupt n) s

/-- The static variables at the start of the sketch, whatever memory is allocated. -/
def start (heap : Heap κ) : System κ :=
  { chains :=
      { heap := heap, chain := fun _ => none, mode := fun _ => lowMode, attached := fun _ => none }
    pc := .outside }

/-- The runs of the system: what has happened, and the state reached. -/
inductive Run : List (Event κ) → System κ → Prop
  | start (heap : Heap κ) : Run [] (start heap)
  | step {past : List (Event κ)} {s s' : System κ} {e : Event κ} (h : Run past s)
      (hstep : Step s e s') : Run (past ++ [e]) s'

/-! ## What an interrupt calls -/

/-- The loop of `processInterrupt0` to `processInterrupt5` calls `callbacks`, one after the other, and
ends. -/
def Chains.Calls (c : Chains κ) (n : Nr) (callbacks : List κ) : Prop :=
  ∃ ls, Chain c.heap (c.chain n) ls ∧ ls.map Prod.snd = callbacks

/-- The call in progress has linked memory that it has not initialised. -/
def Pc.Linking (n : Nr) : Pc κ → Prop
  | .linked m _ _ _ => m = n
  | .init m _ _ _ => m = n
  | _ => False

def Pc.adding (n : Nr) : Pc κ → List κ
  | .read m callback _ => if m = n then [callback] else []
  | .linked m callback _ _ => if m = n then [callback] else []
  | .init m callback _ _ => if m = n then [callback] else []
  | _ => []

def Call.callback (n : Nr) : Call κ → List κ
  | .addInterruptCallback m callback => if m = n then [callback] else []
  | .delInterruptCallback m callback => if m = n then [callback] else []
  | _ => []

/-- The callbacks that calls for the interrupt `n` have been about, in their order. -/
def added (n : Nr) (es : List (Event κ)) : List κ :=
  es.flatMap fun
    | .call c => c.callback n
    | _ => []

theorem added_concat (n : Nr) (es : List (Event κ)) (e : Event κ) :
    added n (es ++ [e]) = added n es ++ added n [e] := List.flatMap_append

/-! ## The invariant -/

/-- The chain of `m` begins with the link `p`, which is not initialised, and from `prevLink` on there
are the links that it had before; the other chains are as they were. -/
structure Chains.Unlinked (c : Chains κ) (n m : Nr) (prevLink : Option ℕ) (p : ℕ)
    (ls : List (ℕ × κ)) : Prop where
  free : c.heap p = none
  first : m = n → c.chain n = some p
  behind : m = n → Chain c.heap prevLink ls
  other : m ≠ n → Chain c.heap (c.chain n) ls

def Pc.Knows (c : Chains κ) (n : Nr) (ls : List (ℕ × κ)) : Pc κ → Prop
  | .outside => Chain c.heap (c.chain n) ls
  | .read m _ prevLink => Chain c.heap (c.chain n) ls ∧ (m = n → prevLink = c.chain n)
  | .linked m _ prevLink p => c.Unlinked n m prevLink p ls
  | .init m _ prevLink p => c.Unlinked n m prevLink p ls
  | .ready _ => Chain c.heap (c.chain n) ls

/-- The links of `n` are those of the callbacks that have been added, the last one first. -/
def System.Inv (s : System κ) (es : List (Event κ)) (n : Nr) : Prop :=
  ∃ ls, s.pc.Knows s.chains n ls ∧ s.pc.adding n ++ ls.map Prod.snd = (added n es).reverse

variable {s s' : System κ} {es : List (Event κ)} {n : Nr}

theorem inv_start (heap : Heap κ) : (start heap).Inv [] n := ⟨[], Chain.nil, rfl⟩

/-- A call that has just begun has changed nothing but the modes. -/
theorem inv_call (h : s.Inv es n) (hpc : s.pc = .outside) (c : Call κ) :
    (call s c).Inv (es ++ [.call c]) n := by
  rcases s with ⟨chains, pc⟩
  obtain rfl : pc = .outside := hpc
  rcases h with ⟨ls, hchain, hitems⟩
  have hadded : (added n (es ++ [.call c])).reverse =
      (c.callback n).reverse ++ (added n es).reverse := by
    rw [added_concat, List.reverse_append]
    simp [added]
  rw [System.Inv, hadded, ← hitems]
  cases c with
  | setMode m modeIn => exact ⟨ls, hchain, rfl⟩
  | addInterruptCallback m callback =>
      refine ⟨ls, ⟨hchain, fun hm => congrArg chains.chain hm⟩, ?_⟩
      by_cases hm : m = n <;> simp [call, Pc.adding, Call.callback, hm]
  | delInterruptCallback m callback =>
      refine ⟨ls, ⟨hchain, fun hm => congrArg chains.chain hm⟩, ?_⟩
      by_cases hm : m = n <;> simp [call, Pc.adding, Call.callback, hm]
  | enable m => exact ⟨ls, hchain, rfl⟩
  | disable m => exact ⟨ls, hchain, rfl⟩

/-- The link that is initialised was in no chain. -/
theorem chain_initialised {h : Heap κ} {q : Option ℕ} {ls : List (ℕ × κ)} {p : ℕ} {l : Link κ}
    (hc : Chain h q ls) (hp : h p = none) : Chain (Function.update h p (some l)) q ls := by
  refine hc.frame fun a ha => Function.update_of_ne ?_ _ _
  rintro rfl
  rcases hc.suffix ha with ⟨_, _, -, hlink⟩
  cases hlink with
  | cons hl _ =>
      rw [hp] at hl
      cases hl

/-- Every step of a call keeps the invariant. -/
theorem inv_main (h : s.Inv es n) {p : ℕ}
    (hfree : ∀ m callback prevLink, s.pc = .read m callback prevLink → s.chains.heap p = none) :
    (addInterruptCallback p s).Inv (es ++ [.main p]) n := by
  have hadded : added n (es ++ [.main p]) = added n es := by
    rw [added_concat]
    exact List.append_nil _
  rw [System.Inv, hadded]
  rcases s with ⟨c, pc⟩
  rcases h with ⟨ls, hknows, hitems⟩
  cases pc with
  | outside => exact ⟨ls, hknows, hitems⟩
  | read m callback prevLink =>
      rcases hknows with ⟨hchain, hprev⟩
      refine ⟨ls, ⟨hfree _ _ _ rfl, ?_, ?_, ?_⟩, hitems⟩
      · rintro rfl
        exact Function.update_self _ _ _
      · intro hm
        rw [hprev hm]
        exact hchain
      · intro hm
        have hsame : Function.update c.chain m (some p) n = c.chain n :=
          Function.update_of_ne (Ne.symm hm) _ _
        simp only [addInterruptCallback, hsame]
        exact hchain
  | linked m callback prevLink q =>
      exact ⟨ls, hknows, hitems⟩
  | init m callback prevLink q =>
      rcases hknows with ⟨hq, hfirst, hbehind, hother⟩
      by_cases hm : m = n
      -- the chain is longer by the new link
      · refine ⟨(q, callback) :: ls, ?_, ?_⟩
        · have hnew : Chain (Function.update c.heap q (some ⟨prevLink, callback⟩)) (some q)
              ((q, callback) :: ls) :=
            Chain.cons (Function.update_self _ _ _) (chain_initialised (hbehind hm) hq)
          rw [← hfirst hm] at hnew
          exact hnew
        · rw [← hitems]
          simp [addInterruptCallback, Pc.adding, hm]
      · refine ⟨ls, chain_initialised (hother hm) hq, ?_⟩
        rw [← hitems]
        simp [addInterruptCallback, Pc.adding, hm]
  | ready m => exact ⟨ls, hknows, hitems⟩

/-- The invariant holds after every run. -/
theorem Run.inv (h : Run es s) (n : Nr) : s.Inv es n := by
  induction h with
  | start heap => exact inv_start heap
  | @step past s s' e h hstep ih =>
      cases hstep with
      | call c hpc => exact inv_call ih hpc c
      | main hpc hfree => exact inv_main ih hfree
      | @interrupt m mode hattached =>
          rcases ih with ⟨ls, hknows, hitems⟩
          refine ⟨ls, hknows, ?_⟩
          rw [added_concat, hitems]
          exact congrArg List.reverse (List.append_nil _).symm

/-! ## Interrupts in the course of a run -/

/-- Unless the call in progress has linked memory that it has not initialised, the chain of `n` has
the links that the invariant speaks of. -/
theorem Pc.Knows.chain {c : Chains κ} {ls : List (ℕ × κ)} {pc : Pc κ} (h : pc.Knows c n ls)
    (hlinking : ¬pc.Linking n) : Chain c.heap (c.chain n) ls := by
  cases pc with
  | outside => exact h
  | read m callback prevLink => exact h.1
  | linked m callback prevLink p => exact h.other hlinking
  | init m callback prevLink p => exact h.other hlinking
  | ready m => exact h

/-- If it has, the chain begins with no link. -/
theorem Pc.Knows.not_calls {c : Chains κ} {ls : List (ℕ × κ)} {pc : Pc κ} (h : pc.Knows c n ls)
    (hlinking : pc.Linking n) (callbacks : List κ) : ¬c.Calls n callbacks := by
  have hfree : ∃ p, c.chain n = some p ∧ c.heap p = none := by
    cases pc with
    | linked m callback prevLink p => exact ⟨p, h.first hlinking, h.free⟩
    | init m callback prevLink p => exact ⟨p, h.first hlinking, h.free⟩
    | _ => exact absurd hlinking id
  rcases hfree with ⟨p, hchain, hp⟩
  rintro ⟨ls', hls', -⟩
  rw [hchain] at hls'
  cases hls' with
  | cons hl _ =>
      rw [hp] at hl
      cases hl

/-- Between two calls an interrupt calls the callbacks that were added to it, the last one first. -/
theorem Run.calls_iff (h : Run es s) (hpc : s.pc = .outside) (n : Nr) (callbacks : List κ) :
    s.chains.Calls n callbacks ↔ callbacks = (added n es).reverse := by
  rcases h.inv n with ⟨ls, hknows, hitems⟩
  rw [hpc] at hknows hitems
  have hchain : Chain s.chains.heap (s.chains.chain n) ls := hknows
  have hadded : ls.map Prod.snd = (added n es).reverse := hitems
  rw [← hadded]
  constructor
  · rintro ⟨ls', hls', rfl⟩
    rw [hls'.unique hchain]
  · rintro rfl
    exact ⟨ls, hchain, rfl⟩

/-! ## The mode of an interrupt -/

def calls (es : List (Event κ)) : List (Call κ) :=
  es.filterMap fun
    | .call c => some c
    | _ => none

def Call.Enables (n : Nr) : Call κ → Prop
  | .addInterruptCallback m _ => m = n
  | .delInterruptCallback m _ => m = n
  | .enable m => m = n
  | _ => False

/-- The call is `detachInterrupt`. -/
def Call.Disables (n : Nr) : Call κ → Prop
  | .disable m => m = n
  | _ => False

def modeSet (n : Nr) (cs : List (Call κ)) : ℕ :=
  ((cs.filterMap fun
    | .setMode m modeIn => if m = n then some modeIn else none
    | _ => none).getLast?).getD lowMode

/-- The last of the calls that enable or disable the interrupt enables it, and what has been set
before it is `mode`. -/
def AttachedWith (n : Nr) (mode : ℕ) (cs : List (Call κ)) : Prop :=
  ∃ pre c post, cs = pre ++ c :: post ∧ c.Enables n ∧
    (∀ d ∈ post, ¬d.Enables n ∧ ¬d.Disables n) ∧ mode = modeSet n pre

variable {cs : List (Call κ)} {c : Call κ} {mode : ℕ}

theorem attachedWith_enables (h : c.Enables n) :
    AttachedWith n mode (cs ++ [c]) ↔ mode = modeSet n cs := by
  constructor
  · rintro ⟨pre, d, post, hsplit, -, hpost, hmode⟩
    rcases List.eq_nil_or_concat post with rfl | ⟨post, e, rfl⟩
    · rw [(List.append_inj' hsplit rfl).1]
      exact hmode
    · -- the last call would be one of those behind
      rw [List.concat_eq_append, ← List.cons_append, ← List.append_assoc] at hsplit
      obtain rfl : c = e := by simpa using (List.append_inj' hsplit rfl).2
      exact absurd h (hpost c (by simp)).1
  · intro hmode
    exact ⟨cs, c, [], rfl, h, by simp, hmode⟩

theorem not_attachedWith_disables (h : c.Disables n) (henables : ¬c.Enables n) :
    ¬AttachedWith n mode (cs ++ [c]) := by
  rintro ⟨pre, d, post, hsplit, hd, hpost, -⟩
  rcases List.eq_nil_or_concat post with rfl | ⟨post, e, rfl⟩
  · obtain rfl : c = d := by simpa using (List.append_inj' hsplit rfl).2
    exact henables hd
  · rw [List.concat_eq_append, ← List.cons_append, ← List.append_assoc] at hsplit
    obtain rfl : c = e := by simpa using (List.append_inj' hsplit rfl).2
    exact (hpost c (by simp)).2 h

/-- Other calls, `setMode` among them, change nothing. -/
theorem attachedWith_other (henables : ¬c.Enables n) (hdisables : ¬c.Disables n) :
    AttachedWith n mode (cs ++ [c]) ↔ AttachedWith n mode cs := by
  constructor
  · rintro ⟨pre, d, post, hsplit, hd, hpost, hmode⟩
    rcases List.eq_nil_or_concat post with rfl | ⟨post, e, rfl⟩
    · obtain rfl : c = d := by simpa using (List.append_inj' hsplit rfl).2
      exact absurd hd henables
    · rw [List.concat_eq_append, ← List.cons_append, ← List.append_assoc] at hsplit
      exact ⟨pre, d, post, (List.append_inj' hsplit rfl).1, hd,
        fun x hx => hpost x (by simp [hx]), hmode⟩
  · rintro ⟨pre, d, post, rfl, hd, hpost, hmode⟩
    refine ⟨pre, d, post ++ [c], by simp, hd, ?_, hmode⟩
    intro x hx
    rcases List.mem_append.1 hx with hx | hx
    · exact hpost x hx
    · rw [List.mem_singleton.1 hx]
      exact ⟨henables, hdisables⟩

theorem modeSet_setMode (m : Nr) (modeIn : ℕ) :
    modeSet n (cs ++ [.setMode m modeIn]) = if m = n then modeIn else modeSet n cs := by
  by_cases hm : m = n <;> simp [modeSet, List.filterMap_append, hm]

theorem modeSet_other (h : ∀ m modeIn, c ≠ .setMode m modeIn) :
    modeSet n (cs ++ [c]) = modeSet n cs := by
  cases c with
  | setMode m modeIn => exact absurd rfl (h m modeIn)
  | _ => simp [modeSet, List.filterMap_append]

theorem calls_concat (es : List (Event κ)) (e : Event κ) : calls (es ++ [e]) = calls es ++ calls [e] :=
  List.filterMap_append

def Pc.enabling : Pc κ → Option Nr
  | .outside => none
  | .read m _ _ => some m
  | .linked m _ _ _ => some m
  | .init m _ _ _ => some m
  | .ready m => some m

def System.Over (s : System κ) (es : List (Event κ)) (cs : List (Call κ)) : Prop :=
  match s.pc.enabling with
  | none => calls es = cs
  | some m => ∃ c, calls es = cs ++ [c] ∧ (∀ k, c.Enables k ↔ m = k) ∧ ¬∃ k, c.Disables k

/-- The static variables say what the calls that are over have set. -/
def System.ModeInv (s : System κ) (es : List (Event κ)) (n : Nr) : Prop :=
  ∃ cs, s.Over es cs ∧ s.chains.mode n = modeSet n cs ∧
    ∀ mode, s.chains.attached n = some mode ↔ AttachedWith n mode cs

theorem modeInv_start (heap : Heap κ) : (start heap).ModeInv [] n := by
  refine ⟨[], rfl, rfl, fun mode => iff_of_false (fun h => by cases h) ?_⟩
  rintro ⟨pre, c, post, hsplit, -⟩
  exact absurd hsplit (by simp)

/-- `attachInterrupt` takes the mode of the moment. -/
theorem attached_enable {chains : Chains κ} {m : Nr} (hmode : chains.mode n = modeSet n cs)
    (hattached : ∀ mode, chains.attached n = some mode ↔ AttachedWith n mode cs)
    (henables : ∀ k, c.Enables k ↔ m = k) (hdisables : ¬∃ k, c.Disables k) (mode : ℕ) :
    (chains.enable m).attached n = some mode ↔ AttachedWith n mode (cs ++ [c]) := by
  by_cases hm : m = n
  · subst hm
    rw [attachedWith_enables ((henables m).2 rfl), ← hmode]
    simp [Chains.enable, eq_comm]
  · have hsame : (chains.enable m).attached n = chains.attached n :=
      Function.update_of_ne (Ne.symm hm) _ _
    rw [hsame, hattached, attachedWith_other (fun h => hm ((henables n).1 h))
      (fun h => hdisables ⟨n, h⟩)]

theorem modeInv_call (h : s.ModeInv es n) (hpc : s.pc = .outside) (c : Call κ) :
    (call s c).ModeInv (es ++ [.call c]) n := by
  rcases s with ⟨chains, pc⟩
  obtain rfl : pc = .outside := hpc
  rcases h with ⟨cs, hover, hmode, hattached⟩
  have hcalls : ∀ c, calls (es ++ [.call c]) = cs ++ [c] := by
    intro c
    rw [calls_concat, show calls es = cs from hover]
    rfl
  cases c with
  | setMode m modeIn =>
      refine ⟨cs ++ [Call.setMode m modeIn], hcalls _, ?_, fun mode => ?_⟩
      · rw [modeSet_setMode, ← hmode]
        by_cases hm : m = n
        · subst hm
          simp [call, Chains.setMode]
        · simp [call, Chains.setMode, hm, Function.update_of_ne (Ne.symm hm)]
      · rw [attachedWith_other id id]
        exact hattached mode
  | addInterruptCallback m callback =>
      exact ⟨cs, ⟨_, hcalls _, fun k => Iff.rfl, fun ⟨k, hk⟩ => hk⟩, hmode, hattached⟩
  | delInterruptCallback m callback =>
      exact ⟨cs, ⟨_, hcalls _, fun k => Iff.rfl, fun ⟨k, hk⟩ => hk⟩, hmode, hattached⟩
  | enable m =>
      refine ⟨cs ++ [Call.enable m], hcalls _, ?_,
        attached_enable hmode hattached (fun k => Iff.rfl) fun ⟨k, hk⟩ => hk⟩
      rw [modeSet_other (by simp)]
      exact hmode
  | disable m =>
      refine ⟨cs ++ [Call.disable m], hcalls _, ?_, fun mode => ?_⟩
      · rw [modeSet_other (by simp)]
        exact hmode
      · by_cases hm : m = n
        · subst hm
          refine iff_of_false ?_ (not_attachedWith_disables rfl id)
          simp [call, Chains.disable]
        · rw [attachedWith_other (c := Call.disable m) id hm, ← hattached]
          simp [call, Chains.disable, Function.update_of_ne (Ne.symm hm)]

theorem modeInv_main (h : s.ModeInv es n) (p : ℕ) :
    (addInterruptCallback p s).ModeInv (es ++ [.main p]) n := by
  have hcalls : calls (es ++ [.main p]) = calls es := by
    rw [calls_concat]
    exact List.append_nil _
  rcases s with ⟨chains, pc⟩
  rcases h with ⟨cs, hover, hmode, hattached⟩
  -- only the last step of a call does something to the modes
  cases pc with
  | ready m =>
      rcases hover with ⟨c, hc, henables, hdisables⟩
      refine ⟨cs ++ [c], hcalls.trans hc, ?_,
        attached_enable hmode hattached henables hdisables⟩
      rw [modeSet_other ?_]
      · exact hmode
      · rintro k modeIn rfl
        exact (henables m).2 rfl
  | _ =>
      refine ⟨cs, ?_, hmode, hattached⟩
      simp only [System.Over, hcalls]
      exact hover

theorem Run.modeInv (h : Run es s) (n : Nr) : s.ModeInv es n := by
  induction h with
  | start heap => exact modeInv_start heap
  | @step past s s' e h hstep ih =>
      cases hstep with
      | call c hpc => exact modeInv_call ih hpc c
      | main hpc hfree => exact modeInv_main ih _
      | @interrupt m mode hattached =>
          have hcalls : calls (past ++ [.interrupt m]) = calls past := by
            rw [calls_concat]
            exact List.append_nil _
          simpa only [System.ModeInv, System.Over, hcalls] using ih

theorem Run.attached_eq (h : Run es s) (hpc : s.pc = .outside) (n : Nr) (mode : ℕ) :
    s.chains.attached n = some mode ↔ AttachedWith n mode (calls es) := by
  rcases h.modeInv n with ⟨cs, hover, -, hattached⟩
  rw [System.Over, hpc] at hover
  rw [show calls es = cs from hover]
  exact hattached mode

/-! ## Calls one after the other -/

/-- A call from its beginning to its end, no interrupt coming and memory from `p` on being free. -/
theorem Run.call (h : Run es s) (hpc : s.pc = .outside) {p : ℕ}
    (hfree : ∀ q, p ≤ q → s.chains.heap q = none) (c : Call κ) :
    ∃ es' s', Run es' s' ∧ calls es' = calls es ++ [c] ∧ s'.pc = .outside ∧
      ∀ q, p + 1 ≤ q → s'.chains.heap q = none := by
  have hlater : ∀ q, p + 1 ≤ q → s.chains.heap q = none := fun q hq => hfree q (by omega)
  have hsimple : (InterruptChain.call s c).pc = .outside →
      (InterruptChain.call s c).chains.heap = s.chains.heap →
      ∃ es' s', Run es' s' ∧ calls es' = calls es ++ [c] ∧ s'.pc = .outside ∧
        ∀ q, p + 1 ≤ q → s'.chains.heap q = none := by
    intro hover hheap
    refine ⟨_, _, h.step (Step.call c hpc), calls_concat _ _, hover, fun q hq => ?_⟩
    rw [hheap]
    exact hlater q hq
  have hlink : ∀ n callback,
      InterruptChain.call s c =
        { s with pc := .read n callback (s.chains.chain n) } →
      ∃ es' s', Run es' s' ∧ calls es' = calls es ++ [c] ∧ s'.pc = .outside ∧
        ∀ q, p + 1 ≤ q → s'.chains.heap q = none := by
    intro n callback hread
    have hcall := h.step (Step.call c hpc)
    rw [hread] at hcall
    have hmalloc := hcall.step (Step.main (p := p) (by simp) fun _ _ _ _ => hfree p (Nat.le_refl p))
    have hlinked := hmalloc.step (Step.main (p := p) (by simp [addInterruptCallback])
      (by simp [addInterruptCallback]))
    have hinit := hlinked.step (Step.main (p := p) (by simp [addInterruptCallback])
      (by simp [addInterruptCallback]))
    have hready := hinit.step (Step.main (p := p) (by simp [addInterruptCallback])
      (by simp [addInterruptCallback]))
    refine ⟨_, _, hready, ?_, rfl, fun q hq => ?_⟩
    · simp [calls]
    · have hne : q ≠ p := by omega
      exact (Function.update_of_ne hne _ _).trans (hlater q hq)
  cases c with
  | setMode n modeIn => exact hsimple hpc rfl
  | addInterruptCallback n callback => exact hlink n callback rfl
  | delInterruptCallback n callback => exact hlink n callback rfl
  | enable n => exact hsimple hpc rfl
  | disable n => exact hsimple hpc rfl

/-- Any calls can be made, one after the other. -/
theorem exists_run (cs : List (Call κ)) :
    ∃ (es : List (Event κ)) (s : System κ), Run es s ∧ calls es = cs ∧ s.pc = .outside := by
  have hrun : ∃ (es : List (Event κ)) (s : System κ), Run es s ∧ calls es = cs ∧ s.pc = .outside ∧
      ∃ p, ∀ q, p ≤ q → s.chains.heap q = none := by
    induction cs using List.reverseRecOn with
    | nil => exact ⟨[], _, Run.start fun _ => none, rfl, rfl, 0, fun _ _ => rfl⟩
    | append_singleton cs c ih =>
        rcases ih with ⟨es, s, h, rfl, hpc, p, hfree⟩
        rcases h.call hpc hfree c with ⟨es', s', h', hcalls, hpc', hfree'⟩
        exact ⟨es', s', h', hcalls, hpc', p + 1, hfree'⟩
  rcases hrun with ⟨es, s, h, hcalls, hpc, -⟩
  exact ⟨es, s, h, hcalls, hpc⟩

/-- The callbacks of the calls. -/
theorem added_eq (n : Nr) (es : List (Event κ)) : added n es = (calls es).flatMap (Call.callback n) := by
  induction es with
  | nil => rfl
  | cons e es ih =>
      cases e with
      | call c => exact congrArg (c.callback n ++ ·) ih
      | main p => exact ih
      | interrupt m => exact ih

/-! ## What the calls come to -/

/-- Whatever has been called and whatever interrupts have come, as long as there is memory for every
link, an interrupt calls the callbacks that were added to it, in the reverse of their order and each as
often as it was added; but in the middle of a call for the same interrupt it follows a pointer that has
not been set. -/
theorem interrupt_calls (h : Run es s) (n : Nr) :
    ((∃ callbacks, s.chains.Calls n callbacks) ↔ ¬s.pc.Linking n) ∧
      ∀ callbacks, s.chains.Calls n callbacks →
        s.pc.adding n ++ callbacks = (added n es).reverse := by
  rcases h.inv n with ⟨ls, hknows, hitems⟩
  have hnone : s.pc.Linking n → ∀ callbacks, ¬s.chains.Calls n callbacks := hknows.not_calls
  constructor
  · constructor
    · rintro ⟨callbacks, hcalls⟩ hlinking
      exact hnone hlinking callbacks hcalls
    · intro hlinking
      exact ⟨_, ls, hknows.chain hlinking, rfl⟩
  · rintro callbacks ⟨ls', hls', rfl⟩
    have hlinking : ¬s.pc.Linking n := fun hlinking => hnone hlinking _ ⟨ls', hls', rfl⟩
    rw [hls'.unique (hknows.chain hlinking)]
    exact hitems

/-- Two callbacks, the second of which is called first. -/
theorem interrupt_calls_two :
    ∃ (es : List (Event ℕ)) (s : System ℕ), added interrupt0 es = [10, 20] ∧
      ((∃ callbacks, s.chains.Calls interrupt0 callbacks) ↔ ¬s.pc.Linking interrupt0) ∧
      ∀ callbacks, s.chains.Calls interrupt0 callbacks →
        s.pc.adding interrupt0 ++ callbacks = (added interrupt0 es).reverse := by
  rcases exists_run [.addInterruptCallback interrupt0 10, .addInterruptCallback interrupt0 20] with
    ⟨es, s, hrun, hcalls, -⟩
  refine ⟨es, s, ?_, interrupt_calls hrun interrupt0⟩
  rw [added_eq, hcalls]
  rfl

/-- Between two calls an interrupt is attached with the mode that had been set before the last call
that enabled it, if that call came after the last one that disabled it.  A `setMode` that comes after
`addInterruptCallback` has no effect until the interrupt is enabled again. -/
theorem attached_iff (h : Run es s) (hpc : s.pc = .outside) (n : Nr) (mode : ℕ) :
    s.chains.attached n = some mode ↔
      ∃ pre c post, calls es = pre ++ c :: post ∧ c.Enables n ∧
        (∀ d ∈ post, ¬d.Enables n ∧ ¬d.Disables n) ∧ mode = modeSet n pre :=
  h.attached_eq hpc n mode

/-- `CHANGE`, set before the callback is added, as the sketches do it. -/
theorem attached_iff_example :
    ∃ (es : List (Event ℕ)) (s : System ℕ),
      calls es = [.setMode interrupt0 1, .addInterruptCallback interrupt0 10] ∧
      (s.chains.attached interrupt0 = some 1 ↔
        ∃ pre c post, calls es = pre ++ c :: post ∧ c.Enables interrupt0 ∧
          (∀ d ∈ post, ¬d.Enables interrupt0 ∧ ¬d.Disables interrupt0) ∧
          1 = modeSet interrupt0 pre) := by
  rcases exists_run [.setMode interrupt0 1, .addInterruptCallback interrupt0 10] with
    ⟨es, s, hrun, hcalls, hpc⟩
  exact ⟨es, s, hcalls, attached_iff hrun hpc interrupt0 1⟩

end InterruptChain
end LamPI
