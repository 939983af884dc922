import Mathlib.Logic.Function.Basic
import Mathlib.Data.List.Basic

/-!
# Linked lists — chains of links in memory

Links at addresses of a memory are chained by their `next` pointers; `none` is the null pointer, and
an address without a link is free.  A chain that ends is acyclic: no address comes twice.
-/

namespace LinkedList

variable {α : Type*}

/-- A link: a pointer to the next one and an item. -/
structure Link (α : Type*) where
  next : Option ℕ
  item : α
  deriving DecidableEq, Repr

/-- The links at the allocated addresses. -/
abbrev Heap (α : Type*) := ℕ → Option (Link α)

/-- The pointers lead from `q` through the links `ls`, given by address and item, to the null
pointer. -/
inductive Chain (h : Heap α) : Option ℕ → List (ℕ × α) → Prop
  | nil : Chain h none []
  | cons {p : ℕ} {l : Link α} {ls : List (ℕ × α)} (hp : h p = some l) (hls : Chain h l.next ls) :
      Chain h (some p) ((p, l.item) :: ls)

/-- The loop that walks from a link to the last one ends at `t`. -/
inductive Last (h : Heap α) : ℕ → ℕ → Prop
  | here {p : ℕ} {l : Link α} (hp : h p = some l) (hnext : l.next = none) : Last h p p
  | walk {p q t : ℕ} {l : Link α} (hp : h p = some l) (hnext : l.next = some q)
      (hlast : Last h q t) : Last h p t

variable {h h' : Heap α} {q : Option ℕ} {p t : ℕ} {l : Link α} {x : α} {ls ls' : List (ℕ × α)}

/-! ## Chains -/

/-- There is one chain from a pointer. -/
theorem Chain.unique (hc : Chain h q ls) (hc' : Chain h q ls') : ls = ls' := by
  induction hc generalizing ls' with
  | nil =>
      cases hc'
      rfl
  | cons hp hls ih =>
      cases hc' with
      | cons hp' hls' =>
          rw [hp] at hp'
          cases hp'
          rw [ih hls']

/-- A chain stays one when its links stay as they are. -/
theorem Chain.frame (hc : Chain h q ls) (hsame : ∀ p ∈ ls.map Prod.fst, h' p = h p) :
    Chain h' q ls := by
  induction hc with
  | nil => exact Chain.nil
  | cons hp hls ih =>
      refine Chain.cons ((hsame _ List.mem_cons_self).trans hp) (ih ?_)
      intro p' hp'
      exact hsame p' (List.mem_cons_of_mem _ hp')

/-- Every link of a chain begins a chain. -/
theorem Chain.suffix (hc : Chain h q ls) (hp : p ∈ ls.map Prod.fst) :
    ∃ ls₁ ls₂, ls = ls₁ ++ ls₂ ∧ Chain h (some p) ls₂ := by
  induction hc with
  | nil => cases hp
  | @cons p' l ls hp' hls ih =>
      rcases List.mem_cons.1 hp with rfl | hmem
      · exact ⟨[], _, rfl, Chain.cons hp' hls⟩
      · rcases ih hmem with ⟨ls₁, ls₂, hsplit, hchain⟩
        refine ⟨(p', l.item) :: ls₁, ls₂, ?_, hchain⟩
        rw [hsplit]
        rfl

/-- A link in the middle of a chain. -/
theorem Chain.middle {rest : List (ℕ × α)} (hc : Chain h q (ls ++ (p, x) :: rest)) :
    ∃ l, h p = some l ∧ l.item = x ∧ Chain h l.next rest := by
  induction ls generalizing q with
  | nil =>
      cases hc with
      | cons hp hls => exact ⟨_, hp, rfl, hls⟩
  | cons a ls ih =>
      cases hc with
      | cons hp hls => exact ih hls

/-- The first link does not come again. -/
theorem Chain.head_not_mem (hp : h p = some l) (hls : Chain h l.next ls) :
    p ∉ ls.map Prod.fst := by
  intro hmem
  rcases hls.suffix hmem with ⟨ls₁, ls₂, hsplit, hchain⟩
  have hsame : ls₂ = (p, l.item) :: ls := hchain.unique (Chain.cons hp hls)
  have hlen : ls.length = ls₁.length + ls₂.length := by rw [hsplit, List.length_append]
  rw [hsame, List.length_cons] at hlen
  omega

/-! ## The last link -/

theorem Last.next_eq_none {p : ℕ} (hlast : Last h p t) : ∃ l, h t = some l ∧ l.next = none := by
  induction hlast with
  | here hp hnext => exact ⟨_, hp, hnext⟩
  | walk _ _ _ ih => exact ih

/-- The last link belongs to the chain. -/
theorem Last.mem (hlast : Last h p t) (hc : Chain h (some p) ls) : t ∈ ls.map Prod.fst := by
  induction hlast generalizing ls with
  | here hp hnext =>
      cases hc
      exact List.mem_cons_self
  | walk hp hnext _ ih =>
      cases hc with
      | cons hp' hls =>
          rw [hp] at hp'
          cases hp'
          rw [hnext] at hls
          exact List.mem_cons_of_mem _ (ih hls)

/-- The walk along a chain ends. -/
theorem Chain.exists_last (hc : Chain h (some p) ls) : ∃ t, Last h p t := by
  induction ls generalizing p with
  | nil => cases hc
  | cons a ls ih =>
      cases hc with
      | @cons _ l _ hp hls =>
          cases hnext : l.next with
          | none => exact ⟨p, Last.here hp hnext⟩
          | some q =>
              rw [hnext] at hls
              rcases ih hls with ⟨t, hlast⟩
              exact ⟨t, Last.walk hp hnext hlast⟩

/-- It ends at a link. -/
theorem Chain.exists_last_link (hc : Chain h (some p) ls) :
    ∃ t l, Last h p t ∧ h t = some l := by
  rcases hc.exists_last with ⟨t, hlast⟩
  rcases hlast.next_eq_none with ⟨l, hl, -⟩
  exact ⟨t, l, hlast, hl⟩

/-- A new link behind the last one. -/
def linkBehind (h : Heap α) (t : ℕ) (l : Link α) (p : ℕ) (x : α) : Heap α :=
  Function.update (Function.update h t (some { l with next := some p })) p (some ⟨none, x⟩)

theorem linkBehind_new : linkBehind h t l p x p = some ⟨none, x⟩ := Function.update_self _ _ _

theorem linkBehind_last (hne : t ≠ p) :
    linkBehind h t l p x t = some { l with next := some p } := by
  rw [linkBehind, Function.update_of_ne hne, Function.update_self]

theorem linkBehind_other {a : ℕ} (hp : a ≠ p) (ht : a ≠ t) : linkBehind h t l p x a = h a := by
  rw [linkBehind, Function.update_of_ne hp, Function.update_of_ne ht]

/-- The chain grows at its end. -/
theorem Chain.linkBehind {r : ℕ} (hc : Chain h (some r) ls) (hlast : Last h r t)
    (ht : h t = some l) (hp : h p = none) :
    Chain (linkBehind h t l p x) (some r) (ls ++ [(p, x)]) := by
  have hfresh : ∀ {a : ℕ} {m : Link α}, h a = some m → a ≠ p := by
    rintro a m ha rfl
    rw [hp] at ha
    cases ha
  induction hlast generalizing ls with
  | @here r m hr hnext =>
      cases hc with
      | cons hr' hls =>
          rw [hr] at ht hr'
          cases ht
          cases hr'
          rw [hnext] at hls
          cases hls
          have hnew : Chain (LinkedList.linkBehind h r l p x) (some p) [(p, x)] :=
            Chain.cons linkBehind_new Chain.nil
          have hchain := Chain.cons (linkBehind_last (l := l) (x := x) (h := h) (hfresh hr)) hnew
          exact hchain
  | @walk r _ t m hr hnext hlast ih =>
      cases hc with
      | cons hr' hls =>
          rw [hr] at hr'
          cases hr'
          rw [hnext] at hls
          -- only the last link has no next one
          have hne : r ≠ t := by
            intro heq
            rcases hlast.next_eq_none with ⟨m, hm, hnone⟩
            rw [← heq, hr] at hm
            cases hm
            rw [hnext] at hnone
            cases hnone
          have hsame := linkBehind_other (l := l) (x := x) (h := h) (hfresh hr) hne
          refine Chain.cons (hsame.trans hr) ?_
          rw [hnext]
          exact ih hls ht

end LinkedList
