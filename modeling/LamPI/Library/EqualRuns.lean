import Mathlib.Data.List.DropRight
import Mathlib.Data.List.Induction
import Mathlib.Order.Basic

/-!
# EqualRuns — how many elements at the end of a list are the same

A debouncing filter counts how often the same value has come in a row:

- `trailing same xs` : the length of the longest run of same elements that ends the list
- `Agree R m xs`     : the last `m` elements are related to each other

For an equivalence the two say the same, and the first can be computed while the list grows.
-/

namespace EqualRuns

variable {α : Type*}

/-- The number of elements at the end of a list that are the same as the last one. -/
def trailing (same : α → α → Bool) (xs : List α) : ℕ :=
  match xs.getLast? with
  | none => 0
  | some x => (xs.rtakeWhile (same x)).length

/-- There are `m` elements at the end of a list, and any two of them are related. -/
def Agree (R : α → α → Prop) (m : ℕ) (xs : List α) : Prop :=
  ∃ early last, xs = early ++ last ∧ last.length = m ∧ ∀ x ∈ last, ∀ y ∈ last, R x y

/-- The relation that a Boolean comparison stands for. -/
abbrev Same (same : α → α → Bool) (x y : α) : Prop := same x y = true

/-- A comparison of keys is an equivalence. -/
theorem equivalence_of_key {κ : Type*} {same : α → α → Bool} {key : α → κ}
    (h : ∀ x y, Same same x y ↔ key x = key y) : Equivalence (Same same) :=
  ⟨fun x => (h x x).2 rfl, fun hxy => (h _ _).2 ((h _ _).1 hxy).symm,
    fun hxy hyz => (h _ _).2 (((h _ _).1 hxy).trans ((h _ _).1 hyz))⟩

variable {same : α → α → Bool} {R : α → α → Prop} {xs : List α} {x y : α} {m n : ℕ}

/-! ## The length of the run -/

@[simp] theorem trailing_nil : trailing same [] = 0 := rfl

theorem trailing_concat (hrefl : Same same y y) (xs : List α) :
    trailing same (xs ++ [y]) = (xs.rtakeWhile (same y)).length + 1 := by
  rw [trailing, List.getLast?_concat]
  simp only
  rw [List.rtakeWhile_concat_pos _ _ _ hrefl, List.length_append, List.length_singleton]

theorem trailing_singleton (hrefl : Same same y y) : trailing same [y] = 1 :=
  trailing_concat hrefl []

/-- An element that is the same as the last one makes the run longer by one. -/
theorem trailing_concat_same (hequiv : Equivalence (Same same)) (h : Same same y x) :
    trailing same (xs ++ [x] ++ [y]) = trailing same (xs ++ [x]) + 1 := by
  have heq : same y = same x := by
    funext z
    rw [Bool.eq_iff_iff]
    exact ⟨fun hz => hequiv.trans (hequiv.symm h) hz, fun hz => hequiv.trans h hz⟩
  rw [trailing_concat (hequiv.refl y), trailing_concat (hequiv.refl x),
    List.rtakeWhile_concat_pos _ _ _ h, List.length_append, List.length_singleton, heq]

/-- Any other element begins a run. -/
theorem trailing_concat_other (hrefl : Same same y y) (h : ¬Same same y x) :
    trailing same (xs ++ [x] ++ [y]) = 1 := by
  rw [trailing_concat hrefl, List.rtakeWhile_concat_neg _ _ _ h, List.length_nil]

/-- A run grows by one element at a time, so that it has had every smaller length before. -/
theorem exists_trailing_eq (hequiv : Equivalence (Same same)) (hn : 0 < n)
    (h : n ≤ trailing same xs) : ∃ k, k < xs.length ∧ trailing same (xs.take (k + 1)) = n := by
  induction xs using List.reverseRecOn with
  | nil =>
      rw [trailing_nil] at h
      omega
  | append_singleton xs y ih =>
      -- either the run reaches `n` with the last element, or it did before
      rcases h.eq_or_lt with heq | hlt
      · refine ⟨xs.length, by simp, ?_⟩
        rw [List.take_of_length_le (by simp), heq]
      · -- the run was at least `n` long before the last element already
        have hbefore : n ≤ trailing same xs := by
          rcases List.eq_nil_or_concat' xs with rfl | ⟨zs, z, rfl⟩
          · have hone := trailing_singleton (hequiv.refl y)
            rw [List.nil_append, hone] at hlt
            omega
          · by_cases hsame : Same same y z
            · rw [trailing_concat_same hequiv hsame] at hlt
              omega
            · rw [trailing_concat_other (hequiv.refl y) hsame] at hlt
              omega
        rcases ih hbefore with ⟨k, hk, hlen⟩
        refine ⟨k, by rw [List.length_append]; omega, ?_⟩
        rw [List.take_append_of_le_length hk, hlen]

/-! ## Agreement -/

theorem agree_zero (R : α → α → Prop) (xs : List α) : Agree R 0 xs :=
  ⟨xs, [], (List.append_nil xs).symm, rfl, by simp⟩

theorem Agree.mono {S : α → α → Prop} (hRS : ∀ x ∈ xs, ∀ y ∈ xs, R x y → S x y)
    (h : Agree R m xs) : Agree S m xs := by
  rcases h with ⟨early, last, rfl, hlen, hall⟩
  exact ⟨early, last, rfl, hlen, fun x hx y hy =>
    hRS x (List.mem_append_right early hx) y (List.mem_append_right early hy) (hall x hx y hy)⟩

theorem length_le_rtakeWhile {p : α → Bool} {last : List α} (h : ∀ x ∈ last, p x = true)
    (early : List α) : last.length ≤ ((early ++ last).rtakeWhile p).length := by
  induction last using List.reverseRecOn with
  | nil => exact Nat.zero_le _
  | append_singleton last y ih =>
      have hy : p y = true := h y (by simp)
      rw [← List.append_assoc, List.rtakeWhile_concat_pos _ _ _ hy, List.length_append,
        List.length_append]
      exact Nat.add_le_add_right (ih fun x hx => h x (by simp [hx])) 1

theorem le_trailing_of_agree (h : Agree (Same same) m xs) : m ≤ trailing same xs := by
  rcases h with ⟨early, last, rfl, rfl, hall⟩
  rcases List.eq_nil_or_concat' last with rfl | ⟨last, y, rfl⟩
  · exact Nat.zero_le _
  · have hy : y ∈ last ++ [y] := by simp
    rw [← List.append_assoc, trailing_concat (hall y hy y hy), List.length_append,
      List.length_singleton]
    exact Nat.add_le_add_right
      (length_le_rtakeWhile (fun x hx => hall y hy x (by simp [hx])) early) 1

theorem agree_of_le_trailing (hequiv : Equivalence (Same same)) (h : m ≤ trailing same xs) :
    Agree (Same same) m xs := by
  rcases List.eq_nil_or_concat' xs with rfl | ⟨zs, y, rfl⟩
  · rw [trailing_nil, Nat.le_zero] at h
    rw [h]
    exact agree_zero _ _
  · -- the last `m` elements of the run
    have hsuffix : (zs ++ [y]).rtakeWhile (same y) <:+ zs ++ [y] := List.rtakeWhile_suffix _ _
    have hlen : trailing same (zs ++ [y]) = ((zs ++ [y]).rtakeWhile (same y)).length := by
      rw [trailing, List.getLast?_concat]
    have hrun : ∀ x ∈ (zs ++ [y]).rtakeWhile (same y), Same same y x :=
      fun x hx => List.mem_rtakeWhile_imp hx
    generalize (zs ++ [y]).rtakeWhile (same y) = run at hsuffix hlen hrun
    rcases hsuffix with ⟨early, hearly⟩
    refine ⟨early ++ run.take (run.length - m), run.drop (run.length - m), ?_, ?_, ?_⟩
    · rw [List.append_assoc, List.take_append_drop, hearly]
    · rw [List.length_drop]
      omega
    · intro x hx x' hx'
      exact hequiv.trans (hequiv.symm (hrun x (List.mem_of_mem_drop hx)))
        (hrun x' (List.mem_of_mem_drop hx'))

/-- For an equivalence, the last `m` elements agree when the run has `m` elements. -/
theorem agree_iff (hequiv : Equivalence (Same same)) :
    Agree (Same same) m xs ↔ m ≤ trailing same xs :=
  ⟨le_trailing_of_agree, agree_of_le_trailing hequiv⟩

end EqualRuns
