import Mathlib.Data.Rat.Floor
import Mathlib.Tactic.Linarith

/-!
# Decimal numerals — numbers with a fixed number of places

A numeral with `k` places is an optional minus sign, digits, a point and `k` more digits.

- `Numeral k text x` : `text` is one of them and denotes `x`
- `truncated k x`    : `x`, truncated toward zero to `k` places
- `numeral_iff`      : what comes of printing the integer part and the tenths one by one
-/

namespace Decimals

/-- The number that the digits before and behind the point denote. -/
def value (whole places : List Char) : ℚ :=
  Nat.ofDigitChars 10 (whole ++ places) 0 / 10 ^ places.length

/-- The text is a numeral with `k` places, and denotes the number. -/
inductive Numeral (k : ℕ) : List Char → ℚ → Prop
  | unsigned {whole places : List Char} (hwhole : whole ≠ [])
      (hdigits : ∀ c ∈ whole ++ places, c.isDigit) (hplaces : places.length = k) :
      Numeral k (whole ++ '.' :: places) (value whole places)
  | negative {whole places : List Char} (hwhole : whole ≠ [])
      (hdigits : ∀ c ∈ whole ++ places, c.isDigit) (hplaces : places.length = k) :
      Numeral k ('-' :: (whole ++ '.' :: places)) (-value whole places)

variable {k : ℕ} {text : List Char} {x : ℚ}

/-- Neither the digits nor the point are a minus sign. -/
theorem minus_not_mem {whole places : List Char} (h : ∀ c ∈ whole ++ places, c.isDigit) :
    '-' ∉ whole ++ '.' :: places := by
  intro hmem
  rcases List.mem_append.1 hmem with hwhole | hplaces
  · exact absurd (h _ (List.mem_append_left _ hwhole)) (by decide)
  · rcases List.mem_cons.1 hplaces with hpoint | hplaces
    · exact absurd hpoint (by decide)
    · exact absurd (h _ (List.mem_append_right _ hplaces)) (by decide)

/-- A minus sign is only at the front. -/
theorem Numeral.minus (h : Numeral k text x) {pre post : List Char}
    (htext : text = pre ++ '-' :: post) : pre = [] := by
  cases h with
  | unsigned _ hdigits _ =>
      refine absurd ?_ (minus_not_mem hdigits)
      rw [htext]
      exact List.mem_append_right pre List.mem_cons_self
  | negative _ hdigits _ =>
      cases pre with
      | nil => rfl
      | cons c pre =>
          injection htext with _ htext
          refine absurd ?_ (minus_not_mem hdigits)
          rw [htext]
          exact List.mem_append_right pre List.mem_cons_self

/-! ## Truncation -/

/-- The integer part, toward zero. -/
def trunc (x : ℚ) : ℤ := if 0 ≤ x then ⌊x⌋ else ⌈x⌉

/-- Truncation toward zero to `k` places. -/
def truncated (k : ℕ) (x : ℚ) : ℚ := trunc (x * 10 ^ k) / 10 ^ k

/-- The integer part of a fraction is the quotient of C. -/
theorem trunc_div (n : ℤ) {d : ℕ} (hd : 0 < d) : trunc (n / d) = n.tdiv d := by
  have hpos : (0 : ℚ) < d := Nat.cast_pos.2 hd
  unfold trunc
  by_cases hn : 0 ≤ n
  · have hquotient : (0 : ℚ) ≤ n / d := div_nonneg (Int.cast_nonneg hn) hpos.le
    rw [if_pos hquotient, Rat.floor_intCast_div_natCast, Int.tdiv_eq_ediv_of_nonneg hn]
  · have hneg : (n : ℚ) / d < 0 := div_neg_of_neg_of_pos (Int.cast_lt_zero.2 (by omega)) hpos
    rw [if_neg (not_le.2 hneg), Rat.ceil_intCast_div_natCast,
      ← Int.tdiv_eq_ediv_of_nonneg (by omega : 0 ≤ -n), Int.neg_tdiv, neg_neg]

/-- Truncation goes toward zero, by less than one. -/
theorem abs_trunc_le (x : ℚ) : |(trunc x : ℚ)| ≤ |x| ∧ |x - trunc x| ≤ 1 := by
  unfold trunc
  by_cases hx : 0 ≤ x
  · rw [if_pos hx]
    have hfloor : 0 ≤ ⌊x⌋ := Int.floor_nonneg.2 hx
    have hle : (⌊x⌋ : ℚ) ≤ x := Int.floor_le x
    have hlt : x < ⌊x⌋ + 1 := Int.lt_floor_add_one x
    constructor
    · rw [abs_of_nonneg (Int.cast_nonneg hfloor), abs_of_nonneg hx]
      exact hle
    · rw [abs_of_nonneg (sub_nonneg.2 hle)]
      linarith only [hlt]
  · rw [if_neg hx]
    have hneg : x ≤ 0 := le_of_not_ge hx
    have hceil : ⌈x⌉ ≤ 0 := Int.ceil_le.2 (by exact_mod_cast hneg)
    have hle : x ≤ ⌈x⌉ := Int.le_ceil x
    have hlt : (⌈x⌉ : ℚ) < x + 1 := Int.ceil_lt_add_one x
    constructor
    · rw [abs_of_nonpos (by exact_mod_cast hceil), abs_of_nonpos hneg]
      exact neg_le_neg hle
    · rw [abs_of_nonpos (sub_nonpos.2 hle)]
      linarith only [hlt]

/-! ## Printing -/

theorem toList_toString_of_nonneg {n : ℤ} (h : 0 ≤ n) :
    (toString n).toList = Nat.toDigits 10 n.natAbs := by
  obtain ⟨m, rfl⟩ := Int.eq_ofNat_of_zero_le h
  exact Nat.toList_repr

theorem toList_toString_of_neg {n : ℤ} (h : n < 0) :
    (toString n).toList = '-' :: Nat.toDigits 10 n.natAbs := by
  obtain ⟨m, rfl⟩ := Int.eq_negSucc_of_lt_zero h
  have htext : toString (Int.negSucc m) = "-" ++ Nat.repr (m + 1) := rfl
  rw [htext, String.toList_append, Nat.toList_repr]
  rfl

/-- The digits of a number, and maybe a sign. -/
theorem length_toString_le {n : ℤ} {k : ℕ} (hk : 0 < k) (h : |n| < 10 ^ k) :
    (toString n).length ≤ k + 1 := by
  have habs : n.natAbs < 10 ^ k := by
    have hcast : (n.natAbs : ℤ) < (10 ^ k : ℕ) := by
      rw [Int.natCast_natAbs]
      exact_mod_cast h
    exact_mod_cast hcast
  have hdigits : (Nat.toDigits 10 n.natAbs).length ≤ k :=
    (Nat.length_toDigits_le_iff (by decide) hk).2 habs
  rw [← String.length_toList]
  rcases le_or_gt 0 n with hn | hn
  · rw [toList_toString_of_nonneg hn]
    omega
  · rw [toList_toString_of_neg hn, List.length_cons]
    omega

/-- The integer part of a number with `k` digits before the point. -/
theorem length_trunc_le {x : ℚ} {k : ℕ} (hk : 0 < k) (h : |x| < 10 ^ k) :
    (toString (trunc x)).length ≤ k + 1 := by
  have htrunc : |(trunc x : ℚ)| < 10 ^ k := lt_of_le_of_lt (abs_trunc_le x).1 h
  exact length_toString_le hk (by exact_mod_cast htrunc)

theorem mem_toString {n : ℤ} {c : Char} (hc : c ∈ (toString n).toList) : c = '-' ∨ c.isDigit := by
  have hdigit : ∀ m : ℕ, c ∈ Nat.toDigits 10 m → c.isDigit := fun m =>
    Nat.isDigit_of_mem_toDigits (by decide) (by decide)
  rcases le_or_gt 0 n with hn | hn
  · rw [toList_toString_of_nonneg hn] at hc
    exact Or.inr (hdigit _ hc)
  · rw [toList_toString_of_neg hn] at hc
    exact (List.mem_cons.1 hc).imp id (hdigit _)

/-- The digits of the integer part and one more. -/
theorem value_digits (i : ℕ) {f : ℕ} (hf : f < 10) :
    value (Nat.toDigits 10 i) (Nat.toDigits 10 f) = (10 * i + f : ℕ) / 10 := by
  have hone : Nat.toDigits 10 f = [f.digitChar] := Nat.toDigits_of_lt_base hf
  rw [value, Nat.ofDigitChars_append, Nat.ofDigitChars_ten_toDigits, hone,
    Nat.ofDigitChars_cons_digitChar_of_lt_ten hf, Nat.ofDigitChars_nil, List.length_singleton,
    pow_one]

theorem isDigit_digits (i f : ℕ) :
    ∀ c ∈ Nat.toDigits 10 i ++ Nat.toDigits 10 f, c.isDigit := by
  intro c hc
  rcases List.mem_append.1 hc with hc | hc
  · exact Nat.isDigit_of_mem_toDigits (by decide) (by decide) hc
  · exact Nat.isDigit_of_mem_toDigits (by decide) (by decide) hc

/-- An integer part and tenths of the same sign, printed with a point between them, are the
numeral of the number exactly if the tenths have no minus sign of their own. -/
theorem numeral_iff {i f : ℤ} (hf : |f| < 10) (hsign : 0 ≤ i ∧ 0 ≤ f ∨ i ≤ 0 ∧ f ≤ 0) :
    Numeral 1 (toString i ++ "." ++ toString f).toList ((10 * i + f : ℤ) / 10) ↔ 0 ≤ f := by
  have hpoint : ".".toList = ['.'] := rfl
  have htext : (toString i ++ "." ++ toString f).toList =
      (toString i).toList ++ '.' :: (toString f).toList := by
    rw [String.toList_append, String.toList_append, hpoint, List.append_assoc]
    rfl
  rw [htext]
  constructor
  · intro h
    by_contra hneg
    -- the sign of the tenths would be at the front
    rw [toList_toString_of_neg (by omega : f < 0), ← List.singleton_append,
      ← List.append_assoc] at h
    have hnil := h.minus rfl
    simp at hnil
  · intro hnonneg
    have hlt : f.natAbs < 10 := by
      rw [abs_of_nonneg hnonneg] at hf
      omega
    have hlength : (Nat.toDigits 10 f.natAbs).length = 1 := by
      rw [Nat.toDigits_of_lt_base hlt, List.length_singleton]
    rw [toList_toString_of_nonneg hnonneg]
    by_cases hi : 0 ≤ i
    · rw [toList_toString_of_nonneg hi]
      have hvalue := value_digits i.natAbs hlt
      have hsum : ((10 * i.natAbs + f.natAbs : ℕ) : ℤ) = 10 * i + f := by omega
      rw [← hsum, Int.cast_natCast, ← hvalue]
      exact Numeral.unsigned Nat.toDigits_ne_nil (isDigit_digits _ _) hlength
    · -- a negative integer part comes without tenths
      have hzero : f = 0 := by omega
      subst hzero
      rw [toList_toString_of_neg (by omega : i < 0)]
      have hvalue := value_digits i.natAbs (by decide : (0 : ℕ) < 10)
      have hsum : -((10 * i.natAbs + 0 : ℕ) : ℤ) = 10 * i + 0 := by omega
      rw [← hsum, Int.cast_neg, Int.cast_natCast, neg_div, ← hvalue]
      exact Numeral.negative Nat.toDigits_ne_nil (isDigit_digits _ _) rfl

/-! ## Fractions -/

/-- The integer part and the tenths of a fraction, one by one, are those of the fraction. -/
theorem tenths_of_nonneg {n : ℤ} (h : 0 ≤ n) {d : ℕ} (hd : 0 < d) :
    0 ≤ n.tdiv d ∧ 0 ≤ (10 * n.tmod d).tdiv d ∧ (10 * n.tmod d).tdiv d < 10 ∧
      10 * n.tdiv d + (10 * n.tmod d).tdiv d = (10 * n).tdiv d := by
  have hd' : (0 : ℤ) < d := Int.natCast_pos.2 hd
  have hmod : 0 ≤ n % d := Int.emod_nonneg n hd'.ne'
  have hlt : n % d < d := Int.emod_lt_of_pos n hd'
  rw [Int.tdiv_eq_ediv_of_nonneg h, Int.tmod_eq_emod_of_nonneg h,
    Int.tdiv_eq_ediv_of_nonneg (by omega), Int.tdiv_eq_ediv_of_nonneg (by omega)]
  refine ⟨Int.ediv_nonneg h hd'.le, Int.ediv_nonneg (by omega) hd'.le,
    Int.ediv_lt_of_lt_mul hd' (by omega), ?_⟩
  calc 10 * (n / d) + 10 * (n % d) / d = (10 * (n % d) + d * (10 * (n / d))) / d := by
        rw [Int.add_mul_ediv_left _ _ hd'.ne']
        ring
    _ = 10 * n / d := by
        congr 1
        calc 10 * (n % d) + d * (10 * (n / d)) = 10 * (n % d + d * (n / d)) := by ring
          _ = 10 * n := by rw [Int.emod_add_mul_ediv]

/-- A fraction printed by its integer part and its tenths. -/
theorem numeral_div_iff (n : ℤ) {d : ℕ} (hd : 0 < d) :
    Numeral 1 (toString (n.tdiv d) ++ "." ++ toString ((10 * n.tmod d).tdiv d)).toList
        (truncated 1 (n / d)) ↔ 0 ≤ (10 * n.tmod d).tdiv d := by
  have htruncated : truncated 1 (n / d) = ((10 * n).tdiv d : ℤ) / 10 := by
    have hten : (n : ℚ) / d * 10 ^ 1 = (10 * n : ℤ) / d := by
      push_cast
      ring
    rw [truncated, hten, trunc_div _ hd, pow_one]
  rw [htruncated]
  rcases le_total 0 n with h | h
  · rcases tenths_of_nonneg h hd with ⟨hwhole, htenths, hlt, hsum⟩
    rw [← hsum]
    exact numeral_iff (abs_lt.2 ⟨by omega, hlt⟩) (Or.inl ⟨hwhole, htenths⟩)
  · -- the other way round for the opposite
    obtain ⟨m, rfl⟩ : ∃ m, n = -m := ⟨-n, (neg_neg n).symm⟩
    have hneg : 10 * -m.tmod d = -(10 * m.tmod d) := mul_neg _ _
    have hneg' : 10 * -m = -(10 * m) := mul_neg _ _
    rcases tenths_of_nonneg (by omega : 0 ≤ m) hd with ⟨hwhole, htenths, hlt, hsum⟩
    rw [Int.neg_tmod, Int.neg_tdiv, hneg, hneg', Int.neg_tdiv, Int.neg_tdiv, ← hsum]
    have hsum' : -(10 * m.tdiv d + (10 * m.tmod d).tdiv d) =
        10 * -m.tdiv d + -(10 * m.tmod d).tdiv d := by ring
    rw [hsum']
    exact numeral_iff (abs_lt.2 ⟨by omega, by omega⟩) (Or.inr ⟨by omega, by omega⟩)

end Decimals
