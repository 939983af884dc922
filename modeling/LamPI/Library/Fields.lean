import Mathlib.Algebra.Order.Ring.Nat
import Mathlib.Tactic.Ring

/-!
# Fields — numbers that are read digit by digit

A frame of digits is cut into fields: a field of `w` digits begins after the first `o` digits of the
frame.  After `k` digits it holds a number of at most `min (k - o) w` digits.
-/

namespace Fields

/-- What a field of `w` digits that begins after `o` digits may hold when `k` digits are read. -/
def Fits (base o w k a : ℕ) : Prop := a < base ^ min (k - o) w

variable {base o w k l a d : ℕ}

/-- Whatever has been read, the field holds at most `w` digits. -/
theorem Fits.lt (h : Fits base o w k a) (hbase : 0 < base) : a < base ^ w :=
  lt_of_lt_of_le h (Nat.pow_le_pow_right hbase (Nat.min_le_right _ _))

theorem fits_zero (hbase : 0 < base) : Fits base o w k 0 := Nat.pow_pos hbase

/-- More digits, in this field or in others. -/
theorem Fits.mono (h : Fits base o w k a) (hbase : 0 < base) (hkl : k ≤ l) : Fits base o w l a := by
  have hheld : min (k - o) w ≤ min (l - o) w := min_le_min_right w (Nat.sub_le_sub_right hkl o)
  exact lt_of_lt_of_le h (Nat.pow_le_pow_right hbase hheld)

/-- The next digit goes into the field. -/
theorem Fits.push (h : Fits base o w k a) (ho : o ≤ k) (hw : k < o + w) (hd : d < base) :
    Fits base o w (k + 1) (a * base + d) := by
  have hheld : min (k + 1 - o) w = min (k - o) w + 1 := by omega
  have hsucc : a + 1 ≤ base ^ min (k - o) w := h
  unfold Fits
  rw [hheld]
  calc a * base + d < a * base + base := Nat.add_lt_add_left hd _
    _ = (a + 1) * base := by ring
    _ ≤ base ^ min (k - o) w * base := Nat.mul_le_mul_right base hsucc
    _ = base ^ (min (k - o) w + 1) := (pow_succ _ _).symm

/-- The same for a register of any size. -/
theorem Fits.push_mod (h : Fits base o w k a) (ho : o ≤ k) (hw : k < o + w) (hd : d < base)
    (m : ℕ) : Fits base o w (k + 1) ((a * base + d) % m) :=
  lt_of_le_of_lt (Nat.mod_le _ m) (h.push ho hw hd)

/-- The same for a register that makes room first and then adds the digit. -/
theorem Fits.push_add (h : Fits base o w k a) (ho : o ≤ k) (hw : k < o + w) (hd : d < base)
    (m : ℕ) : Fits base o w (k + 1) ((a * base % m + d) % m) := by
  rw [Nat.mod_add_mod]
  exact h.push_mod ho hw hd m

/-- The same for a register of bits that makes room first and then sets the bit. -/
theorem Fits.push_or (h : Fits 2 o w k a) (ho : o ≤ k) (hw : k < o + w) (hd : d < 2) (m : ℕ) :
    Fits 2 o w (k + 1) (a * 2 % m ||| d) := by
  have hroom : Fits 2 o w (k + 1) (a * 2 % m) := h.push_mod ho hw Nat.two_pos m
  have hheld : min (k + 1 - o) w = min (k - o) w + 1 := by omega
  apply Nat.or_lt_two_pow hroom
  rw [hheld]
  calc d < 2 := hd
    _ = 2 ^ 1 := (pow_one 2).symm
    _ ≤ 2 ^ (min (k - o) w + 1) := Nat.pow_le_pow_right Nat.two_pos (Nat.le_add_left 1 _)

end Fields
