import LamPI.Receiver
import LamPI.Library.Digits
import Mathlib.Data.List.Forall2

/-!
# Bit parts — the byte `receivedBit` of the receivers with the low-pass filter

A bit on the air has four parts, each short or long.  The receivers shift a 0 or a 1 per part into
the byte `receivedBit` and look at its last four bits when the fourth part has come.
-/

namespace LamPI

open BigEndian

/-- `receivedBit <<= 1`, then `receivedBit &= B1110` or `receivedBit |= B1`. -/
def shiftIn (receivedBit : BitVec 8) (long : Bool) : BitVec 8 :=
  if long then receivedBit <<< 1 ||| 1#8 else receivedBit <<< 1 &&& 0b1110#8

def lowNibble (receivedBit : BitVec 8) : BitVec 8 := receivedBit &&& 0b1111#8

theorem shiftIn_mod_sixteen : ∀ (receivedBit : BitVec 8) (long : Bool),
    (shiftIn receivedBit long).toNat % 16 = (receivedBit.toNat * 2 + long.toNat) % 16 := by
  decide

theorem lowNibble_toNat : ∀ receivedBit : BitVec 8,
    (lowNibble receivedBit).toNat = receivedBit.toNat % 16 := by
  decide

def Holds (receivedBit : BitVec 8) (ps : List Bool) : Prop :=
  receivedBit.toNat % 2 ^ ps.length = ofBits ps

theorem holds_nil (receivedBit : BitVec 8) : Holds receivedBit [] := Nat.mod_one _

theorem ofBits_concat (ps : List Bool) (p : Bool) :
    ofBits (ps ++ [p]) = ofBits ps * 2 + p.toNat := by
  simp [ofBits, List.foldl_append]

/-- One more part; bits that were there before the first part do not matter. -/
theorem Holds.shiftIn {receivedBit : BitVec 8} {ps : List Bool} (h : Holds receivedBit ps)
    (hps : ps.length < 4) (p : Bool) : Holds (shiftIn receivedBit p) (ps ++ [p]) := by
  -- four bits of the byte are kept, and no more than four parts are held
  have hdvd : 2 ^ (ps ++ [p]).length ∣ 16 := by
    have hle : (ps ++ [p]).length ≤ 4 := by
      rw [List.length_append, List.length_singleton]
      exact hps
    exact Nat.pow_dvd_pow 2 hle
  have hlow : receivedBit.toNat * 2 % 2 ^ (ps.length + 1) =
      receivedBit.toNat % 2 ^ ps.length * 2 := by
    rw [pow_succ]
    exact Nat.mul_mod_mul_right 2 _ _
  -- the new number is still below the modulus
  have hlt : ofBits ps * 2 + p.toNat < 2 ^ (ps.length + 1) := by
    have h1 := ofBits_lt ps
    have h2 := Bool.toNat_le p
    rw [pow_succ]
    omega
  calc (LamPI.shiftIn receivedBit p).toNat % 2 ^ (ps ++ [p]).length
      = (LamPI.shiftIn receivedBit p).toNat % 16 % 2 ^ (ps ++ [p]).length :=
        (Nat.mod_mod_of_dvd _ hdvd).symm
    _ = (receivedBit.toNat * 2 + p.toNat) % 16 % 2 ^ (ps ++ [p]).length := by
        rw [shiftIn_mod_sixteen]
    _ = (receivedBit.toNat * 2 + p.toNat) % 2 ^ (ps ++ [p]).length :=
        Nat.mod_mod_of_dvd _ hdvd
    _ = (ofBits ps * 2 + p.toNat) % 2 ^ (ps.length + 1) := by
        rw [List.length_append, List.length_singleton, Nat.add_mod, hlow, h, Nat.add_mod_mod]
    _ = ofBits (ps ++ [p]) := by rw [Nat.mod_eq_of_lt hlt, ofBits_concat]

/-- Once four parts have come, the low nibble is their number. -/
theorem Holds.lowNibble {receivedBit : BitVec 8} {ps : List Bool} (h : Holds receivedBit ps)
    (hps : ps.length = 4) : lowNibble receivedBit = BitVec.ofNat 8 (ofBits ps) := by
  apply BitVec.eq_of_toNat_eq
  have hlt : ofBits ps < 2 ^ 8 := by
    have h1 := ofBits_lt ps
    rw [hps] at h1
    omega
  rw [lowNibble_toNat, BitVec.toNat_ofNat, Nat.mod_eq_of_lt hlt, ← h, hps]
  rfl

/-- The intervals of two layouts in a row are those of the first and those of the second. -/
theorem forall₂_append_left {α β : Type} {R : α → β → Prop} {as as' : List α} {bs : List β}
    (h : List.Forall₂ R (as ++ as') bs) :
    ∃ b₁ b₂, bs = b₁ ++ b₂ ∧ List.Forall₂ R as b₁ ∧ List.Forall₂ R as' b₂ := by
  refine ⟨bs.take as.length, bs.drop as.length, (List.take_append_drop _ _).symm, ?_, ?_⟩
  · have htake := List.forall₂_take as.length h
    rwa [List.take_left] at htake
  · have hdrop := List.forall₂_drop as.length h
    rwa [List.drop_left] at hdrop

theorem forall₂_snoc {α β : Type} {R : α → β → Prop} {as : List α} {bs : List β} {x : α} {y : β}
    (h : List.Forall₂ R as bs) (hxy : R x y) : List.Forall₂ R (as ++ [x]) (bs ++ [y]) :=
  List.rel_append h (List.Forall₂.cons hxy List.Forall₂.nil)

end LamPI
