import Mathlib.Data.Nat.Bits
import Mathlib.Tactic.Ring
import Mathlib.Tactic.Linarith
import Mathlib.Data.List.Induction
import Mathlib.Data.List.Basic

/-!
# Digits — numbers sent most significant digit first

A serial line carries the digits of a number in big-endian order, and the receiver rebuilds the
number with `value := value * base + digit`, in a register that wraps at some modulus:

- `ofDigits b ds` : the number a base-`b` digit list stands for
- `bits n v`      : the last `n` bits of `v`, as Booleans

`List.foldlIdx` is the fold of a receiver that puts the `k`-th symbol of a frame into the field
it belongs to.
-/

namespace BigEndian

/-- The number that a list of base-`b` digits stands for, most significant digit first. -/
def ofDigits (b : ℕ) (ds : List ℕ) : ℕ := ds.foldl (fun a d => a * b + d) 0

/-- The last `n` bits of `v`, most significant first. -/
def bits : ℕ → ℕ → List Bool
  | 0, _ => []
  | n + 1, v => v.testBit n :: bits n v

/-- The number that a list of bits stands for. -/
def ofBits (bs : List Bool) : ℕ := bs.foldl (fun a b => a * 2 + b.toNat) 0

@[simp] theorem length_bits (n v : ℕ) : (bits n v).length = n := by
  induction n with
  | zero => rfl
  | succ n ih => simp [bits, ih]

/-! ## Registers -/

theorem foldl_digits (b a : ℕ) (ds : List ℕ) :
    ds.foldl (fun a d => a * b + d) a = a * b ^ ds.length + ofDigits b ds := by
  unfold ofDigits
  induction ds generalizing a with
  | nil => simp
  | cons d ds ih =>
      rw [List.foldl_cons, List.foldl_cons, ih, ih (0 * b + d), List.length_cons]
      ring

theorem foldl_bits (a : ℕ) (bs : List Bool) :
    bs.foldl (fun a b => a * 2 + b.toNat) a = a * 2 ^ bs.length + ofBits bs := by
  unfold ofBits
  induction bs generalizing a with
  | nil => simp
  | cons d ds ih =>
      rw [List.foldl_cons, List.foldl_cons, ih, ih (0 * 2 + d.toNat), List.length_cons]
      ring

/-- A register that wraps at `m` holds the number modulo `m`. -/
theorem foldl_digits_mod (b m a : ℕ) (ds : List ℕ) :
    ds.foldl (fun a d => (a * b + d) % m) (a % m) =
      ds.foldl (fun a d => a * b + d) a % m := by
  induction ds generalizing a with
  | nil => rfl
  | cons d ds ih =>
      have hstep : (a % m * b + d) % m = (a * b + d) % m := by
        rw [Nat.add_mod, Nat.mul_mod, Nat.mod_mod, ← Nat.mul_mod, ← Nat.add_mod]
      rw [List.foldl_cons, List.foldl_cons, hstep, ih]

theorem ofDigits_lt {b : ℕ} {ds : List ℕ} (h : ∀ d ∈ ds, d < b) :
    ofDigits b ds < b ^ ds.length := by
  induction ds using List.reverseRecOn with
  | nil => simp [ofDigits]
  | append_singleton ds d ih =>
      have hds : ofDigits b ds < b ^ ds.length := ih (fun x hx => h x (by simp [hx]))
      have hd : d < b := h d (by simp)
      have hsnoc : ofDigits b (ds ++ [d]) = ofDigits b ds * b + d := by
        simp [ofDigits, List.foldl_append]
      have hle : (ofDigits b ds + 1) * b ≤ b ^ ds.length * b := Nat.mul_le_mul_right b hds
      rw [hsnoc, List.length_append, List.length_singleton, pow_succ]
      linarith

theorem ofBits_lt (bs : List Bool) : ofBits bs < 2 ^ bs.length := by
  have hmap : ofBits bs = ofDigits 2 (bs.map Bool.toNat) := by
    simp [ofBits, ofDigits, List.foldl_map]
  have hdigits : ∀ d ∈ bs.map Bool.toNat, d < 2 := by
    simp only [List.mem_map]
    rintro d ⟨b, -, rfl⟩
    exact Bool.toNat_lt b
  simpa [hmap] using ofDigits_lt hdigits

/-- A register of `m > ofBits bs` values that starts at zero ends up holding the number. -/
theorem foldl_bits_mod {m : ℕ} {bs : List Bool} (h : 2 ^ bs.length ≤ m) :
    bs.foldl (fun a b => (a * 2 + b.toNat) % m) 0 = ofBits bs := by
  have hmod := foldl_digits_mod 2 m 0 (bs.map Bool.toNat)
  simp only [List.foldl_map, Nat.zero_mod] at hmod
  rw [hmod]
  exact Nat.mod_eq_of_lt (lt_of_lt_of_le (ofBits_lt bs) h)

/-- A register that holds a number already shifts it up. -/
theorem foldl_bits_register {bs : List Bool} (hne : bs ≠ []) (m a : ℕ) :
    bs.foldl (fun a b => (a * 2 + b.toNat) % m) a = (a * 2 ^ bs.length + ofBits bs) % m := by
  have hmod := foldl_digits_mod 2 m a (bs.map Bool.toNat)
  simp only [List.foldl_map] at hmod
  rcases bs with _ | ⟨b, bs⟩
  · exact absurd rfl hne
  · rw [← foldl_bits, ← hmod, List.foldl_cons, List.foldl_cons, Nat.add_mod, Nat.mul_mod,
      ← Nat.mod_mod a m, ← Nat.mul_mod, Nat.mod_mod, ← Nat.add_mod]

/-- The same for a register of a signed type. -/
theorem foldl_bmod_register {bs : List Bool} (hne : bs ≠ []) (m : ℕ) (a : ℤ) :
    bs.foldl (fun (a : ℤ) b => Int.bmod (a * 2 + b.toNat) m) a =
      Int.bmod (a * 2 ^ bs.length + ofBits bs) m := by
  induction bs using List.reverseRecOn with
  | nil => exact absurd rfl hne
  | append_singleton bs b ih =>
      have hsnoc : (ofBits (bs ++ [b]) : ℤ) = ofBits bs * 2 + b.toNat := by
        simp [ofBits, List.foldl_append]
      rw [List.foldl_append, List.foldl_cons, List.foldl_nil, hsnoc, List.length_append,
        List.length_singleton]
      rcases bs with _ | ⟨b', bs⟩
      · simp [ofBits]
      · rw [ih (by simp), ← Int.bmod_add_bmod, Int.bmod_mul_bmod, Int.bmod_add_bmod]
        congr 1
        ring

/-- A register of a signed type that is wide enough holds the number. -/
theorem foldl_bmod {m : ℕ} {bs : List Bool} (h : 2 ^ (bs.length + 1) ≤ m) :
    bs.foldl (fun (a : ℤ) b => Int.bmod (a * 2 + b.toNat) m) 0 = ofBits bs := by
  rcases bs with _ | ⟨b, bs⟩
  · rfl
  · have hlt := ofBits_lt (b :: bs)
    rw [pow_succ] at h
    rw [foldl_bmod_register (by simp), zero_mul, zero_add]
    exact Int.bmod_eq_of_le (by omega) (by omega)

/-- Two registers of a record that every bit goes into. -/
theorem foldl_store {α β γ : Type*} {s : Bool → γ → γ} {f : α → Bool → α} {g : β → Bool → β}
    (put : α → β → γ) (hstore : ∀ x y bit, s bit (put x y) = put (f x bit) (g y bit))
    (bs : List Bool) (x : α) (y : β) :
    bs.foldl (fun c bit => s bit c) (put x y) = put (bs.foldl f x) (bs.foldl g y) := by
  induction bs generalizing x y with
  | nil => rfl
  | cons bit bs ih => rw [List.foldl_cons, hstore, ih, List.foldl_cons, List.foldl_cons]

/-! ## Sending and rebuilding a number -/

theorem ofBits_bits (n v : ℕ) : ofBits (bits n v) = v % 2 ^ n := by
  induction n with
  | zero => simp [bits, ofBits, Nat.mod_one]
  | succ n ih =>
      have hcons : ofBits (bits (n + 1) v) =
          (v.testBit n).toNat * 2 ^ n + ofBits (bits n v) := by
        rw [bits, ofBits, List.foldl_cons, foldl_bits, length_bits]
        simp
      rw [hcons, ih, Nat.mod_pow_succ, Nat.toNat_testBit]
      ring

theorem ofBits_bits_of_lt {n v : ℕ} (h : v < 2 ^ n) : ofBits (bits n v) = v := by
  rw [ofBits_bits, Nat.mod_eq_of_lt h]

/-- Every bit list is the bits of the number it stands for. -/
theorem bits_ofBits (bs : List Bool) : bits bs.length (ofBits bs) = bs := by
  induction bs with
  | nil => rfl
  | cons b bs ih =>
      have hcons : ofBits (b :: bs) = b.toNat * 2 ^ bs.length + ofBits bs := by
        rw [ofBits, List.foldl_cons, foldl_bits]
        simp
      have hlt := ofBits_lt bs
      have hhead : (ofBits (b :: bs)).testBit bs.length = b := by
        rw [hcons, Nat.mul_comm, Nat.testBit_two_pow_mul_add _ hlt]
        cases b <;> simp
      have htail : ∀ n ≤ bs.length, bits n (ofBits (b :: bs)) = bits n (ofBits bs) := by
        intro n hn
        induction n with
        | zero => rfl
        | succ n ihn =>
            rw [bits, bits, ihn (by omega), hcons, Nat.mul_comm,
              Nat.testBit_two_pow_mul_add _ hlt, if_pos (by omega)]
      rw [List.length_cons, bits, hhead, htail _ le_rfl, ih]

/-- Lists of bits of one length are determined by their numbers. -/
theorem ofBits_inj {as bs : List Bool} (hlen : as.length = bs.length)
    (h : ofBits as = ofBits bs) : as = bs := by
  rw [← bits_ofBits as, hlen, h, bits_ofBits]

/-! ## Parity -/

/-- The exclusive or of a list of bits. -/
def parity (bs : List Bool) : Bool := bs.foldl xor false

@[simp] theorem parity_nil : parity [] = false := rfl

theorem foldl_xor (a : Bool) (bs : List Bool) : bs.foldl xor a = (a ^^ parity bs) := by
  unfold parity
  induction bs generalizing a with
  | nil => simp
  | cons b bs ih => rw [List.foldl_cons, List.foldl_cons, ih, ih (false ^^ b)]; simp

@[simp] theorem parity_cons (b : Bool) (bs : List Bool) : parity (b :: bs) = (b ^^ parity bs) := by
  rw [parity, List.foldl_cons, foldl_xor]
  simp

@[simp] theorem parity_append (as bs : List Bool) :
    parity (as ++ bs) = (parity as ^^ parity bs) := by
  rw [parity, List.foldl_append, foldl_xor]
  rfl

/-- The parity as a number. -/
theorem foldl_xor_toNat (a : Bool) (bs : List Bool) :
    bs.foldl (fun c b => c ^^^ b.toNat) a.toNat = (a ^^ parity bs).toNat := by
  have hxor : ∀ p q : Bool, p.toNat ^^^ q.toNat = (p ^^ q).toNat := by decide
  induction bs generalizing a with
  | nil => simp
  | cons b bs ih => rw [List.foldl_cons, hxor, ih, parity_cons, Bool.xor_assoc]

theorem parity_map_not (bs : List Bool) :
    parity (bs.map not) = (parity bs ^^ decide (bs.length % 2 = 1)) := by
  induction bs with
  | nil => rfl
  | cons b bs ih =>
      rw [List.map_cons, parity_cons, parity_cons, ih, List.length_cons]
      rcases Nat.mod_two_eq_zero_or_one bs.length with h | h <;>
        cases b <;> cases parity bs <;> simp [h, Nat.add_mod]

/-! ## Fields of a frame -/

variable {α β : Type*}

theorem foldlIdx_append (f : ℕ → α → β → α) (a : α) (xs ys : List β) (k : ℕ) :
    (xs ++ ys).foldlIdx f a k = ys.foldlIdx f (xs.foldlIdx f a k) (k + xs.length) := by
  induction xs generalizing a k with
  | nil => rfl
  | cons x xs ih =>
      simp only [List.cons_append, List.foldlIdx_cons, ih, List.length_cons]
      congr 1
      omega

/-- Symbols whose positions all belong to one field are folded into that field. -/
theorem foldlIdx_of_range {f : ℕ → α → β → α} {g : α → β → α} {a : α} {xs : List β} {k : ℕ}
    (h : ∀ j, k ≤ j → j < k + xs.length → f j = g) : xs.foldlIdx f a k = xs.foldl g a := by
  induction xs generalizing a k with
  | nil => rfl
  | cons x xs ih =>
      rw [List.foldlIdx_cons, List.foldl_cons, h k le_rfl (by simp)]
      exact ih (fun j h1 h2 => h j (by omega) (by rw [List.length_cons]; omega))

/-- Bits that are all pushed into one register of a record. -/
theorem foldlIdx_register {f : ℕ → α → Bool → α} {g : ℕ → α} {m k : ℕ} {bs : List Bool}
    (hpush : ∀ j, k ≤ j → j < k + bs.length → ∀ a b, f j (g a) b = g ((a * 2 + b.toNat) % m))
    (hroom : 2 ^ bs.length ≤ m) : bs.foldlIdx f (g 0) k = g (ofBits bs) := by
  rw [← foldl_bits_mod hroom]
  generalize 0 = a
  induction bs generalizing a k with
  | nil => rfl
  | cons b bs ih =>
      have hrest : 2 ^ bs.length ≤ m :=
        (Nat.pow_le_pow_right Nat.two_pos (Nat.le_succ _)).trans hroom
      rw [List.foldlIdx_cons, List.foldl_cons, hpush k le_rfl (by simp) a b]
      refine ih ?_ hrest _
      intro j hlo hhi
      exact hpush j (by omega) (by rw [List.length_cons]; omega)

/-- The first `n` bits are pushed into one register, and those behind them into another one. -/
theorem foldlIdx_two_registers {f : ℕ → α → Bool → α} {g : ℕ → ℕ → α} {m l n : ℕ}
    {bs : List Bool} (hn : n ≤ bs.length)
    (hfirst : ∀ j < n, ∀ a c b, f j (g a c) b = g ((a * 2 + b.toNat) % m) c)
    (hsecond : ∀ j, n ≤ j → ∀ a c b, f j (g a c) b = g a ((c * 2 + b.toNat) % l))
    (hroom : 2 ^ n ≤ m) (hroom' : 2 ^ (bs.length - n) ≤ l) :
    bs.foldlIdx f (g 0 0) = g (ofBits (bs.take n)) (ofBits (bs.drop n)) := by
  have hlen : (bs.take n).length = n := List.length_take_of_le hn
  have hlen' : (bs.drop n).length = bs.length - n := List.length_drop
  calc bs.foldlIdx f (g 0 0) = (bs.take n ++ bs.drop n).foldlIdx f (g 0 0) := by
        rw [List.take_append_drop]
    _ = (bs.drop n).foldlIdx f ((bs.take n).foldlIdx f (g 0 0)) n := by
        rw [foldlIdx_append, hlen, Nat.zero_add]
    _ = (bs.drop n).foldlIdx f (g (ofBits (bs.take n)) 0) n := by
        rw [foldlIdx_register (g := fun a => g a 0) _ (hlen.symm ▸ hroom)]
        intro j _ hj
        rw [hlen, Nat.zero_add] at hj
        exact fun a b => hfirst j hj a 0 b
    _ = g (ofBits (bs.take n)) (ofBits (bs.drop n)) := by
        rw [foldlIdx_register (g := g (ofBits (bs.take n))) _ (hlen'.symm ▸ hroom')]
        intro j hj _
        exact hsecond j hj _

end BigEndian
