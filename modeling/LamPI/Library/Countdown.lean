import Mathlib.Data.List.Basic
import Mathlib.Data.Int.Notation
import Mathlib.Data.Nat.Notation

/-!
# Countdown — loops that count down to zero

`for (i = first; i >= 0; i--)`, where the counter is brought into the range of its type after every
step.  The loop is run for a number of tests, and fails if it has not ended by then.

- `countDown`    : what the rounds of the loop produce, one after the other
- `countDown_eq` : a counter that starts within its range takes every value once
-/

namespace Countdown

variable {α : Type*}

/-- The loop from the counter `i` on, for at most `fuel` tests; `cast` brings the counter into its
range. -/
def countDown (cast : ℤ → ℤ) (body : ℤ → Option (List α)) : ℕ → ℤ → Option (List α)
  | 0, _ => none
  | fuel + 1, i =>
      if 0 ≤ i then
        (body i).bind fun now => (countDown cast body fuel (cast (i - 1))).map fun later =>
          now ++ later
      else some []

variable {cast : ℤ → ℤ} {body : ℤ → Option (List α)} {f : ℕ → List α} {n fuel : ℕ}

/-- A negative counter ends the loop at once. -/
theorem countDown_of_neg {i : ℤ} (hi : i < 0) (hfuel : 0 < fuel) :
    countDown cast body fuel i = some [] := by
  cases fuel with
  | zero => exact absurd hfuel (Nat.lt_irrefl 0)
  | succ fuel => rw [countDown, if_neg (Int.not_le.2 hi)]

/-- `n` rounds, if the counter can count them. -/
theorem countDown_eq (hcast : ∀ i : ℤ, -1 ≤ i → i < n → cast i = i)
    (hbody : ∀ k : ℕ, k < n → body k = some (f k)) (hfuel : n < fuel) :
    countDown cast body fuel (n - 1) = some ((List.range n).reverse.flatMap f) := by
  induction n generalizing fuel with
  | zero => exact countDown_of_neg (by decide) hfuel
  | succ n ih =>
      cases fuel with
      | zero => exact absurd hfuel (Nat.not_lt_zero _)
      | succ fuel =>
          have hcounter : ((n + 1 : ℕ) : ℤ) - 1 = n := by omega
          have hrest : countDown cast body fuel (n - 1) =
              some ((List.range n).reverse.flatMap f) :=
            ih (fun i hlo hhi => hcast i hlo (by omega)) (fun k hk => hbody k (by omega)) (by omega)
          rw [hcounter, countDown, if_pos (Int.natCast_nonneg n), hbody n (Nat.lt_succ_self n),
            hcast _ (by omega) (by omega), hrest, List.range_succ, List.reverse_append,
            List.reverse_singleton, List.singleton_append, List.flatMap_cons]
          rfl

end Countdown
