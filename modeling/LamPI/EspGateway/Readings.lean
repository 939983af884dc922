import LamPI.EspGateway.Sensors
import LamPI.Library.Decimals

/-!
# Readings as text

A value goes into its message as an integer part and tenths, both of them signed.  So a temperature
below zero gets a minus sign in front of its tenths, unless they are 0.
-/

namespace LamPI
namespace EspGateway

open Decimals

/-! ## The text -/

/-- The value is the last member of the message, under its label. -/
theorem sensorText_eq (msgCnt : ℕ) (qi : QueueItem) (value : ℚ) :
    ∃ front, sensorText msgCnt qi value =
      front ++ "\",\"" ++ qi.label ++ "\":\"" ++ valueText value ++ "\"\x7d" := by
  unfold sensorText readingText
  generalize valueText value = text
  exact ⟨_, rfl⟩

/-- The 128th part of a number is split without a rounding error. -/
theorem valueText_div_128 {n : ℤ} (hn : |n| < 2 ^ 20) :
    valueText (n / (128 : ℕ)) =
      toString (n.tdiv (128 : ℕ)) ++ "." ++ toString ((10 * n.tmod (128 : ℕ)).tdiv (128 : ℕ)) := by
  rw [abs_lt] at hn
  have hdiv : 128 * n.tdiv 128 + n.tmod 128 = n := Int.mul_tdiv_add_tmod n 128
  have hlo : -128 < n.tmod 128 := Int.lt_tmod_of_pos n (by decide)
  have hhi : n.tmod 128 < 128 := Int.tmod_lt_of_pos n (by decide)
  have hival : trunc ((n : ℚ) / 128) = n.tdiv 128 := trunc_div n (by decide)
  have hrest : (n : ℚ) / 128 - n.tdiv 128 = (n.tmod 128 : ℤ) / 128 := by
    have hcast : (128 : ℚ) * n.tdiv 128 + n.tmod 128 = n := by exact_mod_cast hdiv
    rw [← hcast]
    ring
  have htenths : ((n.tmod 128 : ℤ) : ℚ) / 128 * 10 = (10 * n.tmod 128 : ℤ) / 128 := by
    push_cast
    ring
  have hfval : trunc (((10 * n.tmod 128 : ℤ) : ℚ) / 128) = (10 * n.tmod 128).tdiv 128 :=
    trunc_div _ (by decide)
  have hcast : ((128 : ℕ) : ℚ) = 128 := Nat.cast_ofNat
  -- what is left of the integer part is again a 128th part, and so are its tenths
  rw [hcast, valueText, hival, float_intCast (abs_lt.2 ⟨by omega, by omega⟩), hrest,
    float_div_128 (abs_lt.2 ⟨by omega, by omega⟩), htenths,
    float_div_128 (abs_lt.2 ⟨by omega, by omega⟩), hfval]
  rfl

/-- The tenths of a temperature are not negative. -/
theorem tenths_nonneg_iff (n : ℤ) :
    0 ≤ (10 * n.tmod (128 : ℕ)).tdiv (128 : ℕ) ↔ 0 ≤ n ∨ -n % 128 < 13 := by
  rcases le_or_gt 0 n with h | h
  · exact iff_of_true (tenths_of_nonneg h (by decide)).2.1 (Or.inl h)
  · obtain ⟨m, rfl⟩ : ∃ m, n = -m := ⟨-n, (neg_neg n).symm⟩
    have hneg : 10 * -m.tmod (128 : ℕ) = -(10 * m.tmod (128 : ℕ)) := mul_neg _ _
    have hmod : m.tmod (128 : ℕ) = m % 128 := Int.tmod_eq_emod_of_nonneg (by omega)
    rw [Int.neg_tmod, hneg, Int.neg_tdiv, hmod, Int.tdiv_eq_ediv_of_nonneg (by omega), neg_neg]
    omega

/-- The text of a temperature is that of its value, truncated to one decimal, exactly if it is not
below zero or its tenths are 0. -/
theorem temperature_text_iff (queue : List QueueItem) (r : Wt440.Code)
    (hconst : r.wconst = 6 ∨ r.wconst = 7) (h0 : 0 ≤ r.temperature) (h : r.temperature < 32768) :
    ∃ qi next, showWt440Code queue r = queue ++ [qi, next] ∧ qi.label = "temperature" ∧
      qi.value = .value ((r.temperature - 6400) / 128) ∧
      (∀ msgCnt, ∃ front, sensorText msgCnt qi ((r.temperature - 6400) / 128) =
        front ++ "\",\"" ++ qi.label ++ "\":\"" ++
          valueText ((r.temperature - 6400) / 128) ++ "\"\x7d") ∧
      (Numeral 1 (valueText ((r.temperature - 6400) / 128)).toList
          (truncated 1 ((r.temperature - 6400) / 128)) ↔
        6400 ≤ r.temperature ∨ (6400 - r.temperature) % 128 < 13) := by
  have hdegrees := degrees_eq h0 h
  -- the first of the two items is the temperature, the humidity is behind it
  obtain ⟨next, hqueue⟩ : ∃ next, showWt440Code queue r =
      queue ++ [wt440Item r "temperature" (degrees r.temperature), next] := by
    unfold showWt440Code
    rcases hconst with hsix | hseven
    · rw [hsix]
      exact ⟨_, List.append_assoc _ _ _⟩
    · rw [hseven]
      exact ⟨_, List.append_assoc _ _ _⟩
  have hcast : ((r.temperature : ℚ) - 6400) / 128 = (r.temperature - 6400 : ℤ) / (128 : ℕ) := by
    push_cast
    rfl
  refine ⟨_, next, hqueue, rfl, congrArg Value.value hdegrees,
    fun msgCnt => sensorText_eq msgCnt _ _, ?_⟩
  rw [hcast, valueText_div_128 (abs_lt.2 ⟨by omega, by omega⟩), numeral_div_iff _ (by decide),
    tenths_nonneg_iff]
  omega

/-- A reading of `temperature`, with the constant 6. -/
def reading (temperature : ℤ) : Wt440.Code :=
  { Wt440.emptyCode with wconst := 6, temperature := temperature }

/-- A reading of 20.3125 degrees. -/
theorem temperature_text_above :
    ∃ qi next, showWt440Code [] (reading 9000) = [] ++ [qi, next] ∧ qi.label = "temperature" ∧
      qi.value = .value (((9000 : ℤ) - 6400) / 128) ∧
      (∀ msgCnt, ∃ front, sensorText msgCnt qi (((9000 : ℤ) - 6400) / 128) =
        front ++ "\",\"" ++ qi.label ++ "\":\"" ++
          valueText (((9000 : ℤ) - 6400) / 128) ++ "\"\x7d") ∧
      (Numeral 1 (valueText (((9000 : ℤ) - 6400) / 128)).toList
          (truncated 1 (((9000 : ℤ) - 6400) / 128)) ↔
        6400 ≤ (9000 : ℤ) ∨ (6400 - (9000 : ℤ)) % 128 < 13) :=
  temperature_text_iff [] (reading 9000) (Or.inl rfl) (by decide) (by decide)

/-- A hundred steps below zero the text is `0.-7`. -/
theorem temperature_text_below :
    ¬∀ (queue : List QueueItem) (r : Wt440.Code), r.wconst = 6 ∨ r.wconst = 7 →
      0 ≤ r.temperature → r.temperature < 32768 →
      ∃ qi next, showWt440Code queue r = queue ++ [qi, next] ∧ qi.label = "temperature" ∧
        qi.value = .value ((r.temperature - 6400) / 128) ∧
        Numeral 1 (valueText ((r.temperature - 6400) / 128)).toList
          (truncated 1 ((r.temperature - 6400) / 128)) := by
  intro h
  rcases h [] (reading 6300) (Or.inl rfl) (by decide) (by decide) with ⟨qi, next, -, -, -, htext⟩
  have hcast : (((reading 6300).temperature : ℚ) - 6400) / 128 = (-100 : ℤ) / (128 : ℕ) := by
    norm_num [reading]
  rw [hcast, valueText_div_128 (by decide), numeral_div_iff _ (by decide)] at htext
  exact absurd htext (by decide)

end EspGateway
end LamPI
