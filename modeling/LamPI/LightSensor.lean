import LamPI.Arduino
import LamPI.Library.Decimals
import Mathlib.Tactic.NormNum
import Mathlib.Tactic.Positivity

/-!
# The light sensor — `BH1750FVI.cpp`

A sensor that is not there answers with ones only, and `GetLightIntensity` hands on -1 for it, as an
`uint16_t`.  Whether that is found equal to `(int) -1` depends on the width of an `int`.
-/

namespace LamPI
namespace LightSensor

open BinaryFloat (rounded)

/-- What `Wire.read()` returns: a byte, or -1 if there is none. -/
def Answer (n : ℤ) : Prop := -1 ≤ n ∧ n < 256

def doubleBits : Board → ℕ
  | .avr => 24
  | .esp8266 => 53

def isMinusOne : Board → ℕ → Bool
  -- the -1 becomes an `unsigned int`
  | .avr, value => value == 65535
  -- the value becomes an `int`
  | .esp8266, value => (value : ℤ) == -1

def intensity (first second : ℤ) : ℕ :=
  let value := (first % 65536).toNat
  let value := value * 256 % 65536
  value ||| (second % 65536).toNat

/-- `Intensity_value/1.2`, as an `uint16_t`. -/
def lux (b : Board) (value : ℕ) : ℕ :=
  (Decimals.trunc (rounded (doubleBits b) (value / rounded (doubleBits b) (6 / 5)))).toNat % 65536

def GetLightIntensity (b : Board) (first second : ℤ) : ℕ :=
  let value := intensity first second
  if isMinusOne b value then value else lux b value

variable {b : Board} {first second : ℤ} {value : ℕ}

/-! ## What is read -/

/-- The upper byte. -/
theorem exists_upper (hfirst : Answer first) :
    ∃ k < 256, (first % 65536).toNat * 256 % 65536 = 2 ^ 8 * k ∧
      (k = 255 ↔ first = -1 ∨ first = 255) := by
  rcases hfirst with ⟨hlo, hhi⟩
  refine ⟨(first % 256).toNat, by omega, by omega, by omega⟩

theorem intensity_le (first second : ℤ) : intensity first second ≤ 65535 := by
  have hupper : (first % 65536).toNat * 256 % 65536 < 2 ^ 16 := Nat.mod_lt _ (by decide)
  have hlower : (second % 65536).toNat < 2 ^ 16 := by omega
  exact Nat.le_of_lt_succ (Nat.or_lt_two_pow hupper hlower)

/-- No answer is read as ones, and so is an answer of ones. -/
theorem intensity_eq_iff (hfirst : Answer first) (hsecond : Answer second) :
    intensity first second = 65535 ↔
      second = -1 ∨ (first = -1 ∨ first = 255) ∧ second = 255 := by
  have hle := intensity_le first second
  rcases exists_upper hfirst with ⟨k, hk, hupper, hones⟩
  rcases hsecond with ⟨hlo, hhi⟩
  rw [← hones]
  by_cases hnone : second = -1
  · have hlower : (second % 65536).toNat = 65535 := by omega
    have hge : 65535 ≤ intensity first second := by
      rw [intensity, hlower]
      exact Nat.right_le_or
    exact ⟨fun _ => Or.inl hnone, fun _ => le_antisymm hle hge⟩
  · have hlower : (second % 65536).toNat < 2 ^ 8 := by omega
    have hword : intensity first second = 2 ^ 8 * k + (second % 65536).toNat := by
      rw [Nat.two_pow_add_eq_or_of_lt hlower, ← hupper]
      rfl
    rw [hword]
    omega

/-! ## The division -/

/-- The two roundings are small. -/
theorem abs_quotient_sub_le {p : ℕ} (hp : 24 ≤ p) (hvalue : value ≤ 65535) :
    |rounded p (value / rounded p (6 / 5)) - value * 5 / 6| ≤ 1 / 100 := by
  have hsmall : ∀ x : ℚ, |rounded p x - x| ≤ |x| / 2 ^ 24 := by
    intro x
    have hpow : (2 : ℚ) ^ 24 ≤ 2 ^ p := pow_le_pow_right₀ one_le_two hp
    exact (BinaryFloat.abs_rounded_sub_le p x).trans
      (div_le_div_of_nonneg_left (abs_nonneg x) (by positivity) hpow)
  have hv0 : (0 : ℚ) ≤ value := Nat.cast_nonneg value
  have hv : (value : ℚ) ≤ 65535 := by exact_mod_cast hvalue
  have hdivisor := hsmall (6 / 5)
  generalize rounded p (6 / 5) = d at hdivisor ⊢
  rw [abs_of_pos (by norm_num : (0 : ℚ) < 6 / 5)] at hdivisor
  rcases abs_le.1 hdivisor with ⟨hlo, hhi⟩
  have hd : (11 / 10 : ℚ) ≤ d := by linarith only [hlo]
  have hd0 : (0 : ℚ) < d := by linarith only [hd]
  have hquotient : |value / d| ≤ 59578 := by
    rw [abs_of_nonneg (div_nonneg hv0 hd0.le), div_le_iff₀ hd0]
    linarith only [hv, hd]
  have hfirst : |value / d - value * 5 / 6| ≤ 1 / 250 := by
    have heq : (value : ℚ) / d - value * 5 / 6 = value / d * ((6 / 5 - d) * (5 / 6)) := by
      field_simp
    have hfactor : |(6 / 5 - d) * (5 / 6)| ≤ 1 / 2 ^ 24 := by
      rw [abs_mul, abs_sub_comm, abs_of_pos (by norm_num : (0 : ℚ) < 5 / 6)]
      linarith only [hdivisor]
    rw [heq, abs_mul]
    calc
      |value / d| * |(6 / 5 - d) * (5 / 6)| ≤ 59578 * (1 / 2 ^ 24) :=
        mul_le_mul hquotient hfactor (abs_nonneg _) (by norm_num)
      _ ≤ 1 / 250 := by norm_num
  have hsecond := hsmall (value / d)
  calc
    |rounded p (value / d) - value * 5 / 6| ≤
        |rounded p (value / d) - value / d| + |value / d - value * 5 / 6| := abs_sub_le _ _ _
    _ ≤ 1 / 100 := by linarith only [hfirst, hsecond, hquotient]

theorem doubleBits_ge (b : Board) : 24 ≤ doubleBits b := by
  cases b
  · decide
  · decide

/-- The result is not -1 again. -/
theorem lux_lt (b : Board) (hvalue : value ≤ 65535) : lux b value < 65535 := by
  have herror := abs_quotient_sub_le (doubleBits_ge b) hvalue
  have hv : (value : ℚ) ≤ 65535 := by exact_mod_cast hvalue
  have hv0 : (0 : ℚ) ≤ value := Nat.cast_nonneg value
  unfold lux
  generalize rounded (doubleBits b) (value / rounded (doubleBits b) (6 / 5)) = x at herror ⊢
  have habs : |x| < 54613 := by
    rcases abs_le.1 herror with ⟨hlo, hhi⟩
    exact abs_lt.2 ⟨by linarith only [hlo, hv0], by linarith only [hhi, hv]⟩
  have htrunc : |Decimals.trunc x| < 54613 := by
    have hcast := lt_of_le_of_lt (Decimals.abs_trunc_le x).1 habs
    exact_mod_cast hcast
  have hhi := (abs_lt.1 htrunc).2
  omega

/-- What becomes of ones. -/
theorem lux_ones (b : Board) : lux b 65535 = 54612 := by
  have herror := abs_quotient_sub_le (doubleBits_ge b) (le_refl 65535)
  unfold lux
  generalize rounded (doubleBits b) ((65535 : ℕ) / rounded (doubleBits b) (6 / 5)) = x at herror ⊢
  rcases abs_le.1 herror with ⟨hlo, hhi⟩
  have hpos : 0 ≤ x := by
    push_cast at hlo
    linarith only [hlo]
  have hfloor : ⌊x⌋ = 54612 := by
    push_cast at hlo hhi
    exact Int.floor_eq_iff.2 ⟨by push_cast; linarith only [hlo], by push_cast; linarith only [hhi]⟩
  rw [Decimals.trunc, if_pos hpos, hfloor]
  rfl

/-! ## The sensor that is missing -/

/-- An `int` of 32 bits holds every value as it is. -/
theorem isMinusOne_esp8266 (value : ℕ) : isMinusOne .esp8266 value = false := by
  have hne : (value : ℤ) ≠ -1 := by omega
  exact beq_false_of_ne hne

/-- When a guard fires. -/
theorem isMinusOne_iff (b : Board) (value : ℕ) :
    isMinusOne b value = true ↔ b = .avr ∧ value = 65535 := by
  cases b with
  | avr => exact beq_iff_eq.trans (and_iff_right rfl).symm
  | esp8266 =>
      rw [isMinusOne_esp8266]
      exact ⟨fun h => absurd h Bool.false_ne_true, fun h => absurd h.1 (by decide)⟩

/-- On an AVR board the guard in the library fires exactly if the second answer is missing or all bits
are ones, and then the value that is handed on is found equal to -1, and no other one is; on the ESP8266
neither happens, and light is measured where there is no sensor. -/
theorem missing_iff (b : Board) (hfirst : Answer first) (hsecond : Answer second) :
    (isMinusOne b (intensity first second) = true ↔
      b = .avr ∧ (second = -1 ∨ (first = -1 ∨ first = 255) ∧ second = 255)) ∧
    (isMinusOne b (GetLightIntensity b first second) = true ↔
      b = .avr ∧ (second = -1 ∨ (first = -1 ∨ first = 255) ∧ second = 255)) ∧
    (second = -1 → GetLightIntensity .esp8266 first second = 54612) := by
  rw [← intensity_eq_iff hfirst hsecond, ← isMinusOne_iff]
  refine ⟨Iff.rfl, ?_, fun hnone => ?_⟩
  · unfold GetLightIntensity
    by_cases hfires : isMinusOne b (intensity first second) = true
    · simp only [if_pos hfires]
    · simp only [if_neg hfires]
      refine iff_of_false (fun h => ?_) hfires
      exact (lux_lt b (intensity_le first second)).ne ((isMinusOne_iff b _).1 h).2
  · have hones := (intensity_eq_iff hfirst hsecond).2 (Or.inl hnone)
    rw [GetLightIntensity, hones, isMinusOne_esp8266]
    exact lux_ones .esp8266

/-- Nobody answers. -/
theorem missing_iff_example :
    isMinusOne .avr (GetLightIntensity .avr (-1) (-1)) = true ∧
      ¬isMinusOne .esp8266 (intensity (-1) (-1)) = true ∧
      ¬isMinusOne .esp8266 (GetLightIntensity .esp8266 (-1) (-1)) = true ∧
      GetLightIntensity .esp8266 (-1) (-1) = 54612 := by
  have hanswer : Answer (-1) := ⟨by decide, by decide⟩
  have hne : Board.esp8266 ≠ .avr := by decide
  have hesp := missing_iff .esp8266 hanswer hanswer
  exact ⟨(missing_iff .avr hanswer hanswer).2.1.2 ⟨rfl, Or.inl rfl⟩,
    fun h => hne (hesp.1.1 h).1, fun h => hne (hesp.2.1.1 h).1, hesp.2.2 rfl⟩

end LightSensor
end LamPI
