import LamPI.Wt440.RoundTrip

/-!
# The sensor node — `ArduinoSensor.ino`

The node sends the readings of its sensors as WT440 messages.  That of a barometer has the constant
7; the seven bits for the humidity carry the pressure in hectopascal, less 930, and the fifteen for
the temperature 128 times the degrees, plus 6400.
-/

namespace LamPI
namespace ArduinoSensor

open Wt440 PulseLine

def OWN_ADDRESS : ℕ := 14

/-- An expression that is stored in a `byte`. -/
def byte (n : ℤ) : ℕ := (n % 256).toNat

def unsignedInt (x : ℚ) : ℕ := ⌊x⌋₊ % 65536

/-- The message of `loop` for a reading of the BMP085: tenths of degrees and pascal. -/
def msgBMP085 (temperature pressure : ℤ) : TxCode :=
  { address := OWN_ADDRESS
    channel := 1
    humi := byte (pressure.tdiv 100 - 930)
    temp := unsignedInt (float (float (temperature * float 12.8) + 6400))
    wcode := 7 }

def loopBMP085 (temperature pressure : ℤ) : List Action :=
  if temperature ≠ 998 ∧ temperature ≠ 0 then sendMsg (msgBMP085 temperature pressure) else []

/-- The readings of the air pressure that fit into seven bits, and the temperatures that fit into
fifteen. -/
structure InRange (temperature pressure : ℤ) : Prop where
  coldest : -499 ≤ temperature
  warmest : temperature ≤ 2000
  lowest : 93000 ≤ pressure
  highest : pressure < 105800

variable {temperature pressure : ℤ}

/-! ## Encoding -/

theorem InRange.hectopascal (h : InRange temperature pressure) :
    930 ≤ pressure.tdiv 100 ∧ pressure.tdiv 100 < 1058 := by
  have hlowest := h.lowest
  have hhighest := h.highest
  rw [Int.tdiv_eq_ediv_of_nonneg (by omega)]
  omega

theorem InRange.humi (h : InRange temperature pressure) :
    ((msgBMP085 temperature pressure).humi : ℤ) = pressure.tdiv 100 - 930 := by
  have hfits := h.hectopascal
  change ((byte (pressure.tdiv 100 - 930) : ℕ) : ℤ) = _
  unfold byte
  omega

/-- The three roundings of `temperature * 12.8 + 6400`. -/
theorem InRange.abs_scaled_sub_lt (h : InRange temperature pressure) :
    |float (float (temperature * float 12.8) + 6400) - (temperature * 12.8 + 6400)| < 1 / 5 := by
  have htemperature : |(temperature : ℚ)| ≤ 2000 := by
    rw [abs_le]
    exact ⟨by exact_mod_cast (by decide : (-2000 : ℤ) ≤ -499).trans h.coldest,
      by exact_mod_cast h.warmest⟩
  -- 12.8 itself is not a float
  have hfactor : |float 12.8 - 12.8| ≤ 12.8 / 2 ^ 24 :=
    BinaryFloat.abs_rounded_sub_le_of_le 24 (by norm_num)
  have hexact : |temperature * float 12.8 - temperature * 12.8| ≤ 2000 * (12.8 / 2 ^ 24) := by
    rw [← mul_sub, abs_mul]
    gcongr
  have hsize : |temperature * float 12.8| ≤ 25601 := by
    have hlarge : |(temperature : ℚ) * 12.8| ≤ 2000 * 12.8 := by
      rw [abs_mul]
      gcongr
      norm_num
    have hsum := abs_sub_abs_le_abs_sub (temperature * float 12.8) ((temperature : ℚ) * 12.8)
    norm_num at *
    linarith
  -- then the product is rounded, and the sum
  have hproduct : |float (temperature * float 12.8) - temperature * float 12.8| ≤
      25601 / 2 ^ 24 := BinaryFloat.abs_rounded_sub_le_of_le 24 hsize
  have hsum : |float (float (temperature * float 12.8) + 6400) -
      (float (temperature * float 12.8) + 6400)| ≤ 32002 / 2 ^ 24 := by
    refine BinaryFloat.abs_rounded_sub_le_of_le 24 ?_
    rw [abs_le] at hproduct hsize ⊢
    norm_num at *
    exact ⟨by linarith, by linarith⟩
  -- the three errors together
  rw [abs_le] at hexact hproduct hsum
  rw [abs_lt]
  norm_num at *
  exact ⟨by linarith, by linarith⟩

/-- A fifth of a unit is too little to pass by more than an exact integer. -/
theorem InRange.temp (h : InRange temperature pressure) :
    5 * ((msgBMP085 temperature pressure).temp : ℤ) ≤ 64 * temperature + 32000 ∧
      64 * temperature + 32000 ≤ 5 * ((msgBMP085 temperature pressure).temp + 1 : ℤ) := by
  have hscaled := abs_lt.1 h.abs_scaled_sub_lt
  have hcoldest : (-499 : ℚ) ≤ temperature := by exact_mod_cast h.coldest
  have hwarmest : (temperature : ℚ) ≤ 2000 := by exact_mod_cast h.warmest
  change 5 * ((unsignedInt (float (float (temperature * float 12.8) + 6400)) : ℕ) : ℤ) ≤ _ ∧
    _ ≤ 5 * ((unsignedInt (float (float (temperature * float 12.8) + 6400)) : ℕ) + 1 : ℤ)
  -- only the bound on the error is used from here on
  generalize float (float (temperature * float 12.8) + 6400) = v at hscaled ⊢
  have hnonneg : 0 ≤ v := by linarith [hscaled.1]
  have hfloor : (⌊v⌋₊ : ℚ) ≤ v := Nat.floor_le hnonneg
  have hnext : v < ⌊v⌋₊ + 1 := Nat.lt_floor_add_one v
  -- the conversion to `unsigned int` loses the fraction only
  have hsmall : ⌊v⌋₊ < 65536 := by
    rw [Nat.floor_lt hnonneg]
    norm_num
    linarith [hscaled.2]
  rw [unsignedInt, Nat.mod_eq_of_lt hsmall]
  have hbelow : (5 * ⌊v⌋₊ : ℚ) < 64 * temperature + 32000 + 1 := by linarith [hscaled.2]
  have habove : (64 * temperature + 32000 - 1 : ℚ) < 5 * (⌊v⌋₊ + 1) := by linarith [hscaled.1]
  exact ⟨Int.lt_add_one_iff.1 (by exact_mod_cast hbelow),
    Int.sub_one_lt_iff.1 (by exact_mod_cast habove)⟩

/-- Every field fits. -/
theorem InRange.valid (h : InRange temperature pressure) :
    (msgBMP085 temperature pressure).Valid := by
  have hhumi := h.humi
  have hhectopascal := h.hectopascal
  have htemp := h.temp.1
  have hwarmest := h.warmest
  exact
    { address := (by decide : OWN_ADDRESS < 16)
      channel := (by decide : 1 < 4)
      wcode := (by decide : 7 < 8)
      humi := by omega
      temp := by omega }

end ArduinoSensor
end LamPI
