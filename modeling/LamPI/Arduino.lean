import LamPI.Library.PulseLine
import LamPI.Library.BinaryFloat

/-!
# Arduino — the part of the platform that the receivers and transmitters rest on

The library is compiled for two cores, whose `unsigned int` differs: 16 bits on the AVR boards
and 32 bits on the ESP8266.  `unsigned long`, the type of `micros()`, has 32 bits on both.
-/

namespace LamPI

open PulseLine

/-- The cores the library is built for. -/
inductive Board where
  | avr
  | esp8266
  deriving DecidableEq, Repr

/-- The width of `unsigned int`. -/
def Board.uintBits : Board → ℕ
  | .avr => 16
  | .esp8266 => 32

/-- The value of an arithmetic expression once it is an `unsigned int`. -/
def Board.uint (b : Board) (n : ℕ) : ℕ := n % 2 ^ b.uintBits

theorem Board.uint_of_lt (b : Board) {n : ℕ} (h : n < 65536) : b.uint n = n := by
  cases b
  · exact Nat.mod_eq_of_lt h
  · exact Nat.mod_eq_of_lt (lt_trans h (by decide))

/-- Both cores agree on the low 16 bits. -/
theorem Board.uint_mod (b : Board) (n : ℕ) : b.uint n % 65536 = n % 65536 := by
  cases b
  · exact Nat.mod_mod_of_dvd n (by decide)
  · exact Nat.mod_mod_of_dvd n (by decide)

/-- `float`, and on the AVR boards `double`, whose exponents all results are in range of. -/
def float (x : ℚ) : ℚ := BinaryFloat.rounded 24 x

theorem float_intCast {m : ℤ} (hm : |m| < 2 ^ 24) : float m = m := BinaryFloat.rounded_intCast hm

/-- `unsigned long`. -/
abbrev ULong := BitVec 32

/-- What `micros()` returns at a true time. -/
def micros (now : ℕ) : ULong := BitVec.ofNat 32 now

def bitRead (value bit : ℕ) : Bool := value.testBit bit

abbrev HIGH : Bool := true

abbrev LOW : Bool := false

abbrev digitalWrite (level : Bool) : Action := .write level

abbrev delayMicroseconds (us : ℕ) : Action := .wait us

abbrev delay (ms : ℕ) : Action := .wait (1000 * ms)

end LamPI
