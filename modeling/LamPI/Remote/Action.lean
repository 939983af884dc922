import LamPI.Remote.Transmitter

/-!
# Action remotes — `ActionTransmitter` and what the gateways make of its telegrams

The transmitter puts a system code, a device and a switch position into 12 trits: five trits 1 or 2
for the bits of the system code, five trits of which the device's is the only 0, and 20 or 02 for
off or on.  `showRemoteCode` of both gateways reads the trits back from the last one to the first.
-/

namespace LamPI
namespace Remote

open BigEndian

/-! ## The transmitter -/

namespace ActionTransmitter

/-- One round of the loop of `getTelegram`: `systemCode` is shifted down along the way. -/
def setTrits (device : ℤ) (s : ℕ × List ℕ) (i : ℕ) : ℕ × List ℕ :=
  (s.1 >>> 1, (s.2.set (4 - i) (if s.1 &&& 1 ≠ 0 then 1 else 2)).set (i + 5)
    (if (i : ℤ) = device then 0 else 2))

/-- The array `trits` of `getTelegram`; `device` is a `char`. -/
def trits (systemCode : ℕ) (device : ℤ) (on : Bool) : List ℕ :=
  let trits := ((List.range 5).foldl (setTrits device) (systemCode, List.replicate 12 0)).2
  (trits.set 10 (if !on then 0 else 2)).set 11 (if on then 0 else 2)

def getTelegram (tx : Transmitter) (systemCode : ℕ) (device : ℤ) (on : Bool) : ℕ :=
  encodeTelegram tx (trits systemCode device on)

def sendSignal (b : Board) (tx : Transmitter) (systemCode : ℕ) (device : ℤ) (on : Bool) :
    List PulseLine.Action :=
  sendTelegram b (getTelegram tx systemCode device on)

end ActionTransmitter

/-! ## The loops of `showRemoteCode` -/

/-- A loop that takes the last trit off `code` in every round. -/
def readTrits {α : Type} (f : α → ℕ → ℕ → α) (is : List ℕ) (a : α) (code : ℕ) : α × ℕ :=
  is.foldl (fun s i => (f s.1 i (s.2 % 3), s.2 / 3)) (a, code)

/-- `level` is a `byte`, in which the two trits end up as decimal digits. -/
def readLevel (code : ℕ) : ℕ × ℕ :=
  readTrits (fun level _ t => (level * 10 % 256 + t) % 256) [0, 1] 0 code

/-- The position of the 0 determines the unit. -/
def readUnit (code : ℕ) : ℕ × ℕ :=
  readTrits (fun unit i t => if t = 0 then i else unit) [4, 3, 2, 1, 0] 0 code

/-- The positions of the 1s determine the address. -/
def readAddress (code : ℕ) : ℕ × ℕ :=
  readTrits (fun address i t => if t = 1 then address + 1 <<< i else address) [0, 1, 2, 3, 4] 0 code

structure Reading where
  level : ℕ
  unit : ℕ
  address : ℕ
  deriving DecidableEq, Repr

def readCode (code : ℕ) : Reading :=
  let level := readLevel code
  let unit := readUnit level.2
  let address := readAddress unit.2
  ⟨level.1, unit.1, address.1⟩

/-! ## The trits of a telegram -/

def addressTrits (systemCode : ℕ) : List Trit :=
  (bits 5 systemCode).map fun bit => if bit then 1 else 2

def deviceTrits (device : ℕ) : List Trit :=
  (List.range 5).map fun i => if i = device then 0 else 2

def markTrits (on : Bool) : List Trit := [if on then 2 else 0, if on then 0 else 2]

def actionTrits (systemCode device : ℕ) (on : Bool) : List Trit :=
  addressTrits systemCode ++ deviceTrits device ++ markTrits on

@[simp] theorem length_addressTrits (systemCode : ℕ) : (addressTrits systemCode).length = 5 := by
  simp [addressTrits]

@[simp] theorem length_deviceTrits (device : ℕ) : (deviceTrits device).length = 5 := by
  simp [deviceTrits]

@[simp] theorem length_actionTrits (systemCode device : ℕ) (on : Bool) :
    (actionTrits systemCode device on).length = 12 := by
  simp [actionTrits, markTrits]

theorem lowest_bit (one zero : Trit) (n : ℕ) :
    (if n &&& 1 ≠ 0 then one.val else zero.val) = (if n.testBit 0 then one else zero).val := by
  rw [Nat.testBit_zero, Nat.and_one_is_mod]
  rcases Nat.mod_two_eq_zero_or_one n with h | h
  · simp [h]
  · simp [h]

theorem low_bit (n : ℕ) :
    (if n &&& 1 ≠ 0 then 1 else 2) = (if n.testBit 0 then (1 : Trit) else 2).val :=
  lowest_bit 1 2 n

theorem device_trit (i device : ℕ) :
    (if (i : ℤ) = device then 0 else 2) = (if i = device then (0 : Trit) else 2).val := by
  simp only [Nat.cast_inj]
  split <;> rfl

/-- The loop of `getTelegram` sets these trits. -/
theorem trits_eq (systemCode device : ℕ) (on : Bool) :
    ActionTransmitter.trits systemCode device on =
      (actionTrits systemCode device on).map Fin.val := by
  have hround : ∀ s i, ActionTransmitter.setTrits device s i =
      (s.1 >>> 1, (s.2.set (4 - i) (if s.1.testBit 0 then (1 : Trit) else 2).val).set (i + 5)
        (if i = device then (0 : Trit) else 2).val) := by
    intro s i
    rw [ActionTransmitter.setTrits, low_bit, device_trit]
  rw [ActionTransmitter.trits]
  simp only [List.range_succ, List.range_zero, List.nil_append, List.cons_append, List.foldl_cons,
    List.foldl_nil, hround]
  cases on with
  | false => simp [actionTrits, addressTrits, deviceTrits, markTrits, bits, List.range_succ]
  | true => simp [actionTrits, addressTrits, deviceTrits, markTrits, bits, List.range_succ]

/-- The data of a telegram, below its period and repeats. -/
theorem getTelegram_data (tx : Transmitter) (systemCode device : ℕ) (on : Bool) :
    ActionTransmitter.getTelegram tx systemCode device on &&& 0xFFFFF =
      value (actionTrits systemCode device on) := by
  rw [ActionTransmitter.getTelegram, trits_eq]
  exact encodeTelegram_data tx (length_actionTrits systemCode device on)

/-! ## Reading the trits back -/

/-- A loop over as many trits as a telegram ends with reads them from the last one on, and leaves
the telegram without them. -/
theorem readTrits_value {α : Type} (f : α → ℕ → ℕ → α) {is : List ℕ} (a : α) (us : List Trit)
    {ts : List Trit} (hlen : is.length = ts.length) :
    readTrits f is a (value (us ++ ts)) =
      ((is.zip ts.reverse).foldl (fun a p => f a p.1 p.2.val) a, value us) := by
  induction is generalizing a ts with
  | nil =>
      have hts : ts = [] := List.eq_nil_of_length_eq_zero hlen.symm
      rw [hts, List.append_nil]
      rfl
  | cons i is ih =>
      rcases List.eq_nil_or_concat' ts with hts | ⟨ts', t, hts⟩
      · rw [hts] at hlen
        cases hlen
      · have hlen' : is.length = ts'.length := by
          rw [hts, List.length_cons, List.length_append] at hlen
          exact Nat.succ_injective hlen
        -- the last trit is what `code % 3` reads, and `code / 3` drops it
        have hvalue : value (us ++ ts) = value (us ++ ts') * 3 + t.val := by
          rw [hts, ← List.append_assoc, value_concat]
        have hdigit : (value (us ++ ts') * 3 + t.val) % 3 = t.val := by omega
        have hrest : (value (us ++ ts') * 3 + t.val) / 3 = value (us ++ ts') := by omega
        have hnext := ih (f a i t.val) hlen'
        rw [readTrits] at hnext ⊢
        rw [List.foldl_cons, hvalue, hdigit, hrest, hnext, hts, List.reverse_append]
        rfl

theorem readLevel_value (us : List Trit) (on : Bool) :
    readLevel (value (us ++ markTrits on)) = (if on then 2 else 20, value us) := by
  rw [readLevel, readTrits_value _ _ _ rfl]
  cases on <;> rfl

/-- The unit that is read off five trits. -/
theorem readUnit_value (us : List Trit) {device : ℕ} (hdevice : device < 5) :
    readUnit (value (us ++ deviceTrits device)) = (device, value us) := by
  have hall : ∀ d : Fin 5, ([4, 3, 2, 1, 0].zip (deviceTrits d).reverse).foldl
      (fun unit p => if p.2.val = 0 then p.1 else unit) 0 = d.val := by decide
  rw [readUnit, readTrits_value _ _ _ (by simp)]
  exact congrArg (·, value us) (hall ⟨device, hdevice⟩)

/-- Adding up the powers of two is reading the bits. -/
theorem foldl_address (ts : List Trit) :
    ((List.range ts.length).zip ts.reverse).foldl
        (fun address p => if p.2.val = 1 then address + 1 <<< p.1 else address) 0 =
      ofBits (ts.map fun t => decide (t = 1)) := by
  induction ts with
  | nil => rfl
  | cons t ts ih =>
      have hlen : (List.range ts.length).length = ts.reverse.length := by simp
      have hbits : ofBits ((t :: ts).map fun t => decide (t = 1)) =
          (decide (t = 1)).toNat * 2 ^ ts.length + ofBits (ts.map fun t => decide (t = 1)) := by
        rw [List.map_cons, ofBits, List.foldl_cons, foldl_bits, List.length_map]
        simp
      rw [List.length_cons, List.range_succ, List.reverse_cons, List.zip_append hlen,
        List.foldl_append, ih, hbits]
      by_cases h : t = 1
      · simp [h, Nat.shiftLeft_eq, Nat.add_comm]
      · have hval : t.val ≠ 1 := fun hval => h (Fin.ext hval)
        simp [h, hval]

theorem readAddress_value {ts : List Trit} (hlen : ts.length = 5) :
    readAddress (value ts) = (ofBits (ts.map fun t => decide (t = 1)), 0) := by
  have hread := readTrits_value
    (fun address i t => if t = 1 then address + 1 <<< i else address) 0 []
    (List.length_range : (List.range ts.length).length = ts.length)
  rw [foldl_address, hlen] at hread
  exact hread

/-- What the loops read off the data of a telegram. -/
theorem readCode_actionTrits {systemCode device : ℕ} (hcode : systemCode < 32)
    (hdevice : device < 5) (on : Bool) :
    readCode (value (actionTrits systemCode device on)) =
      ⟨if on then 2 else 20, device, systemCode⟩ := by
  have hbits : (addressTrits systemCode).map (fun t => decide (t = 1)) = bits 5 systemCode := by
    rw [addressTrits, List.map_map]
    refine List.map_id'' (fun bit => ?_) _
    cases bit <;> rfl
  rw [readCode, actionTrits, readLevel_value, readUnit_value _ hdevice,
    readAddress_value (length_addressTrits systemCode), hbits, ofBits_bits_of_lt hcode]

/-- What every round of a loop keeps. -/
theorem readTrits_invariant {α : Type} {f : α → ℕ → ℕ → α} {P : α → Prop} {is : List ℕ}
    (hround : ∀ a, ∀ i ∈ is, ∀ t, P a → P (f a i t)) {a : α} (h : P a) (code : ℕ) :
    P (readTrits f is a code).1 := by
  induction is generalizing a code with
  | nil => exact h
  | cons i is ih =>
      exact ih (fun a j hj => hround a j (List.mem_cons_of_mem i hj))
        (hround a i List.mem_cons_self _ h) (code / 3)

/-- Whatever the code is, the unit is one of the five. -/
theorem readUnit_lt (code : ℕ) : (readUnit code).1 < 5 := by
  refine readTrits_invariant (P := fun unit => unit < 5) ?_ (by decide) code
  intro unit i hi t h
  have hi5 : ∀ i ∈ [4, 3, 2, 1, 0], i < 5 := by decide
  by_cases ht : t = 0
  · rw [if_pos ht]
    exact hi5 i hi
  · rw [if_neg ht]
    exact h

/-- The address is at most the sum of the powers of two that may be added to it. -/
theorem readTrits_address_le (is : List ℕ) (a code : ℕ) :
    (readTrits (fun address i t => if t = 1 then address + 1 <<< i else address) is a code).1 ≤
      a + (is.map fun i => 2 ^ i).sum := by
  induction is generalizing a code with
  | nil => exact le_rfl
  | cons i is ih =>
      have hround : (if code % 3 = 1 then a + 1 <<< i else a) ≤ a + 2 ^ i := by
        split
        · rw [Nat.one_shiftLeft]
        · exact Nat.le_add_right a _
      have hrest := ih (if code % 3 = 1 then a + 1 <<< i else a) (code / 3)
      rw [List.map_cons, List.sum_cons]
      rw [readTrits] at hrest ⊢
      rw [List.foldl_cons]
      calc _ ≤ (if code % 3 = 1 then a + 1 <<< i else a) + (is.map fun i => 2 ^ i).sum := hrest
        _ ≤ a + 2 ^ i + (is.map fun i => 2 ^ i).sum := Nat.add_le_add_right hround _
        _ = a + (2 ^ i + (is.map fun i => 2 ^ i).sum) := Nat.add_assoc _ _ _

/-- Whatever the code is, the address has five bits. -/
theorem readAddress_lt (code : ℕ) : (readAddress code).1 < 32 :=
  Nat.lt_succ_of_le (readTrits_address_le [0, 1, 2, 3, 4] 0 code)

end Remote
end LamPI
