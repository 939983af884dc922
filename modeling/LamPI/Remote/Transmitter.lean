import LamPI.Remote.Receiver

/-!
# Remote transmitter — `RemoteTransmitter.cpp`

A telegram travels as one 32-bit word: 9 bits of period, 3 bits of repeats and 20 bits of base-3
data.  Before sending, the data is turned into a base-4 number with the digits reversed, so that
the first trit to send is in the lowest two bits.
-/

namespace LamPI
namespace Remote

open PulseLine BigEndian

/-- `RemoteTransmitter`; the pin is the line itself. -/
structure Transmitter where
  periodusec : ℕ
  repeats : ℕ
  deriving DecidableEq, Repr

def encodeTelegram (tx : Transmitter) (trits : List ℕ) : ℕ :=
  let data := trits.foldl (fun data t => (data * 3 % 2 ^ 32 + t) % 2 ^ 32) 0
  let data := data ||| (tx.periodusec <<< 23) % 2 ^ 32
  data ||| (tx.repeats <<< 20) % 2 ^ 32

def toBase4 : ℕ → ℕ → ℕ → ℕ
  | 0, _, dataBase4 => dataBase4
  | n + 1, code, dataBase4 => toBase4 n (code / 3) ((dataBase4 <<< 2) % 2 ^ 32 ||| code % 3)

/-- The `switch` of `sendCode`. -/
def sendTrit (b : Board) (periodusec : ℕ) : ℕ → List Action
  | 0 => pulse periodusec (b.uint (periodusec * 3)) ++ pulse periodusec (b.uint (periodusec * 3))
  | 1 => pulse (b.uint (periodusec * 3)) periodusec ++ pulse (b.uint (periodusec * 3)) periodusec
  | 2 => pulse periodusec (b.uint (periodusec * 3)) ++ pulse (b.uint (periodusec * 3)) periodusec
  | _ => []

def sendTrits (b : Board) (periodusec : ℕ) : ℕ → ℕ → List Action
  | 0, _ => []
  | n + 1, code => sendTrit b periodusec (code &&& 3) ++ sendTrits b periodusec n (code >>> 2)

def sendCode (b : Board) (code periodusec repeats : ℕ) : List Action :=
  let code := code &&& 0xfffff
  let dataBase4 := toBase4 12 code 0
  let repeats := 1 <<< (repeats &&& 7) % 256
  (List.replicate repeats
    (sendTrits b periodusec 12 dataBase4 ++ pulse periodusec (b.uint (periodusec * 31)))).flatten

/-- The static `RemoteTransmitter::sendTelegram`. -/
def sendTelegram (b : Board) (data : ℕ) : List Action :=
  let periodusec := b.uint (data >>> 23)
  let repeats := (data >>> 20) &&& 7
  sendCode b data periodusec repeats

def isSameCode (encodedTelegram receivedData : ℕ) : Bool :=
  receivedData == (encodedTelegram &&& 0xFFFFF)

/-! ## The word -/

variable {ts : List Trit}

theorem foldl_trits (hts : ts.length ≤ 12) :
    (ts.map Fin.val).foldl (fun data t => (data * 3 % 2 ^ 32 + t) % 2 ^ 32) 0 = value ts := by
  have hlt : value ts < 2 ^ 32 :=
    (value_lt ts).trans_le ((Nat.pow_le_pow_right (by decide) hts).trans (by decide))
  have hmod := foldl_digits_mod 3 (2 ^ 32) 0 (ts.map Fin.val)
  have hfun : (fun data t => (data * 3 % 2 ^ 32 + t) % 2 ^ 32) =
      fun data t : ℕ => (data * 3 + t) % 2 ^ 32 := by
    funext data t
    rw [Nat.mod_add_mod]
  rw [hfun]
  rw [Nat.zero_mod] at hmod
  rw [hmod]
  exact Nat.mod_eq_of_lt hlt

/-- The three parts of the word do not overlap. -/
theorem encodeTelegram_eq {p r : ℕ} (hp : p < 2 ^ 9) (hr : r < 2 ^ 3) (hts : ts.length = 12) :
    encodeTelegram ⟨p, r⟩ (ts.map Fin.val) = 2 ^ 20 * (2 ^ 3 * p + r) + value ts := by
  have hvalue : value ts < 2 ^ 20 :=
    (value_lt ts).trans_le (by rw [hts]; decide)
  have hperiod : (p <<< 23) % 2 ^ 32 = 2 ^ 20 * (2 ^ 3 * p) := by
    rw [Nat.shiftLeft_eq, Nat.mod_eq_of_lt (by omega)]
    ring
  have hrepeats : (r <<< 20) % 2 ^ 32 = 2 ^ 20 * r := by
    rw [Nat.shiftLeft_eq, Nat.mod_eq_of_lt (by omega)]
    ring
  have hupper : 2 ^ 3 * p ||| r = 2 ^ 3 * p + r := (Nat.two_pow_add_eq_or_of_lt hr p).symm
  have hor : 2 ^ 20 * (2 ^ 3 * p) ||| 2 ^ 20 * r = 2 ^ 20 * (2 ^ 3 * p + r) := by
    rw [← hupper, Nat.mul_comm (2 ^ 20), Nat.mul_comm (2 ^ 20), Nat.mul_comm (2 ^ 20),
      ← Nat.shiftLeft_eq, ← Nat.shiftLeft_eq, ← Nat.shiftLeft_eq, Nat.shiftLeft_or_distrib]
  have hword := (Nat.two_pow_add_eq_or_of_lt hvalue (2 ^ 3 * p + r)).symm
  rw [encodeTelegram, foldl_trits (le_of_eq hts), hperiod, hrepeats, Nat.or_assoc, hor,
    Nat.or_comm, hword]

/-- Whatever the period and the repeats are, the data is in the low 20 bits. -/
theorem encodeTelegram_data (tx : Transmitter) (hts : ts.length = 12) :
    encodeTelegram tx (ts.map Fin.val) &&& 0xFFFFF = value ts := by
  have hand : ∀ n : ℕ, n &&& 0xFFFFF = n % 2 ^ 20 := fun n => Nat.and_two_pow_sub_one_eq_mod n 20
  have hlow : ∀ n k : ℕ, 20 ≤ k → (n <<< k) % 2 ^ 32 % 2 ^ 20 = 0 := by
    intro n k hk
    rw [Nat.mod_mod_of_dvd _ (by decide), Nat.shiftLeft_eq]
    exact Nat.mod_eq_zero_of_dvd (Dvd.dvd.mul_left (Nat.pow_dvd_pow 2 hk) n)
  have hvalue : value ts < 2 ^ 20 := (value_lt ts).trans_le (by rw [hts]; decide)
  rw [encodeTelegram, foldl_trits hts.le, hand]
  simp only [Nat.or_mod_two_pow, hlow _ 23 (by decide), hlow _ 20 le_rfl, Nat.or_zero]
  exact Nat.mod_eq_of_lt hvalue

/-- The fields that `sendTelegram` takes out of the word. -/
theorem decode_word {p r v : ℕ} (hr : r < 2 ^ 3) (hv : v < 2 ^ 20) :
    (2 ^ 20 * (2 ^ 3 * p + r) + v) >>> 23 = p ∧
      ((2 ^ 20 * (2 ^ 3 * p + r) + v) >>> 20) &&& 7 = r ∧
      (2 ^ 20 * (2 ^ 3 * p + r) + v) &&& 0xfffff = v := by
  refine ⟨?_, ?_, ?_⟩
  · rw [Nat.shiftRight_eq_div_pow]
    omega
  · have hand : ∀ n : ℕ, n &&& 7 = n % 2 ^ 3 := fun n => Nat.and_two_pow_sub_one_eq_mod n 3
    rw [hand, Nat.shiftRight_eq_div_pow]
    omega
  · have hand : ∀ n : ℕ, n &&& 0xfffff = n % 2 ^ 20 :=
      fun n => Nat.and_two_pow_sub_one_eq_mod n 20
    rw [hand]
    omega

/-! ## The base-4 number -/

/-- The digits come out reversed. -/
theorem toBase4_eq (k d : ℕ) (hk : k + ts.length ≤ 12) (hd : d < 4 ^ k) :
    toBase4 ts.length (value ts) d = d * 4 ^ ts.length + ofDigits 4 (ts.reverse.map Fin.val) := by
  induction ts using List.reverseRecOn generalizing k d with
  | nil => simp [toBase4, ofDigits]
  | append_singleton us t ih =>
      have ht := t.isLt
      have hd12 : d * 4 + t.val < 4 ^ (k + 1) := by
        rw [pow_succ]
        omega
      rw [List.length_append, List.length_singleton] at hk ⊢
      have hsmall : 4 ^ (k + 1) ≤ 4 ^ 12 := Nat.pow_le_pow_right (by decide) (by omega)
      -- the shift makes room for the two bits of the trit
      have hshift : (d <<< 2) % 2 ^ 32 ||| value (us ++ [t]) % 3 = d * 4 + t.val := by
        have hor := (Nat.two_pow_add_eq_or_of_lt (i := 2) (b := t.val) (by omega) d).symm
        have hdigit : (value us * 3 + t.val) % 3 = t.val := by omega
        rw [value_concat, hdigit, Nat.shiftLeft_eq, Nat.mod_eq_of_lt (by omega), Nat.mul_comm d,
          hor]
      have hdiv : value (us ++ [t]) / 3 = value us := by
        rw [value_concat]
        omega
      rw [toBase4, hshift, hdiv, ih (k + 1) (d * 4 + t.val) (by omega) hd12, List.reverse_append,
        List.reverse_singleton, List.singleton_append, List.map_cons]
      have hcons : ofDigits 4 (t.val :: us.reverse.map Fin.val) =
          t.val * 4 ^ us.length + ofDigits 4 (us.reverse.map Fin.val) := by
        rw [ofDigits, List.foldl_cons, foldl_digits, List.length_map, List.length_reverse]
        simp
      rw [hcons, pow_succ]
      ring

/-- The trits are sent in their order. -/
theorem sendTrits_eq (b : Board) (p : ℕ) (ts : List Trit) :
    sendTrits b p ts.length (ofDigits 4 (ts.reverse.map Fin.val)) =
      ts.flatMap fun t => sendTrit b p t.val := by
  induction ts with
  | nil => rfl
  | cons t us ih =>
      have hconcat : ofDigits 4 ((t :: us).reverse.map Fin.val) =
          ofDigits 4 (us.reverse.map Fin.val) * 4 + t.val := by
        rw [List.reverse_cons, List.map_append, ofDigits, List.foldl_append]
        rfl
      -- the two low bits are the next trit, and the shift drops them
      have hlow : (ofDigits 4 (us.reverse.map Fin.val) * 4 + t.val) &&& 3 = t.val := by
        have hand := Nat.and_two_pow_sub_one_eq_mod
          (ofDigits 4 (us.reverse.map Fin.val) * 4 + t.val) 2
        have hmod : (ofDigits 4 (us.reverse.map Fin.val) * 4 + t.val) % 2 ^ 2 = t.val := by
          have := t.isLt
          omega
        exact hand.trans hmod
      have hhigh : (ofDigits 4 (us.reverse.map Fin.val) * 4 + t.val) >>> 2 =
          ofDigits 4 (us.reverse.map Fin.val) := by
        rw [Nat.shiftRight_eq_div_pow]
        have := t.isLt
        omega
      rw [List.length_cons, sendTrits, hconcat, hlow, hhigh, ih, List.flatMap_cons]

/-! ## Pulses -/

def tritPulses (p : ℕ) : Trit → List (ℕ × ℕ)
  | 0 => [(p, p * 3), (p, p * 3)]
  | 1 => [(p * 3, p), (p * 3, p)]
  | 2 => [(p, p * 3), (p * 3, p)]

def pulses (p : ℕ) (ts : List Trit) : List (ℕ × ℕ) := ts.flatMap (tritPulses p) ++ [(p, p * 31)]

/-- The low 20 bits of the code are sent as a number of trains of pulses. -/
theorem sendCode_eq (b : Board) {code p : ℕ} (hp : p < 2 ^ 9) (hts : ts.length = 12)
    (hcode : code &&& 0xfffff = value ts) (r : ℕ) :
    sendCode b code p r =
      train (List.replicate (1 <<< (r &&& 7) % 256) (pulses p ts)).flatten := by
  -- base 3 to base 4, in the opposite order
  have hbase4 : toBase4 12 (value ts) 0 = ofDigits 4 (ts.reverse.map Fin.val) := by
    have h : toBase4 ts.length (value ts) 0 =
        0 * 4 ^ ts.length + ofDigits 4 (ts.reverse.map Fin.val) :=
      toBase4_eq 0 0 (by omega) (by decide)
    rw [hts] at h
    simpa using h
  have htrit : ∀ t : Trit, sendTrit b p t.val = train (tritPulses p t) := by
    intro t
    have h3 : b.uint (p * 3) = p * 3 := b.uint_of_lt (by omega)
    match t with
    | 0 => simp [sendTrit, tritPulses, h3, train]
    | 1 => simp [sendTrit, tritPulses, h3, train]
    | 2 => simp [sendTrit, tritPulses, h3, train]
  have htrits : sendTrits b p 12 (ofDigits 4 (ts.reverse.map Fin.val)) =
      train (ts.flatMap (tritPulses p)) := by
    have h := sendTrits_eq b p ts
    rw [hts] at h
    rw [h, train, List.flatMap_assoc]
    congr 1
    funext t
    exact htrit t
  have htelegram : train (pulses p ts) =
      sendTrits b p 12 (ofDigits 4 (ts.reverse.map Fin.val)) ++
        pulse p (b.uint (p * 31)) := by
    rw [pulses, train_append, htrits, b.uint_of_lt (by omega)]
    rfl
  rw [sendCode]
  simp only [hcode, hbase4]
  rw [← htelegram, train_replicate]

/-- The word of 12 trits is sent as `2 ^ r` trains of pulses. -/
theorem sendTelegram_eq (b : Board) {p r : ℕ} (hp : p < 2 ^ 9) (hr : r < 2 ^ 3)
    (hts : ts.length = 12) :
    sendTelegram b (encodeTelegram ⟨p, r⟩ (ts.map Fin.val)) =
      train (List.replicate (2 ^ r) (pulses p ts)).flatten := by
  have hvalue : value ts < 2 ^ 20 := (value_lt ts).trans_le (by rw [hts]; decide)
  -- the three fields of the word do not overlap
  rcases decode_word (p := p) hr hvalue with ⟨hperiod, hrepeats, hcode⟩
  have hand : r &&& 7 = r := by
    rw [Nat.and_two_pow_sub_one_eq_mod r 3, Nat.mod_eq_of_lt hr]
  -- the repetitions fit a byte
  have hcount : 1 <<< (r &&& 7) % 256 = 2 ^ r := by
    rw [hand, Nat.one_shiftLeft]
    exact Nat.mod_eq_of_lt ((Nat.pow_lt_pow_right (by decide) hr).trans_le (by decide))
  rw [encodeTelegram_eq hp hr hts, sendTelegram, hperiod, hrepeats, b.uint_of_lt (by omega),
    sendCode_eq b hp hts hcode, hcount]

end Remote
end LamPI
