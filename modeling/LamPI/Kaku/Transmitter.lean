import LamPI.Kaku.Telegram

/-!
# KlikAanKlikUit transmitter — `kakuTransmitter.cpp`

All four kinds of transmission are copies of one frame; they differ in the group bit, the switch
type and the dim bits.
-/

namespace LamPI
namespace Kaku

open PulseLine BigEndian

/-- `KakuTransmitter`; the pin is the line itself. -/
structure Transmitter where
  periodusec : ℕ
  repeats : ℕ
  deriving DecidableEq, Repr

/-- The constructor; `repeats` is the logarithm of the number of copies. -/
def Transmitter.new (periodusec repeats : ℕ) : Transmitter :=
  { periodusec := periodusec, repeats := ((1 <<< repeats) - 1) % 256 }

/-! ## Parts of a frame -/

def sendStartPulse (b : Board) (tx : Transmitter) : List Action :=
  pulse tx.periodusec (b.uint (tx.periodusec * 10 + tx.periodusec >>> 1))

def sendStopPulse (b : Board) (tx : Transmitter) : List Action :=
  pulse tx.periodusec (b.uint (tx.periodusec * 40))

def sendBit (b : Board) (tx : Transmitter) (isBitOne : Bool) : List Action :=
  if isBitOne then
    pulse tx.periodusec (b.uint (tx.periodusec * 5)) ++ pulse tx.periodusec tx.periodusec
  else
    pulse tx.periodusec tx.periodusec ++ pulse tx.periodusec (b.uint (tx.periodusec * 5))

def sendDimType (tx : Transmitter) : List Action :=
  pulse tx.periodusec tx.periodusec ++ pulse tx.periodusec tx.periodusec

/-- `for (int8_t i = n - 1; i >= 0; i--) _sendBit(value & 1<<i)` -/
def sendBits (b : Board) (tx : Transmitter) (value : ℕ) : ℕ → List Action
  | 0 => []
  | i + 1 => sendBit b tx (bitRead value i) ++ sendBits b tx value i

def sendAddress (b : Board) (tx : Transmitter) (address : ℕ) : List Action :=
  sendBits b tx address 26

def sendUnitBits (b : Board) (tx : Transmitter) (unit : ℕ) : List Action := sendBits b tx unit 4

/-! ## Transmissions -/

/-- `for (int8_t i = _repeats; i >= 0; i--)`: a byte from 128 on is a negative `int8_t`. -/
def Transmitter.copies (tx : Transmitter) (frame : List Action) : List Action :=
  (List.replicate (Int.bmod tx.repeats 256 + 1).toNat frame).flatten

def sendGroup (b : Board) (tx : Transmitter) (address : ℕ) (switchOn : Bool) : List Action :=
  tx.copies (sendStartPulse b tx ++ sendAddress b tx address ++ sendBit b tx true ++
    sendBit b tx switchOn ++ sendUnitBits b tx 0 ++ sendStopPulse b tx)

def sendUnit (b : Board) (tx : Transmitter) (address unit : ℕ) (switchOn : Bool) : List Action :=
  tx.copies (sendStartPulse b tx ++ sendAddress b tx address ++ sendBit b tx false ++
    sendBit b tx switchOn ++ sendUnitBits b tx unit ++ sendStopPulse b tx)

def sendDim (b : Board) (tx : Transmitter) (address unit dimLevel : ℕ) : List Action :=
  tx.copies (sendStartPulse b tx ++ sendAddress b tx address ++ sendBit b tx false ++
    sendDimType tx ++ sendUnitBits b tx unit ++ sendBits b tx dimLevel 4 ++ sendStopPulse b tx)

def sendGroupDim (b : Board) (tx : Transmitter) (address dimLevel : ℕ) : List Action :=
  tx.copies (sendStartPulse b tx ++ sendAddress b tx address ++ sendBit b tx true ++
    sendDimType tx ++ sendUnitBits b tx 0 ++ sendBits b tx dimLevel 4 ++ sendStopPulse b tx)

inductive Command where
  | unit (u : Fin 16) (switchOn : Bool)
  | group (switchOn : Bool)
  | dim (u dimLevel : Fin 16)
  | groupDim (dimLevel : Fin 16)
  deriving DecidableEq, Repr

def Command.send (b : Board) (tx : Transmitter) (address : ℕ) : Command → List Action
  | .unit u switchOn => sendUnit b tx address u switchOn
  | .group switchOn => sendGroup b tx address switchOn
  | .dim u dimLevel => sendDim b tx address u dimLevel
  | .groupDim dimLevel => sendGroupDim b tx address dimLevel

def onOff (switchOn : Bool) : SwitchType := if switchOn then .on else .off

/-- What a command says; of the address only 26 bits are sent. -/
def Command.telegram (address : ℕ) (cmd : Command) : Telegram :=
  let address : Fin (2 ^ 26) := ⟨address % 2 ^ 26, Nat.mod_lt _ (Nat.two_pow_pos 26)⟩
  match cmd with
  | .unit u switchOn => ⟨address, false, onOff switchOn, u, none⟩
  | .group switchOn => ⟨address, true, onOff switchOn, 0, none⟩
  | .dim u dimLevel => ⟨address, false, .dim, u, some dimLevel⟩
  | .groupDim dimLevel => ⟨address, true, .dim, 0, some dimLevel⟩

/-! ## Pulses -/

def symbolPulses (p : ℕ) : Symbol → List (ℕ × ℕ)
  | .zero => [(p, p), (p, p * 5)]
  | .one => [(p, p * 5), (p, p)]
  | .dim => [(p, p), (p, p)]

def pulses (p : ℕ) (y : Telegram) : List (ℕ × ℕ) :=
  [(p, p * 10 + p / 2)] ++ y.symbols.flatMap (symbolPulses p) ++ [(p, p * 40)]

variable {b : Board} {p : ℕ} {tx : Transmitter}

theorem sendBit_eq (hp : tx.periodusec ≤ 409) (bit : Bool) :
    sendBit b tx bit = train (symbolPulses tx.periodusec (Symbol.ofBool bit)) := by
  have h5 : b.uint (tx.periodusec * 5) = tx.periodusec * 5 := b.uint_of_lt (by omega)
  cases bit with
  | false => simp [sendBit, Symbol.ofBool, symbolPulses, train, h5]
  | true => simp [sendBit, Symbol.ofBool, symbolPulses, train, h5]

theorem sendBits_eq (hp : tx.periodusec ≤ 409) (value n : ℕ) :
    sendBits b tx value n =
      train (((bits n value).map Symbol.ofBool).flatMap (symbolPulses tx.periodusec)) := by
  induction n with
  | zero => rfl
  | succ n ih =>
      rw [sendBits, ih, sendBit_eq hp, ← train_append]
      rfl

/-- The frame of a telegram, part by part. -/
theorem train_pulses (hp : tx.periodusec ≤ 409) (y : Telegram) :
    train (pulses tx.periodusec y) =
      sendStartPulse b tx ++ sendBits b tx y.address 26 ++ sendBit b tx y.groupBit ++
        train (symbolPulses tx.periodusec y.switchType.symbol) ++ sendBits b tx y.unit 4 ++
        train (((dimBits y.dim).map Symbol.ofBool).flatMap (symbolPulses tx.periodusec)) ++
        sendStopPulse b tx := by
  have hstart : sendStartPulse b tx =
      train [(tx.periodusec, tx.periodusec * 10 + tx.periodusec / 2)] := by
    rw [sendStartPulse, Nat.shiftRight_eq_div_pow, b.uint_of_lt (by omega)]
    simp [train]
  have hstop : sendStopPulse b tx = train [(tx.periodusec, tx.periodusec * 40)] := by
    rw [sendStopPulse, b.uint_of_lt (by omega)]
    simp [train]
  rw [hstart, hstop, sendBits_eq hp, sendBits_eq hp, sendBit_eq hp, pulses, Telegram.symbols]
  simp only [train_append, List.map_append, List.flatMap_append, List.map_cons, List.map_nil,
    List.flatMap_cons, List.flatMap_nil, List.append_nil, List.append_assoc]

theorem train_onOff (hp : tx.periodusec ≤ 409) (switchOn : Bool) :
    train (symbolPulses tx.periodusec (onOff switchOn).symbol) = sendBit b tx switchOn := by
  rw [sendBit_eq hp]
  cases switchOn <;> rfl

theorem train_dimType : train (symbolPulses tx.periodusec SwitchType.dim.symbol) =
    sendDimType tx := by
  simp [SwitchType.symbol, symbolPulses, sendDimType, train]

theorem bits_mod (n v : ℕ) : bits n (v % 2 ^ n) = bits n v := by
  have h := bits_ofBits (bits n v)
  rwa [length_bits, ofBits_bits] at h

/-- The constructor's `_repeats` makes as many copies as its argument says. -/
theorem copies_new {r : ℕ} (hr : r ≤ 7) (frame : List Action) :
    (Transmitter.new p r).copies frame = (List.replicate (2 ^ r) frame).flatten := by
  have hcopies : ∀ n : ℕ, 1 ≤ n → n ≤ 128 →
      (Int.bmod ((n - 1) % 256 : ℕ) 256 + 1).toNat = n := by
    intro n hpos hle
    rw [Nat.mod_eq_of_lt (by omega), Int.bmod_eq_of_le (by omega) (by omega)]
    omega
  have hle : 2 ^ r ≤ 128 := Nat.pow_le_pow_right (by decide) hr
  have hcount : (Int.bmod (Transmitter.new p r).repeats 256 + 1).toNat = 2 ^ r := by
    have hbyte : (Transmitter.new p r).repeats = (2 ^ r - 1) % 256 := by
      rw [← Nat.one_shiftLeft, Transmitter.new]
    rw [hbyte]
    exact hcopies _ Nat.one_le_two_pow hle
  unfold Transmitter.copies
  rw [hcount]

/-- A command is sent as `2 ^ r` trains of pulses. -/
theorem send_eq (b : Board) {r : ℕ} (hp : p ≤ 409) (hr : r ≤ 7) (address : ℕ) (cmd : Command) :
    cmd.send b (Transmitter.new p r) address =
      train (List.replicate (2 ^ r) (pulses p (cmd.telegram address))).flatten := by
  have hperiod : (Transmitter.new p r).periodusec ≤ 409 := hp
  have hframe := train_pulses (b := b) hperiod (cmd.telegram address)
  -- only the low 26 bits of the address are sent
  have haddress : ∀ g w u d, sendBits b (Transmitter.new p r)
      (Telegram.mk ⟨address % 2 ^ 26, Nat.mod_lt _ (Nat.two_pow_pos 26)⟩ g w u d).address 26 =
        sendAddress b (Transmitter.new p r) address := by
    intro g w u d
    rw [sendAddress, sendBits_eq hperiod, sendBits_eq hperiod, bits_mod]
  have hswitch := train_onOff (b := b) hperiod
  have hdim : train (symbolPulses (Transmitter.new p r).periodusec SwitchType.dim.symbol) =
      sendDimType (Transmitter.new p r) := train_dimType
  have hlevel := sendBits_eq (b := b) hperiod
  have hnil : train [] = [] := rfl
  have hone : train (pulses p (cmd.telegram address)) =
      train (pulses (Transmitter.new p r).periodusec (cmd.telegram address)) := rfl
  rw [train_replicate, hone, hframe]
  -- the four functions differ in the switch type and in what follows it
  cases cmd with
  | unit u switchOn =>
      rw [Command.send, sendUnit, copies_new hr, Command.telegram, haddress, hswitch]
      simp [sendUnitBits, dimBits, hnil]
  | group switchOn =>
      rw [Command.send, sendGroup, copies_new hr, Command.telegram, haddress, hswitch]
      simp [sendUnitBits, dimBits, hnil]
  | dim u dimLevel =>
      rw [Command.send, sendDim, copies_new hr, Command.telegram, haddress, hdim, dimBits,
        ← hlevel, sendUnitBits]
  | groupDim dimLevel =>
      rw [Command.send, sendGroupDim, copies_new hr, Command.telegram, haddress, hdim, dimBits,
        ← hlevel, sendUnitBits]
      rfl

/-! ## What the pulses say -/

/-- The pulses of a bit determine it. -/
theorem symbols_of_pulses (hp : 0 < p) {xs ys : List Symbol} {us vs : List (ℕ × ℕ)}
    (hlen : xs.length = ys.length)
    (h : xs.flatMap (symbolPulses p) ++ us = ys.flatMap (symbolPulses p) ++ vs) : xs = ys := by
  have hbit : ∀ x y : Symbol, symbolPulses p x = symbolPulses p y → x = y := by
    intro x y hxy
    cases x <;> cases y <;> simp [symbolPulses] at hxy ⊢ <;> omega
  induction xs generalizing ys with
  | nil =>
      cases ys with
      | nil => rfl
      | cons y ys => cases hlen
  | cons x xs ih =>
      cases ys with
      | nil => cases hlen
      | cons y ys =>
          rw [List.flatMap_cons, List.flatMap_cons, List.append_assoc, List.append_assoc] at h
          have htwo : ∀ z, (symbolPulses p z).length = 2 := fun z => by cases z <;> rfl
          rcases List.append_inj h ((htwo x).trans (htwo y).symm) with ⟨hhead, htail⟩
          rw [hbit x y hhead, ih (Nat.succ.inj hlen) htail]

theorem address_telegram (address : ℕ) (cmd : Command) :
    ((cmd.telegram address).address : ℕ) = address % 2 ^ 26 := by
  cases cmd <;> rfl

theorem telegram_congr {address address' : ℕ} (h : address % 2 ^ 26 = address' % 2 ^ 26)
    (cmd : Command) : cmd.telegram address = cmd.telegram address' := by
  simp only [Command.telegram, h]

/-- The address comes first behind the start pulse. -/
theorem exists_pulses_eq (p : ℕ) (y : Telegram) :
    ∃ ps, pulses p y = (p, p * 10 + p / 2) ::
      (((bits 26 y.address).map Symbol.ofBool).flatMap (symbolPulses p) ++ ps) := by
  rw [pulses, Telegram.symbols, List.map_append, List.map_append, List.flatMap_append,
    List.flatMap_append, List.append_assoc, List.append_assoc, List.append_assoc]
  exact ⟨_, rfl⟩

/-- Frames determine the address that is sent. -/
theorem address_of_frames (hp : 0 < p) {m n : ℕ} (hm : 0 < m) (hn : 0 < n) {y y' : Telegram}
    (h : train (List.replicate m (pulses p y)).flatten =
      train (List.replicate n (pulses p y')).flatten) : y.address = y'.address := by
  obtain ⟨m, rfl⟩ := Nat.exists_eq_succ_of_ne_zero hm.ne'
  obtain ⟨n, rfl⟩ := Nat.exists_eq_succ_of_ne_zero hn.ne'
  have hpulses := train_inj h
  rcases exists_pulses_eq p y with ⟨ps, hps⟩
  rcases exists_pulses_eq p y' with ⟨ps', hps'⟩
  rw [List.replicate_succ, List.replicate_succ, List.flatten_cons, List.flatten_cons, hps, hps',
    List.cons_append, List.cons_append, List.cons.injEq, List.append_assoc, List.append_assoc]
    at hpulses
  have haddress : (bits 26 y.address).map Symbol.ofBool = (bits 26 y'.address).map Symbol.ofBool :=
    symbols_of_pulses hp (by simp) hpulses.2
  have hbool : ∀ bit bit' : Bool, Symbol.ofBool bit = Symbol.ofBool bit' → bit = bit' := by decide
  have hbits := List.map_injective_iff.2 (fun bit bit' => hbool bit bit') haddress
  have hvalue := congrArg ofBits hbits
  rw [ofBits_bits_of_lt y.address.isLt, ofBits_bits_of_lt y'.address.isLt] at hvalue
  exact Fin.ext hvalue

end Kaku
end LamPI
