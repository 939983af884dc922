import LamPI.Remote.Action
import LamPI.Remote.RoundTrip

/-!
# Remotes — `BlokkerTransmitter`, `KaKuTransmitter` and `ElroTransmitter`

Besides the Action remotes three more send by `RemoteTransmitter`, one of them in two forms.  Each
has a layout of its own for the 12 trits, which takes the bits from the lowest one on.  All of them
are meant to send the telegram that `getTelegram` returns; the form of `KaKuTransmitter` with four
arguments passes only three of them on.
-/

namespace LamPI
namespace Remote

open PulseLine

/-! ## The transmitters -/

/-- One round of a loop that puts the lowest bit of a byte into a trit and shifts it out. -/
def shiftOut (one null : ℕ) (s : ℕ × List ℕ) (i : ℕ) : ℕ × List ℕ :=
  (s.1 >>> 1, s.2.set i (if s.1 &&& 1 ≠ 0 then one else null))

namespace BlokkerTransmitter

/-- The array `trits` of `getTelegram`; `device--` is that of a `byte`. -/
def trits (device : ℕ) (on : Bool) : List ℕ :=
  let device := (device + 255) % 256
  let trits := ([1, 2, 3].foldl (shiftOut 0 1) (device, List.replicate 12 0)).2
  trits.set 8 (if on then 1 else 0)

def getTelegram (tx : Transmitter) (device : ℕ) (on : Bool) : ℕ :=
  encodeTelegram tx (trits device on)

def sendSignal (b : Board) (tx : Transmitter) (device : ℕ) (on : Bool) : List Action :=
  sendTelegram b (getTelegram tx device on)

end BlokkerTransmitter

namespace KaKuTransmitter

/-- `address -= 65`, of the 8 bits of a `char`: its sign is shifted in from above, and does not get
down to the four bits that are read. -/
def dial (address : ℕ) : ℕ := (address + 191) % 256

/-- One round of the loop over the address and the device. -/
def setTrits (s : ℕ × ℕ × List ℕ) (i : ℕ) : ℕ × ℕ × List ℕ :=
  let address := shiftOut 2 0 (s.1, s.2.2) i
  let device := shiftOut 2 0 (s.2.1, address.2) (i + 4)
  (address.1, device.1, device.2)

def setEnd (trits : List ℕ) (on : Bool) : List ℕ :=
  (((trits.set 8 0).set 9 2).set 10 2).set 11 (if on then 2 else 0)

def trits (address device : ℕ) (on : Bool) : List ℕ :=
  let device := (device + 255) % 256
  let s := (List.range 4).foldl setTrits (dial address, device, List.replicate 12 0)
  setEnd s.2.2 on

def getTelegram (tx : Transmitter) (address device : ℕ) (on : Bool) : ℕ :=
  encodeTelegram tx (trits address device on)

def sendSignal (b : Board) (tx : Transmitter) (address device : ℕ) (on : Bool) : List Action :=
  sendTelegram b (getTelegram tx address device on)

def groupTrits (address group device : ℕ) (on : Bool) : List ℕ :=
  let group := (group + 255) % 256
  let device := (device + 255) % 256
  let address := (List.range 4).foldl (shiftOut 2 0) (dial address, List.replicate 12 0)
  let device := [4, 5].foldl (shiftOut 2 0) (device, address.2)
  let group := [6, 7].foldl (shiftOut 2 0) (group, device.2)
  setEnd group.2 on

def getGroupTelegram (tx : Transmitter) (address group device : ℕ) (on : Bool) : ℕ :=
  encodeTelegram tx (groupTrits address group device on)

/-- `KaKuTransmitter::sendSignal(address, group, device, on)`: three arguments select the other
`getTelegram`, and `device` is not among them. -/
def sendGroupSignal (b : Board) (tx : Transmitter) (address group _device : ℕ) (on : Bool) :
    List Action :=
  sendTelegram b (getTelegram tx address group on)

end KaKuTransmitter

namespace ElroTransmitter

/-- One round of the loop of `getTelegram`. -/
def setTrits (device : ℤ) (s : ℕ × List ℕ) (i : ℕ) : ℕ × List ℕ :=
  let address := shiftOut 0 2 s i
  (address.1, address.2.set (i + 5) (if (i : ℤ) = device then 0 else 2))

def trits (systemCode : ℕ) (device : ℤ) (on : Bool) : List ℕ :=
  let trits := ((List.range 5).foldl (setTrits device) (systemCode, List.replicate 12 0)).2
  (trits.set 10 (if on then 0 else 2)).set 11 (if !on then 0 else 2)

def getTelegram (tx : Transmitter) (systemCode : ℕ) (device : ℤ) (on : Bool) : ℕ :=
  encodeTelegram tx (trits systemCode device on)

def sendSignal (b : Board) (tx : Transmitter) (systemCode : ℕ) (device : ℤ) (on : Bool) :
    List Action :=
  sendTelegram b (getTelegram tx systemCode device on)

end ElroTransmitter

/-! ## The trits of a telegram -/

/-- What the numerals of a trit rest on. -/
local instance neZero_three : NeZero 3 := ⟨by decide⟩

def bitTrits (one zero : Trit) (n v : ℕ) : List Trit :=
  (List.range n).map fun i => if v.testBit i then one else zero

def blokkerTrits (device : ℕ) (on : Bool) : List Trit :=
  0 :: bitTrits 0 1 3 device ++ [0, 0, 0, 0, if on then 1 else 0, 0, 0, 0]

def endTrits (on : Bool) : List Trit := [0, 2, 2, if on then 2 else 0]

def kakuTrits (address device : ℕ) (on : Bool) : List Trit :=
  bitTrits 2 0 4 address ++ bitTrits 2 0 4 device ++ endTrits on

def groupTrits (address group device : ℕ) (on : Bool) : List Trit :=
  bitTrits 2 0 4 address ++ (bitTrits 2 0 2 device ++ bitTrits 2 0 2 group) ++ endTrits on

def elroTrits (systemCode device : ℕ) (on : Bool) : List Trit :=
  bitTrits 0 2 5 systemCode ++ deviceTrits device ++ markTrits (!on)

@[simp] theorem length_bitTrits (one zero : Trit) (n v : ℕ) :
    (bitTrits one zero n v).length = n := by
  simp [bitTrits]

variable {one zero : Trit} {n v w : ℕ}

theorem bitTrits_inj (hne : one ≠ zero) (hv : v < 2 ^ n) (hw : w < 2 ^ n)
    (h : bitTrits one zero n v = bitTrits one zero n w) : v = w := by
  apply Nat.eq_of_testBit_eq
  intro i
  by_cases hi : i < n
  · have hbit := List.map_inj_left.1 h i (List.mem_range.2 hi)
    cases hvi : v.testBit i <;> cases hwi : w.testBit i <;> simp_all
  · have hpow : 2 ^ n ≤ 2 ^ i := Nat.pow_le_pow_right Nat.two_pos (Nat.le_of_not_lt hi)
    rw [Nat.testBit_lt_two_pow (hv.trans_le hpow), Nat.testBit_lt_two_pow (hw.trans_le hpow)]

theorem shiftOut_eq (one zero : Trit) (s : ℕ × List ℕ) (i : ℕ) :
    shiftOut one.val zero.val s i =
      (s.1 >>> 1, s.2.set i (if s.1.testBit 0 then one else zero).val) := by
  rw [shiftOut, lowest_bit]

variable {address group device systemCode : ℕ}

theorem byte_pred {n : ℕ} (h : 1 ≤ n) (h' : n ≤ 16) : (n + 255) % 256 = n - 1 := by omega

theorem dial_eq (h : 65 ≤ address) (h' : address ≤ 80) :
    KaKuTransmitter.dial address = address - 65 := by
  rw [KaKuTransmitter.dial]
  omega

theorem blokker_trits_eq (hdevice : 1 ≤ device) (hdevice' : device ≤ 8) (on : Bool) :
    BlokkerTransmitter.trits device on = (blokkerTrits (device - 1) on).map Fin.val := by
  have hround : ∀ s i, shiftOut 0 1 s i =
      (s.1 >>> 1, s.2.set i (if s.1.testBit 0 then (0 : Trit) else 1).val) := shiftOut_eq 0 1
  rw [BlokkerTransmitter.trits, byte_pred hdevice (by omega)]
  simp only [List.foldl_cons, List.foldl_nil, hround]
  cases on with
  | false => simp [blokkerTrits, bitTrits, List.range_succ]
  | true => simp [blokkerTrits, bitTrits, List.range_succ]

theorem kaku_round (s : ℕ × List ℕ) (i : ℕ) :
    shiftOut 2 0 s i = (s.1 >>> 1, s.2.set i (if s.1.testBit 0 then (2 : Trit) else 0).val) :=
  shiftOut_eq 2 0 s i

theorem kaku_trits_eq (haddress : 65 ≤ address) (haddress' : address ≤ 80) (hdevice : 1 ≤ device)
    (hdevice' : device ≤ 16) (on : Bool) :
    KaKuTransmitter.trits address device on =
      (kakuTrits (address - 65) (device - 1) on).map Fin.val := by
  rw [KaKuTransmitter.trits, byte_pred hdevice hdevice', dial_eq haddress haddress']
  simp only [List.range_succ, List.range_zero, List.nil_append, List.cons_append, List.foldl_cons,
    List.foldl_nil, KaKuTransmitter.setTrits, KaKuTransmitter.setEnd, kaku_round]
  cases on with
  | false => simp [kakuTrits, endTrits, bitTrits, List.range_succ]
  | true => simp [kakuTrits, endTrits, bitTrits, List.range_succ]

theorem group_trits_eq (haddress : 65 ≤ address) (haddress' : address ≤ 80) (hgroup : 1 ≤ group)
    (hgroup' : group ≤ 4) (hdevice : 1 ≤ device) (hdevice' : device ≤ 4) (on : Bool) :
    KaKuTransmitter.groupTrits address group device on =
      (groupTrits (address - 65) (group - 1) (device - 1) on).map Fin.val := by
  rw [KaKuTransmitter.groupTrits, byte_pred hgroup (by omega), byte_pred hdevice (by omega),
    dial_eq haddress haddress']
  simp only [List.range_succ, List.range_zero, List.nil_append, List.cons_append, List.foldl_cons,
    List.foldl_nil, KaKuTransmitter.setEnd, kaku_round]
  cases on with
  | false => simp [groupTrits, endTrits, bitTrits, List.range_succ]
  | true => simp [groupTrits, endTrits, bitTrits, List.range_succ]

theorem elro_trits_eq (systemCode device : ℕ) (on : Bool) :
    ElroTransmitter.trits systemCode device on =
      (elroTrits systemCode device on).map Fin.val := by
  have hround : ∀ s i, ElroTransmitter.setTrits device s i =
      (s.1 >>> 1, (s.2.set i (if s.1.testBit 0 then (0 : Trit) else 2).val).set (i + 5)
        (if i = device then (0 : Trit) else 2).val) := by
    intro s i
    have hbit : shiftOut 0 2 s i =
        (s.1 >>> 1, s.2.set i (if s.1.testBit 0 then (0 : Trit) else 2).val) := shiftOut_eq 0 2 s i
    simp only [ElroTransmitter.setTrits, hbit, device_trit i device]
  rw [ElroTransmitter.trits]
  simp only [List.range_succ, List.range_zero, List.nil_append, List.cons_append, List.foldl_cons,
    List.foldl_nil, hround]
  cases on with
  | false => simp [elroTrits, bitTrits, deviceTrits, markTrits, List.range_succ]
  | true => simp [elroTrits, bitTrits, deviceTrits, markTrits, List.range_succ]

/-! ## The arguments are in the trits -/

variable {on on' : Bool} {address' group' device' systemCode' : ℕ}

theorem markTrits_inj (h : markTrits on = markTrits on') : on = on' := by
  revert h
  revert on on'
  decide

theorem endTrits_inj (h : endTrits on = endTrits on') : on = on' := by
  revert h
  revert on on'
  decide

theorem addressTrits_inj (h : systemCode < 32) (h' : systemCode' < 32)
    (heq : addressTrits systemCode = addressTrits systemCode') : systemCode = systemCode' := by
  have hinj : Function.Injective fun bit : Bool => if bit then (1 : Trit) else 2 := by
    have hall : ∀ a b : Bool, (if a then (1 : Trit) else 2) = (if b then 1 else 2) → a = b := by
      decide
    exact fun a b => hall a b
  have hbits := List.map_injective_iff.2 hinj heq
  calc systemCode = BigEndian.ofBits (BigEndian.bits 5 systemCode) :=
        (BigEndian.ofBits_bits_of_lt h).symm
    _ = BigEndian.ofBits (BigEndian.bits 5 systemCode') := congrArg BigEndian.ofBits hbits
    _ = systemCode' := BigEndian.ofBits_bits_of_lt h'

theorem deviceTrits_inj (h : device < 5)
    (heq : deviceTrits device = deviceTrits device') : device = device' := by
  -- the only 0 of the one is at the device of the other
  have hat := List.map_inj_left.1 heq device (List.mem_range.2 h)
  by_contra hne
  simp [hne] at hat

theorem actionTrits_inj (hcode : systemCode < 32) (hcode' : systemCode' < 32) (hdevice : device < 5)
    (h : actionTrits systemCode device on = actionTrits systemCode' device' on') :
    systemCode = systemCode' ∧ device = device' ∧ on = on' := by
  rcases List.append_inj h (by simp) with ⟨h, hon⟩
  rcases List.append_inj h (by simp) with ⟨haddress, hdev⟩
  exact ⟨addressTrits_inj hcode hcode' haddress, deviceTrits_inj hdevice hdev,
    markTrits_inj hon⟩

theorem blokkerTrits_inj (hdevice : device < 8) (hdevice' : device' < 8)
    (h : blokkerTrits device on = blokkerTrits device' on') : device = device' ∧ on = on' := by
  rcases List.append_inj h (by simp) with ⟨h, hon⟩
  have hall : ∀ a b : Bool, [(0 : Trit), 0, 0, 0, if a then 1 else 0, 0, 0, 0] =
      [0, 0, 0, 0, if b then 1 else 0, 0, 0, 0] → a = b := by decide
  exact ⟨bitTrits_inj (by decide) hdevice hdevice' (List.cons.inj h).2, hall on on' hon⟩

theorem kakuTrits_inj (haddress : address < 16) (haddress' : address' < 16)
    (hdevice : device < 16) (hdevice' : device' < 16)
    (h : kakuTrits address device on = kakuTrits address' device' on') :
    address = address' ∧ device = device' ∧ on = on' := by
  rcases List.append_inj h (by simp) with ⟨h, hon⟩
  rcases List.append_inj h (by simp) with ⟨ha, hd⟩
  exact ⟨bitTrits_inj (by decide) haddress haddress' ha,
    bitTrits_inj (by decide) hdevice hdevice' hd, endTrits_inj hon⟩

theorem elroTrits_inj (hcode : systemCode < 32) (hcode' : systemCode' < 32) (hdevice : device < 5)
    (h : elroTrits systemCode device on = elroTrits systemCode' device' on') :
    systemCode = systemCode' ∧ device = device' ∧ on = on' := by
  rcases List.append_inj h (by simp) with ⟨h, hon⟩
  rcases List.append_inj h (by simp) with ⟨haddress, hdev⟩
  exact ⟨bitTrits_inj (by decide) hcode hcode' haddress, deviceTrits_inj hdevice hdev,
    Bool.not_inj (markTrits_inj hon)⟩

/-- Sent as a device, a group and no device are the telegram of the group and the device only for
the first of each. -/
theorem kakuTrits_eq_groupTrits_iff (hgroup : group < 4) (hdevice : device < 4) :
    kakuTrits address group on = groupTrits address group device on ↔ group = 0 ∧ device = 0 := by
  have hmiddle : kakuTrits address group on = groupTrits address group device on ↔
      bitTrits 2 0 4 group = bitTrits 2 0 2 device ++ bitTrits 2 0 2 group := by
    rw [kakuTrits, groupTrits, List.append_left_inj, List.append_right_inj]
  have hall : ∀ g d : Fin 4, bitTrits 2 0 4 g = bitTrits 2 0 2 d ++ bitTrits 2 0 2 g ↔
      g.val = 0 ∧ d.val = 0 := by decide
  rw [hmiddle]
  exact hall ⟨group, hgroup⟩ ⟨device, hdevice⟩

/-! ## Calls -/

/-- A call of `sendSignal`, or of `getTelegram` with the same arguments. -/
inductive Call
  | action (systemCode device : ℕ) (on : Bool)
  | blokker (device : ℕ) (on : Bool)
  | kaku (address device : ℕ) (on : Bool)
  | kakuGroup (address group device : ℕ) (on : Bool)
  | elro (systemCode device : ℕ) (on : Bool)
  deriving DecidableEq, Repr

namespace Call

def Valid : Call → Prop
  | action systemCode device _ => systemCode < 32 ∧ device < 5
  | blokker device _ => 1 ≤ device ∧ device ≤ 8
  | kaku address device _ => (65 ≤ address ∧ address ≤ 80) ∧ 1 ≤ device ∧ device ≤ 16
  | kakuGroup address group device _ =>
      (65 ≤ address ∧ address ≤ 80) ∧ (1 ≤ group ∧ group ≤ 4) ∧ 1 ≤ device ∧ device ≤ 4
  | elro systemCode device _ => systemCode < 32 ∧ device < 4

def SameForm : Call → Call → Prop
  | action .., action .. => True
  | blokker .., blokker .. => True
  | kaku .., kaku .. => True
  | kakuGroup .., kakuGroup .. => True
  | elro .., elro .. => True
  | _, _ => False

def getTelegram (tx : Transmitter) : Call → ℕ
  | action systemCode device on => ActionTransmitter.getTelegram tx systemCode device on
  | blokker device on => BlokkerTransmitter.getTelegram tx device on
  | kaku address device on => KaKuTransmitter.getTelegram tx address device on
  | kakuGroup address group device on =>
      KaKuTransmitter.getGroupTelegram tx address group device on
  | elro systemCode device on => ElroTransmitter.getTelegram tx systemCode device on

def sendSignal (b : Board) (tx : Transmitter) : Call → List Action
  | action systemCode device on => ActionTransmitter.sendSignal b tx systemCode device on
  | blokker device on => BlokkerTransmitter.sendSignal b tx device on
  | kaku address device on => KaKuTransmitter.sendSignal b tx address device on
  | kakuGroup address group device on =>
      KaKuTransmitter.sendGroupSignal b tx address group device on
  | elro systemCode device on => ElroTransmitter.sendSignal b tx systemCode device on

def trits : Call → List Trit
  | action systemCode device on => actionTrits systemCode device on
  | blokker device on => blokkerTrits (device - 1) on
  | kaku address device on => kakuTrits (address - 65) (device - 1) on
  | kakuGroup address group device on => groupTrits (address - 65) (group - 1) (device - 1) on
  | elro systemCode device on => elroTrits systemCode device on

/-- The call of `getTelegram` whose result `sendSignal` transmits. -/
def passedOn : Call → Call
  | kakuGroup address group _ on => kaku address group on
  | c => c

def AsDescribed : Call → Prop
  | kakuGroup _ group device _ => group = 1 ∧ device = 1
  | _ => True

/-- The calls only differ in the argument that is not passed on. -/
def Confused : Call → Call → Prop
  | kakuGroup address group _ on, kakuGroup address' group' _ on' =>
      address = address' ∧ group = group' ∧ on = on'
  | _, _ => False

variable {c c' : Call}

@[simp] theorem length_trits (c : Call) : c.trits.length = 12 := by
  cases c <;>
    simp [trits, blokkerTrits, kakuTrits, groupTrits, elroTrits, endTrits, markTrits]

theorem getTelegram_eq (tx : Transmitter) (hc : c.Valid) :
    c.getTelegram tx = encodeTelegram tx (c.trits.map Fin.val) := by
  cases c with
  | action systemCode device on => exact congrArg (encodeTelegram tx) (trits_eq _ _ on)
  | blokker device on => exact congrArg (encodeTelegram tx) (blokker_trits_eq hc.1 hc.2 on)
  | kaku address device on =>
      rcases hc with ⟨⟨h, h'⟩, hd, hd'⟩
      exact congrArg (encodeTelegram tx) (kaku_trits_eq h h' hd hd' on)
  | kakuGroup address group device on =>
      rcases hc with ⟨⟨h, h'⟩, ⟨hg, hg'⟩, hd, hd'⟩
      exact congrArg (encodeTelegram tx) (group_trits_eq h h' hg hg' hd hd' on)
  | elro systemCode device on => exact congrArg (encodeTelegram tx) (elro_trits_eq _ _ on)

theorem sendSignal_getTelegram (b : Board) (tx : Transmitter) (c : Call) :
    c.sendSignal b tx = sendTelegram b (c.passedOn.getTelegram tx) := by
  cases c <;> rfl

/-- Whatever is a group is also a device. -/
theorem Valid.passedOn (hc : c.Valid) : c.passedOn.Valid := by
  cases c with
  | kakuGroup address group device on =>
      rcases hc with ⟨haddress, ⟨hg, hg'⟩, -⟩
      exact ⟨haddress, hg, hg'.trans (by decide)⟩
  | action systemCode device on => exact hc
  | blokker device on => exact hc
  | kaku address device on => exact hc
  | elro systemCode device on => exact hc

theorem sendSignal_eq (b : Board) (tx : Transmitter) (hc : c.Valid) :
    c.sendSignal b tx = sendTelegram b (encodeTelegram tx (c.passedOn.trits.map Fin.val)) := by
  rw [sendSignal_getTelegram, getTelegram_eq tx hc.passedOn]

theorem passedOn_trits_iff (hc : c.Valid) : c.passedOn.trits = c.trits ↔ c.AsDescribed := by
  cases c with
  | kakuGroup address group device on =>
      rcases hc with ⟨-, ⟨hg, hg'⟩, hd, hd'⟩
      simp only [Call.passedOn, trits, AsDescribed]
      rw [kakuTrits_eq_groupTrits_iff (by omega) (by omega)]
      omega
  | action systemCode device on => exact iff_of_true rfl trivial
  | blokker device on => exact iff_of_true rfl trivial
  | kaku address device on => exact iff_of_true rfl trivial
  | elro systemCode device on => exact iff_of_true rfl trivial

/-- Calls that are transmitted alike are of the form that loses its device. -/
theorem passedOn_trits_inj (hc : c.Valid) (hc' : c'.Valid) (hform : c.SameForm c') (hne : c ≠ c') :
    c.passedOn.trits = c'.passedOn.trits ↔ c.Confused c' := by
  cases c with
  | action systemCode device on =>
      cases c' with
      | action systemCode' device' on' =>
          refine iff_of_false (fun h => hne ?_) id
          rcases actionTrits_inj hc.1 hc'.1 hc.2 h with ⟨rfl, rfl, rfl⟩
          rfl
      | _ => exact hform.elim
  | blokker device on =>
      cases c' with
      | blokker device' on' =>
          rcases hc with ⟨hlo, hhi⟩
          rcases hc' with ⟨hlo', hhi'⟩
          refine iff_of_false (fun h => hne ?_) id
          rcases blokkerTrits_inj (by omega) (by omega) h with ⟨hdevice, rfl⟩
          obtain rfl : device = device' := by omega
          rfl
      | _ => exact hform.elim
  | kaku address device on =>
      cases c' with
      | kaku address' device' on' =>
          rcases hc with ⟨⟨hlo, hhi⟩, hd, hd'⟩
          rcases hc' with ⟨⟨hlo', hhi'⟩, he, he'⟩
          refine iff_of_false (fun h => hne ?_) id
          rcases kakuTrits_inj (by omega) (by omega) (by omega) (by omega) h with
            ⟨haddress, hdevice, rfl⟩
          obtain rfl : address = address' := by omega
          obtain rfl : device = device' := by omega
          rfl
      | _ => exact hform.elim
  | kakuGroup address group device on =>
      cases c' with
      | kakuGroup address' group' device' on' =>
          rcases hc with ⟨⟨hlo, hhi⟩, ⟨hg, hg'⟩, -⟩
          rcases hc' with ⟨⟨hlo', hhi'⟩, ⟨he, he'⟩, -⟩
          -- the group takes the place of the device, and the device is not passed on
          constructor
          · intro h
            rcases kakuTrits_inj (by omega) (by omega) (by omega) (by omega) h with
              ⟨haddress, hgroup, hon⟩
            exact ⟨by omega, by omega, hon⟩
          · rintro ⟨rfl, rfl, rfl⟩
            rfl
      | _ => exact hform.elim
  | elro systemCode device on =>
      cases c' with
      | elro systemCode' device' on' =>
          refine iff_of_false (fun h => hne ?_) id
          rcases elroTrits_inj hc.1 hc'.1 (hc.2.trans (by decide)) h with ⟨rfl, rfl, rfl⟩
          rfl
      | _ => exact hform.elim

end Call

/-! ## From the call to the callback -/

/-- A transmitter with its settings, and a receiver that hears it from `time` on: idle, to call
back after two repetitions, and with no gap measured before the first pulse. -/
structure Reception (b : Board) where
  tx : Transmitter
  receiver : State
  time : ℕ
  period_range : 121 ≤ tx.periodusec ∧ tx.periodusec ≤ 511
  repeats_range : 2 ≤ tx.repeats ∧ tx.repeats ≤ 7
  enabled : receiver.enabled = true
  idle : receiver.decoder.state = -1
  minRepeats : receiver.decoder.filter.minRepeats = 2
  free : receiver.decoder.filter.inCallback = false
  quiet : ∀ d ∈ receiver.untilPulse b time, d ≤ 3720

namespace Reception

variable {b : Board} {c c' : Call}

def delivered (x : Reception b) (c : Call) : List Received :=
  callbacks (Mealy.events (interruptHandler b) x.receiver
    (edges ⟨LOW, x.time⟩ (c.sendSignal b x.tx)))

theorem delivered_eq (x : Reception b) (hc : c.Valid) :
    x.delivered c =
      List.replicate ((2 ^ x.tx.repeats - 1) / 3) ⟨value c.passedOn.trits, x.tx.periodusec⟩ := by
  rw [delivered, Call.sendSignal_eq b x.tx hc]
  exact callbacks_sendTelegram_quiet x.period_range.1 x.period_range.2 x.repeats_range.2
    (Call.length_trits _) x.enabled x.idle x.minRepeats x.free x.quiet

theorem delivered_ne_nil (x : Reception b) (hc : c.Valid) : x.delivered c ≠ [] := by
  have hcopies := copies_pos x.repeats_range.1
  rw [delivered_eq x hc]
  intro hnil
  have hzero := List.replicate_eq_nil_iff _ |>.1 hnil
  omega

/-- The code of every callback. -/
theorem forall_delivered_iff (x : Reception b) (hc : c.Valid) {P : ℕ → Prop} :
    (∀ k ∈ x.delivered c, P k.code) ↔ P (value c.passedOn.trits) := by
  constructor
  · intro h
    rcases List.exists_mem_of_ne_nil _ (x.delivered_ne_nil hc) with ⟨k, hk⟩
    have hP := h k hk
    rw [delivered_eq x hc] at hk
    rwa [List.eq_of_mem_replicate hk] at hP
  · intro h k hk
    rw [delivered_eq x hc] at hk
    rwa [List.eq_of_mem_replicate hk]

/-- `isSameCode` knows the trits of the telegram. -/
theorem isSameCode_getTelegram (tx : Transmitter) (hc : c.Valid) (c' : Call) :
    isSameCode (c.getTelegram tx) (value c'.trits) = true ↔ c'.trits = c.trits := by
  rw [isSameCode, Call.getTelegram_eq tx hc, encodeTelegram_data tx (Call.length_trits c),
    beq_iff_eq]
  exact ⟨value_inj (by simp), fun h => by rw [h]⟩

end Reception

/-- A call delivers the code that `getTelegram` describes exactly if it is not one with a group and
a device other than the first of each; and two different calls of a form deliver different codes
exactly if they are not calls with a group that only differ in their device. -/
theorem sendSignal_described_iff (b : Board) (c : Call) (hc : c.Valid) :
    (∀ x : Reception b, x.delivered c ≠ [] ∧
      ((∀ k ∈ x.delivered c, isSameCode (c.getTelegram x.tx) k.code = true) ↔ c.AsDescribed)) ∧
    ∀ c' : Call, c'.Valid → c.SameForm c' → c ≠ c' → ∀ x y : Reception b,
      ((∀ k ∈ x.delivered c, ∀ k' ∈ y.delivered c', k.code ≠ k'.code) ↔ ¬c.Confused c') := by
  constructor
  · intro x
    refine ⟨x.delivered_ne_nil hc, ?_⟩
    rw [x.forall_delivered_iff hc (P := fun code => isSameCode (c.getTelegram x.tx) code = true),
      Reception.isSameCode_getTelegram x.tx hc, Call.passedOn_trits_iff hc]
  · intro c' hc' hform hne x y
    rw [← Call.passedOn_trits_inj hc hc' hform hne,
      x.forall_delivered_iff hc (P := fun code => ∀ k' ∈ y.delivered c', code ≠ k'.code),
      y.forall_delivered_iff hc' (P := fun code => value c.passedOn.trits ≠ code)]
    exact not_congr ⟨value_inj (by simp), fun h => by rw [h]⟩

/-- A transmitter of the gateway, heard by a receiver that has just been started. -/
def reception : Reception .avr where
  tx := ⟨375, 4⟩
  receiver := init 2 0 0
  time := 1000
  period_range := by decide
  repeats_range := by decide
  enabled := rfl
  idle := rfl
  minRepeats := rfl
  free := rfl
  quiet := by decide

/-- Device 3 of dial `C`. -/
theorem sendSignal_described_kaku :
    (∀ x : Reception .avr, x.delivered (.kaku 67 3 true) ≠ [] ∧
      ((∀ k ∈ x.delivered (.kaku 67 3 true),
        isSameCode ((Call.kaku 67 3 true).getTelegram x.tx) k.code = true) ↔
          (Call.kaku 67 3 true).AsDescribed)) ∧
    ∀ c' : Call, c'.Valid → (Call.kaku 67 3 true).SameForm c' → Call.kaku 67 3 true ≠ c' →
      ∀ x y : Reception .avr,
        ((∀ k ∈ x.delivered (.kaku 67 3 true), ∀ k' ∈ y.delivered c', k.code ≠ k'.code) ↔
          ¬(Call.kaku 67 3 true).Confused c') :=
  sendSignal_described_iff .avr (.kaku 67 3 true) ⟨by decide, by decide⟩

/-- Devices 1 and 2 of group 1 are sent alike, and the second one as the first. -/
theorem sendSignal_not_described :
    (¬∀ (b : Board) (c : Call), c.Valid → ∀ x : Reception b, ∀ k ∈ x.delivered c,
      isSameCode (c.getTelegram x.tx) k.code = true) ∧
    ¬∀ (b : Board) (c c' : Call), c.Valid → c'.Valid → c.SameForm c' → c ≠ c' →
      ∀ x y : Reception b, ∀ k ∈ x.delivered c, ∀ k' ∈ y.delivered c', k.code ≠ k'.code := by
  have hone : (Call.kakuGroup 65 1 1 true).Valid := ⟨by decide, by decide, by decide⟩
  have htwo : (Call.kakuGroup 65 1 2 true).Valid := ⟨by decide, by decide, by decide⟩
  constructor
  · intro h
    have hsame := h .avr _ htwo reception
    rw [reception.forall_delivered_iff htwo
        (P := fun code => isSameCode (Call.getTelegram reception.tx _) code = true),
      Reception.isSameCode_getTelegram reception.tx htwo, Call.passedOn_trits_iff htwo] at hsame
    exact absurd hsame.2 (by decide)
  · intro h
    rcases List.exists_mem_of_ne_nil _ (reception.delivered_ne_nil hone) with ⟨k, hk⟩
    -- the second call transmits the same
    have hk' : k ∈ reception.delivered (.kakuGroup 65 1 2 true) := hk
    exact h .avr _ _ hone htwo trivial (by decide) reception reception k hk k hk' rfl

end Remote
end LamPI
