import LamPI.Kaku.Transmitter
import LamPI.Library.Countdown

/-!
# The loops of `kakuTransmitter.cpp`

Every loop counts an `int8_t` down to 0.  The constructor keeps the number of rounds, less one, in a
byte, and the largest documented one, 255, is -1 as an `int8_t`.
-/

namespace LamPI
namespace Kaku

open PulseLine Countdown

/-- The value of an expression once it is an `int8_t`. -/
def int8 (n : ℤ) : ℤ := Int.bmod n 256

/-! ## The loops -/

/-- The loop of `_sendAddress`, `_sendUnit` and the dim bits, from bit `first` on. -/
def sendBitsLoop (fuel : ℕ) (b : Board) (tx : Transmitter) (value : ℕ) (first : ℤ) :
    Option (List Action) :=
  countDown int8 (fun i => some (sendBit b tx (bitRead value i.toNat))) fuel first

def sendDimBitsLoop (fuel : ℕ) (b : Board) (tx : Transmitter) (dimLevel : Option ℕ) :
    Option (List Action) :=
  match dimLevel with
  | none => some []
  | some dimLevel => sendBitsLoop fuel b tx dimLevel 3

/-- The body of the loop over `_repeats`. -/
def sendFrameLoop (fuel : ℕ) (b : Board) (tx : Transmitter) (address : ℕ) (groupBit : Bool)
    (switchType : List Action) (unit : ℕ) (dimLevel : Option ℕ) : Option (List Action) :=
  (sendBitsLoop fuel b tx address 25).bind fun address =>
    (sendBitsLoop fuel b tx unit 3).bind fun unit =>
      (sendDimBitsLoop fuel b tx dimLevel).map fun dimLevel =>
        sendStartPulse b tx ++ address ++ sendBit b tx groupBit ++ switchType ++ unit ++ dimLevel ++
          sendStopPulse b tx

/-- `for (int8_t i = _repeats; i >= 0; i--)` -/
def repeatsLoop (fuel : ℕ) (tx : Transmitter) (body : Option (List Action)) :
    Option (List Action) :=
  countDown int8 (fun _ => body) fuel (int8 tx.repeats)

def sendGroupLoop (fuel : ℕ) (b : Board) (tx : Transmitter) (address : ℕ) (switchOn : Bool) :
    Option (List Action) :=
  repeatsLoop fuel tx (sendFrameLoop fuel b tx address true (sendBit b tx switchOn) 0 none)

def sendUnitLoop (fuel : ℕ) (b : Board) (tx : Transmitter) (address unit : ℕ) (switchOn : Bool) :
    Option (List Action) :=
  repeatsLoop fuel tx (sendFrameLoop fuel b tx address false (sendBit b tx switchOn) unit none)

def sendDimLoop (fuel : ℕ) (b : Board) (tx : Transmitter) (address unit dimLevel : ℕ) :
    Option (List Action) :=
  repeatsLoop fuel tx (sendFrameLoop fuel b tx address false (sendDimType tx) unit (some dimLevel))

def sendGroupDimLoop (fuel : ℕ) (b : Board) (tx : Transmitter) (address dimLevel : ℕ) :
    Option (List Action) :=
  repeatsLoop fuel tx (sendFrameLoop fuel b tx address true (sendDimType tx) 0 (some dimLevel))

/-! ## What they send -/

def frameDimBits (b : Board) (tx : Transmitter) (dimLevel : Option ℕ) : List Action :=
  match dimLevel with
  | none => []
  | some dimLevel => sendBits b tx dimLevel 4

def sentFrame (b : Board) (tx : Transmitter) (address : ℕ) (groupBit : Bool)
    (switchType : List Action) (unit : ℕ) (dimLevel : Option ℕ) : List Action :=
  sendStartPulse b tx ++ sendAddress b tx address ++ sendBit b tx groupBit ++ switchType ++
    sendUnitBits b tx unit ++ frameDimBits b tx dimLevel ++ sendStopPulse b tx

def Sends (n : ℕ) (frame : List Action) (call : ℕ → Option (List Action)) : Prop :=
  ∃ tests, ∀ fuel, tests < fuel → call fuel = some (List.replicate n frame).flatten

variable {b : Board} {tx : Transmitter} {fuel n m p r address unit dimLevel : ℕ} {switchOn : Bool}
  {groupBit : Bool} {switchType : List Action} {dim : Option ℕ}

theorem int8_of_lt {i : ℤ} (hlo : -1 ≤ i) (hhi : i < 128) : int8 i = i :=
  Int.bmod_eq_of_le (by omega) (by omega)

/-- The bits of a value from the highest one down. -/
theorem sendBits_eq_flatMap (value n : ℕ) : sendBits b tx value n =
    (List.range n).reverse.flatMap fun i => sendBit b tx (bitRead value i) := by
  induction n with
  | zero => rfl
  | succ n ih =>
      rw [sendBits, ih, List.range_succ, List.reverse_append, List.reverse_singleton,
        List.singleton_append, List.flatMap_cons]

theorem sendBitsLoop_eq (hn : n ≤ 128) (hfuel : n < fuel) (value : ℕ) :
    sendBitsLoop fuel b tx value (n - 1) = some (sendBits b tx value n) := by
  rw [sendBits_eq_flatMap]
  exact countDown_eq (fun i hlo hhi => int8_of_lt hlo (by omega)) (fun k _ => rfl) hfuel

theorem sendFrameLoop_eq (hfuel : 26 < fuel) :
    sendFrameLoop fuel b tx address groupBit switchType unit dim =
      some (sentFrame b tx address groupBit switchType unit dim) := by
  have hfirst : ((26 : ℕ) : ℤ) - 1 = 25 := by norm_num
  have hfirst' : ((4 : ℕ) : ℤ) - 1 = 3 := by norm_num
  have haddress : sendBitsLoop fuel b tx address 25 = some (sendAddress b tx address) := by
    rw [← hfirst, sendAddress]
    exact sendBitsLoop_eq (by decide) hfuel address
  have hfour : ∀ value : ℕ, sendBitsLoop fuel b tx value 3 = some (sendBits b tx value 4) := by
    intro value
    rw [← hfirst']
    exact sendBitsLoop_eq (by decide) (by omega) value
  have hdim : sendDimBitsLoop fuel b tx dim = some (frameDimBits b tx dim) := by
    cases dim with
    | none => rfl
    | some dimLevel => exact hfour dimLevel
  rw [sendFrameLoop, haddress, hfour, hdim]
  rfl

/-- The loop over `_repeats` as it is counted by an `int8_t`. -/
theorem repeatsLoop_eq (hfuel : 128 < fuel) (frame : List Action) :
    repeatsLoop fuel tx (some frame) = some (tx.copies frame) := by
  have hcopies : tx.copies frame =
      (List.replicate (int8 tx.repeats + 1).toNat frame).flatten := rfl
  have hhi : int8 tx.repeats < ((256 : ℕ) + 1 : ℤ) / 2 := Int.bmod_lt (by decide)
  rw [hcopies]
  unfold repeatsLoop
  generalize int8 tx.repeats = i at hhi ⊢
  rcases lt_or_ge i 0 with hneg | hnonneg
  · have hzero : (i + 1).toNat = 0 := Int.toNat_of_nonpos (by omega)
    rw [hzero]
    exact countDown_of_neg hneg (by omega)
  · obtain ⟨n, rfl⟩ : ∃ n : ℕ, i = n - 1 := ⟨(i + 1).toNat, by omega⟩
    have hcount : ((n : ℤ) - 1 + 1).toNat = n := by omega
    have hrounds : (List.range n).reverse.flatMap (fun _ => frame) =
        (List.replicate n frame).flatten := by
      rw [List.flatMap_def, List.map_const', List.length_reverse, List.length_range]
    rw [hcount, ← hrounds]
    exact countDown_eq (fun i hlo hhi => int8_of_lt hlo (by omega)) (fun k _ => rfl) (by omega)

/-- The loops end, and what they send is what the four functions are said to send. -/
theorem loops_eq (hfuel : 128 < fuel) :
    sendGroupLoop fuel b tx address switchOn = some (sendGroup b tx address switchOn) ∧
    sendUnitLoop fuel b tx address unit switchOn = some (sendUnit b tx address unit switchOn) ∧
    sendDimLoop fuel b tx address unit dimLevel = some (sendDim b tx address unit dimLevel) ∧
    sendGroupDimLoop fuel b tx address dimLevel =
      some (sendGroupDim b tx address dimLevel) := by
  have hbody : ∀ address groupBit switchType unit dim,
      sendFrameLoop fuel b tx address groupBit switchType unit dim =
        some (sentFrame b tx address groupBit switchType unit dim) :=
    fun _ _ _ _ _ => sendFrameLoop_eq (by omega)
  refine ⟨?_, ?_, ?_, ?_⟩
  · rw [sendGroupLoop, hbody, repeatsLoop_eq hfuel, sentFrame, frameDimBits, List.append_nil]
    rfl
  · rw [sendUnitLoop, hbody, repeatsLoop_eq hfuel, sentFrame, frameDimBits, List.append_nil]
    rfl
  · rw [sendDimLoop, hbody, repeatsLoop_eq hfuel]
    rfl
  · rw [sendGroupDimLoop, hbody, repeatsLoop_eq hfuel]
    rfl

/-! ## The number of copies -/

theorem sentFrame_ne_nil : sentFrame b tx address groupBit switchType unit dim ≠ [] := by
  intro hnil
  have hlen := congrArg List.length hnil
  simp [sentFrame, sendStartPulse, pulse] at hlen

/-- A loop can only send one number of copies. -/
theorem Sends.unique {frame : List Action} {call : ℕ → Option (List Action)} (hframe : frame ≠ [])
    (hn : Sends n frame call) (hm : Sends m frame call) : n = m := by
  rcases hn with ⟨tests, hn⟩
  rcases hm with ⟨tests', hm⟩
  have hsame := (hn (tests + tests' + 1) (by omega)).symm.trans
    (hm (tests + tests' + 1) (by omega))
  injection hsame with hsame
  have hlen := congrArg List.length hsame
  rw [List.length_flatten, List.length_flatten, List.map_replicate, List.map_replicate,
    List.sum_replicate_nat, List.sum_replicate_nat] at hlen
  exact Nat.eq_of_mul_eq_mul_right (List.length_pos_of_ne_nil hframe) hlen

/-- The loop sends as many copies as `copies` makes of its body. -/
theorem sends_repeatsLoop {body : ℕ → Option (List Action)} {frame : List Action}
    (hbody : ∀ fuel, 26 < fuel → body fuel = some frame) :
    Sends (int8 tx.repeats + 1).toNat frame fun fuel => repeatsLoop fuel tx (body fuel) := by
  refine ⟨128, fun fuel hfuel => ?_⟩
  simp only [hbody fuel (by omega), repeatsLoop_eq hfuel]
  rfl

/-- For the largest documented logarithm the loop ends before its first round. -/
theorem rounds_eq (hr : r ≤ 8) :
    (int8 (Transmitter.new p r).repeats + 1).toNat = if r = 8 then 0 else 2 ^ r := by
  have hcases : ∀ r ≤ 8, (int8 (((1 <<< r) - 1) % 256 : ℕ) + 1).toNat =
      if r = 8 then 0 else 2 ^ r := by decide
  exact hcases r hr

theorem sends_iff {body : ℕ → Option (List Action)} (hr : r ≤ 8)
    (hbody : ∀ fuel, 26 < fuel → body fuel =
      some (sentFrame b (Transmitter.new p r) address groupBit switchType unit dim)) :
    Sends (2 ^ r) (sentFrame b (Transmitter.new p r) address groupBit switchType unit dim)
        (fun fuel => repeatsLoop fuel (Transmitter.new p r) (body fuel)) ↔ r ≤ 7 := by
  have hsends := @sends_repeatsLoop (Transmitter.new p r) _ _ hbody
  rw [rounds_eq hr] at hsends
  by_cases height : r = 8
  · rw [if_pos height] at hsends
    refine iff_of_false (fun hdocumented => ?_) (by omega)
    exact absurd (hdocumented.unique sentFrame_ne_nil hsends) (Nat.two_pow_pos r).ne'
  · rw [if_neg height] at hsends
    exact iff_of_true hsends (by omega)

/-- Within the documented range, the four functions end and send `2 ^ repeats` copies of their frame
exactly if `repeats` is at most 7. -/
theorem sends_documented_iff (b : Board) (periodusec repeats : ℕ) (hrepeats : repeats ≤ 8)
    (address unit dimLevel : ℕ) (switchOn : Bool) :
    let tx := Transmitter.new periodusec repeats
    (Sends (2 ^ repeats) (sentFrame b tx address true (sendBit b tx switchOn) 0 none)
      (fun fuel => sendGroupLoop fuel b tx address switchOn) ↔ repeats ≤ 7) ∧
    (Sends (2 ^ repeats) (sentFrame b tx address false (sendBit b tx switchOn) unit none)
      (fun fuel => sendUnitLoop fuel b tx address unit switchOn) ↔ repeats ≤ 7) ∧
    (Sends (2 ^ repeats) (sentFrame b tx address false (sendDimType tx) unit (some dimLevel))
      (fun fuel => sendDimLoop fuel b tx address unit dimLevel) ↔ repeats ≤ 7) ∧
    (Sends (2 ^ repeats) (sentFrame b tx address true (sendDimType tx) 0 (some dimLevel))
      (fun fuel => sendGroupDimLoop fuel b tx address dimLevel) ↔ repeats ≤ 7) := by
  refine ⟨?_, ?_, ?_, ?_⟩
  · exact sends_iff hrepeats fun fuel hfuel => sendFrameLoop_eq hfuel
  · exact sends_iff hrepeats fun fuel hfuel => sendFrameLoop_eq hfuel
  · exact sends_iff hrepeats fun fuel hfuel => sendFrameLoop_eq hfuel
  · exact sends_iff hrepeats fun fuel hfuel => sendFrameLoop_eq hfuel

/-- The 8 copies of the gateway's transmitter. -/
theorem sends_documented_gateway :
    let tx := Transmitter.new 260 3
    (Sends (2 ^ 3) (sentFrame .avr tx 12345 true (sendBit .avr tx true) 0 none)
      (fun fuel => sendGroupLoop fuel .avr tx 12345 true) ↔ 3 ≤ 7) ∧
    (Sends (2 ^ 3) (sentFrame .avr tx 12345 false (sendBit .avr tx true) 1 none)
      (fun fuel => sendUnitLoop fuel .avr tx 12345 1 true) ↔ 3 ≤ 7) ∧
    (Sends (2 ^ 3) (sentFrame .avr tx 12345 false (sendDimType tx) 1 (some 9))
      (fun fuel => sendDimLoop fuel .avr tx 12345 1 9) ↔ 3 ≤ 7) ∧
    (Sends (2 ^ 3) (sentFrame .avr tx 12345 true (sendDimType tx) 0 (some 9))
      (fun fuel => sendGroupDimLoop fuel .avr tx 12345 9) ↔ 3 ≤ 7) :=
  sends_documented_iff .avr 260 3 (by decide) 12345 1 9 true

/-- With 8, the maximum of the documentation, `sendUnit` sends nothing. -/
theorem not_sends_documented :
    ¬∀ (b : Board) (periodusec repeats : ℕ), repeats ≤ 8 →
      ∀ (address unit : ℕ) (switchOn : Bool),
        Sends (2 ^ repeats)
          (sentFrame b (Transmitter.new periodusec repeats) address false
            (sendBit b (Transmitter.new periodusec repeats) switchOn) unit none)
          fun fuel => sendUnitLoop fuel b (Transmitter.new periodusec repeats) address unit
            switchOn := by
  intro h
  have hsends := h .avr 260 8 (by decide) 1 0 true
  have hseven : 8 ≤ 7 :=
    (sends_iff (by decide) fun fuel hfuel => sendFrameLoop_eq hfuel).1 hsends
  exact absurd hseven (by decide)

end Kaku
end LamPI
