import LamPI.ArduinoGateway.Heard
import LamPI.ArduinoGateway.KakuLines

/-!
# Signals

What the gateways transmit, as receivers get it.  It does not matter which board transmits; receivers
that wait, on whichever board, call back for the code that was sent and for nothing else.
-/

namespace LamPI
namespace ArduinoGateway

open PulseLine

/-! ## What is transmitted -/

/-- What the transmitters of a gateway send when they are asked to. -/
inductive Signal where
  | kaku (address : Fin (2 ^ 26)) (unit : Fin 16) (value : KakuValue)
  | action (group : Fin 32) (unit : Fin 5) (on : Bool)
  | livolo (group : Fin (2 ^ 16)) (unit : Fin (2 ^ 7))
  | quhwa (group : Fin (2 ^ 27)) (unit : Fin (2 ^ 8))
  deriving DecidableEq, Repr

def Signal.send (b : Board) : Signal → List Action
  | .kaku address unit value => (value.command unit).send b (Kaku.Transmitter.new 260 3) address
  | .action group unit on => Remote.ActionTransmitter.sendSignal b ⟨195, 3⟩ group (unit : ℕ) on
  | .livolo group unit => Livolo.sendButton group unit
  | .quhwa group unit => Quhwa.sendButton group unit

def Signal.handler : Signal → Handler
  | .kaku _ _ _ => .kaku
  | .action _ _ _ => .remote
  | .livolo _ _ => .livolo
  | .quhwa _ _ => .quhwa

/-- The fewest and the most times that the receiver calls back. -/
def Signal.copies : Signal → ℕ × ℕ
  | .kaku _ _ _ => (2, 2)
  | .action _ _ _ => (2, 2)
  | .livolo _ _ => (178, 181)
  | .quhwa _ _ => (23, 26)

/-- What the callback is told.  Whether a level is present the receiver for KlikAanKlikUit keeps from
earlier codes. -/
inductive Signal.Told : Signal → Call → Prop
  | kaku (address : Fin (2 ^ 26)) (unit : Fin 16) (value : KakuValue) (present : Bool) :
      Told (.kaku address unit value) ⟨.kaku, Kaku.transmitted 260
        (present || ((value.command unit).telegram address).dim.isSome)
        ((value.command unit).telegram address)⟩
  | action (group : Fin 32) (unit : Fin 5) (on : Bool) :
      Told (.action group unit on) ⟨.remote, ⟨Remote.value (Remote.actionTrits group unit on), 195⟩⟩
  | livolo (group : Fin (2 ^ 16)) (unit : Fin (2 ^ 7)) :
      Told (.livolo group unit) ⟨.livolo, Livolo.sentCode group unit⟩
  | quhwa (group : Fin (2 ^ 27)) (unit : Fin (2 ^ 8)) :
      Told (.quhwa group unit) ⟨.quhwa, Quhwa.sentCode group unit⟩

/-- The receiver for the signal calls back. -/
theorem Signal.Told.handler {x : Signal} {c : Call} (h : x.Told c) : c.1 = x.handler := by
  cases h <;> rfl

/-! ## What is heard -/

variable {b : Board} {hs : List Handler} {receivers : (h : Handler) → h.State} {t : ℕ}

/-- A signal of any board that the receivers of a chain hear. -/
theorem Listening.signal (hl : Listening b hs receivers t) (x : Signal) (hmem : x.handler ∈ hs)
    (b' : Board) :
    ∃ k c, x.copies.1 ≤ k ∧ k ≤ x.copies.2 ∧ x.Told c ∧
      callsOf b hs receivers (edges ⟨LOW, t⟩ (x.send b')) = List.replicate k c := by
  cases x with
  | kaku address unit value =>
      exact ⟨_, _, Nat.le_refl 2, Nat.le_refl 2, .kaku address unit value _,
        hl.kaku hmem b' (r := 3) (by decide) _ _⟩
  | action group unit on =>
      have hsent := hl.remote hmem b' (r := 3) (by decide) (Remote.length_actionTrits group unit on)
      rw [← Remote.trits_eq] at hsent
      exact ⟨_, _, Nat.le_refl 2, Nat.le_refl 2, .action group unit on, hsent⟩
  | livolo group unit =>
      rcases hl.livolo hmem group.isLt unit.isLt with ⟨k, hlo, hhi, hcalls⟩
      exact ⟨k, _, hlo, hhi, .livolo group unit, hcalls⟩
  | quhwa group unit =>
      rcases hl.quhwa hmem group.isLt unit.isLt with ⟨k, hlo, hhi, hcalls⟩
      exact ⟨k, _, hlo, hhi, .quhwa group unit, hcalls⟩

/-! ## One signal after the other -/

/-- The edges of transmissions, each of them from the time on that goes with it. -/
def edgesOf (sends : List (ℕ × List Action)) : List ℕ :=
  sends.flatMap fun send => edges ⟨LOW, send.1⟩ send.2

def WaitsEach (b : Board) (hs : List Handler) :
    ((h : Handler) → h.State) → List (ℕ × List Action) → Prop
  | _, [] => True
  | receivers, send :: sends =>
      (∀ h ∈ hs, h.Waits b (receivers h) send.1) ∧
        WaitsEach b hs (Listeners.final (Handler.interruptHandler b) hs receivers
          (edges ⟨LOW, send.1⟩ send.2)) sends

/-- A transmission is that of a signal, by one of the boards. -/
def Signal.SentAs (x : Signal) (send : ℕ × List Action) : Prop := ∃ b', send.2 = x.send b'

def Hears (x : Signal) (heard : ℕ × Call) : Prop :=
  x.copies.1 ≤ heard.1 ∧ heard.1 ≤ x.copies.2 ∧ x.Told heard.2

/-- A sketch that reads their codes as they are passed. -/
theorem reads_heard {l : Layout} {xs : List Signal} {heard : List (ℕ × Call)}
    (h : List.Forall₂ Hears xs heard) (hintact : ∀ x ∈ xs, l.Intact x.handler) (n : ℕ) :
    l.reads n (heard.flatMap fun c => List.replicate c.1 c.2) =
      heard.flatMap fun c => List.replicate c.1 c.2 := by
  refine Layout.reads_eq_self (fun c hc => ?_) n
  rcases List.mem_flatMap.1 hc with ⟨k, hk, hmem⟩
  rcases List.mem_iff_getElem.1 hk with ⟨i, hi, rfl⟩
  have hx := h.get (h.length_eq.symm ▸ hi) hi
  rw [List.eq_of_mem_replicate hmem]
  exact hx.2.2.handler ▸ hintact _ (List.get_mem xs _)

/-- Signals that are heard one after the other. -/
theorem callsOf_edgesOf {xs : List Signal} {sends : List (ℕ × List Action)}
    (hsends : List.Forall₂ Signal.SentAs xs sends) (hnodup : hs.Nodup) (hmem : ∀ x ∈ xs, x.handler ∈ hs)
    (hready : ∀ h ∈ hs, h.Ready (receivers h)) (hwaits : WaitsEach b hs receivers sends) :
    ∃ heard, List.Forall₂ Hears xs heard ∧
      callsOf b hs receivers (edgesOf sends) = heard.flatMap fun c => List.replicate c.1 c.2 := by
  induction hsends generalizing receivers with
  | nil => exact ⟨[], .nil, by rw [edgesOf]; rfl⟩
  | @cons x send xs sends hsend hsends ih =>
      rcases send with ⟨t, actions⟩
      rcases hsend with ⟨b', rfl⟩
      rcases hwaits with ⟨hfirst, hrest⟩
      rcases List.forall_mem_cons.1 hmem with ⟨hx, hxs⟩
      have hl : Listening b hs receivers t := ⟨hnodup, hready, hfirst⟩
      rcases hl.signal x hx b' with ⟨k, c, hlo, hhi, htold, hcalls⟩
      rcases ih hxs (ready_final hnodup hready _) hrest with ⟨heard, hheard, hlater⟩
      refine ⟨(k, c) :: heard, .cons ⟨hlo, hhi, htold⟩ hheard, ?_⟩
      have hedges : edgesOf ((t, x.send b') :: sends) =
          edges ⟨LOW, t⟩ (x.send b') ++ edgesOf sends := rfl
      rw [hedges, callsOf_append, hcalls, hlater]
      rfl

/-! ## What the Arduino gateway prints -/

def Signal.codec : Signal → ℕ
  | .kaku _ _ _ => KAKU
  | .action _ _ _ => ACTION
  | .livolo _ _ => LIVOLO
  | .quhwa _ _ => QUHWA

def Signal.group : Signal → ℕ
  | .kaku address _ _ => address
  | .action group _ _ => group
  | .livolo group _ => group
  | .quhwa group _ => group

def Signal.unit : Signal → ℕ
  | .kaku _ unit _ => unit
  | .action _ unit _ => unit
  | .livolo _ unit => unit
  | .quhwa _ unit => unit

def KakuValue.shown : KakuValue → String
  | .on => "on"
  | .off => "0"
  | .level n => toString n.val

def Signal.shown : Signal → String
  | .kaku _ _ value => value.shown
  | .action _ _ on => if on then "1" else "0"
  | .livolo _ _ => "1"
  | .quhwa _ _ => "1"

def KakuValue.remark : KakuValue → String
  | .on => " on"
  | .off => " 0"
  | .level n => if n.val = 0 then " 0" else " dim  " ++ toString n.val

/-- What a gateway adds to its report when it is debugging. -/
def Signal.remark : Signal → String
  | .kaku address unit value =>
      " ! Kaku G: " ++ toString address.val ++ " N " ++ toString unit.val ++ " " ++ value.remark
  | .action _ _ _ => " ! Remote:: period: 195"
  | .livolo _ _ => " ! Livolo "
  | .quhwa _ _ => " ! Quhwa "

/-- `< n 2 codec group unit level`, and the remark -/
def Signal.report (debug n : ℕ) (x : Signal) : String :=
  "< " ++ toString n ++ " 2 " ++ toString x.codec ++ " " ++ toString x.group ++ " " ++
    toString x.unit ++ " " ++ x.shown ++ (if debug = 0 then "" else x.remark) ++ "\r\n"

def Call.text (debug m : ℕ) (c : Call) : String := String.join (line debug m c)

/-- The level that `showKakuCode` prints. -/
def shownLevel (c : Kaku.Code) : String :=
  match c.switchType with
  | .off => "0"
  | .on => "on"
  | .dim => toString c.dimLevel

def remarkedLevel (c : Kaku.Code) : String :=
  match c.switchType with
  | .off => " 0"
  | .on => " on"
  | .dim => " dim  " ++ toString c.dimLevel

/-- A code for one unit; a dimmed one has a level. -/
theorem text_showKakuCode (debug m : ℕ) {c : Kaku.Code} (hgroup : c.groupBit = false)
    (hlevel : c.switchType = .dim → c.dimLevelPresent = true) :
    Call.text debug m ⟨.kaku, c⟩ = "< " ++ toString m ++ " 2 0 " ++ toString c.address ++ " " ++
      toString c.unit ++ " " ++ shownLevel c ++
      (if debug = 0 then "" else " ! Kaku G: " ++ toString c.address ++ " N " ++ toString c.unit ++
        " " ++ remarkedLevel c) ++ "\r\n" := by
  rw [← String.toList_inj]
  rcases c with ⟨period, address, groupBit, switchType, unit, present, dimLevel⟩
  subst hgroup
  cases switchType with
  | dim =>
      obtain rfl : present = true := hlevel rfl
      by_cases hdebug : debug = 0 <;>
        simp [Call.text, line, Gateway.show, callback, showKakuCode, Gateway.print, Gateway.println,
          Gateway.count, shownLevel, remarkedLevel, String.join, hdebug]
  | _ =>
      by_cases hdebug : debug = 0 <;>
        simp [Call.text, line, Gateway.show, callback, showKakuCode, Gateway.print, Gateway.println,
          Gateway.count, shownLevel, remarkedLevel, String.join, hdebug]

/-- A telegram of which `showRemoteCode` makes `r`. -/
theorem text_printRemoteCode (debug m : ℕ) {code period : ℕ} {r : Report}
    (hr : showRemoteCode code period = r) :
    Call.text debug m ⟨.remote, ⟨code, period⟩⟩ =
      "< " ++ toString m ++ " 2 " ++ toString r.codec ++ " " ++ toString r.address ++ " " ++
        toString r.unit ++ " " ++ toString r.level ++
        (if debug = 0 then "" else " ! Remote:: period: " ++ toString period) ++ "\r\n" := by
  rw [← String.toList_inj]
  by_cases hdebug : debug = 0
  · simp [Call.text, line, Gateway.show, callback, printRemoteCode, Gateway.print, Gateway.println,
      Gateway.count, String.join, hr, hdebug]
  · have hpos : 1 ≤ debug := Nat.one_le_iff_ne_zero.2 hdebug
    simp [Call.text, line, Gateway.show, callback, printRemoteCode, Gateway.print, Gateway.println,
      Gateway.count, String.join, hr, hdebug, hpos]

theorem text_showSwitch (debug m : ℕ) (codec name : String) (address unit level : ℕ) :
    String.join (showSwitch codec name address unit level ⟨debug, 0, m, [], []⟩).serial =
      "< " ++ toString m ++ codec ++ toString address ++ " " ++ toString unit ++ " " ++
        toString level ++ (if debug = 0 then "" else name) ++ "\r\n" := by
  rw [showSwitch_eq, ← String.toList_inj]
  by_cases hdebug : debug = 0
  · simp [Gateway.printed, String.join, hdebug]
  · have hpos : 1 ≤ debug := Nat.one_le_iff_ne_zero.2 hdebug
    simp [Gateway.printed, String.join, hdebug, hpos]

/-- What is sent for a Kaku value goes to one unit, with the level that is shown at the other end. -/
theorem command_telegram (address : ℕ) (unit : Fin 16) (value : KakuValue) (present : Bool) :
    let y := (value.command unit).telegram address
    let c := Kaku.transmitted 260 (present || y.dim.isSome) y
    c.groupBit = false ∧ (c.switchType = .dim → c.dimLevelPresent = true) ∧ c.unit = unit ∧
      shownLevel c = value.shown ∧ remarkedLevel c = value.remark := by
  cases value with
  | on => exact ⟨rfl, fun h => Kaku.SwitchType.noConfusion h, rfl, rfl, rfl⟩
  | off => exact ⟨rfl, fun h => Kaku.SwitchType.noConfusion h, rfl, rfl, rfl⟩
  | level k =>
      by_cases hk : k.val = 0
      · rw [KakuValue.command, if_pos hk, KakuValue.shown, KakuValue.remark, if_pos hk, hk]
        exact ⟨rfl, fun h => Kaku.SwitchType.noConfusion h, rfl, rfl, rfl⟩
      · rw [KakuValue.command, if_neg hk, KakuValue.remark, if_neg hk]
        exact ⟨rfl, fun _ => Bool.or_true _, rfl, rfl, rfl⟩

/-- The line of a callback that is told the signal. -/
theorem Signal.Told.text {x : Signal} {c : Call} (h : x.Told c) (debug m : ℕ) :
    Call.text debug m c = x.report debug m := by
  have hone : toString 1 = "1" := rfl
  cases h with
  | kaku address unit value present =>
      have htelegram : (((value.command unit).telegram address).address : ℕ) = address := by
        rw [Kaku.address_telegram]
        exact Nat.mod_eq_of_lt address.isLt
      have hcodec : toString (Signal.kaku address unit value).codec = "0" := by
        rw [Signal.codec, KAKU]
        rfl
      rcases command_telegram address unit value present with
        ⟨hgroup, hlevel, hunit, hshown, hremark⟩
      rw [text_showKakuCode debug m hgroup hlevel, hunit, hshown, hremark, Kaku.transmitted, htelegram]
      unfold Signal.report Signal.remark
      rw [hcodec, ← String.toList_inj]
      simp [Signal.group, Signal.unit, Signal.shown]
  | action group unit on =>
      have hshow : showRemoteCode (Remote.value (Remote.actionTrits group unit on)) 195 = _ :=
        showRemoteCode_actionTrits group.isLt unit.isLt on (by decide) (by decide)
      have hcodec : toString (Signal.action group unit on).codec = "1" := by
        rw [Signal.codec, ACTION]
        rfl
      have hlevel : toString (if on then 1 else 0 : ℕ) = if on then "1" else "0" := by
        cases on <;> rfl
      have hperiod : " ! Remote:: period: " ++ toString 195 = " ! Remote:: period: 195" := by decide
      rw [text_printRemoteCode debug m hshow]
      unfold Signal.report Signal.remark
      simp only [hcodec, hone, hlevel, hperiod, Signal.group, Signal.unit, Signal.shown]
  | livolo group unit =>
      have hcodec : toString (Signal.livolo group unit).codec = "5" := by
        rw [Signal.codec, LIVOLO]
        rfl
      refine (text_showSwitch debug m " 2 5 " " ! Livolo " group unit 1).trans ?_
      unfold Signal.report Signal.remark
      rw [hcodec, hone, ← String.toList_inj]
      simp [Signal.group, Signal.unit, Signal.shown]
  | quhwa group unit =>
      have hcodec : toString (Signal.quhwa group unit).codec = "7" := by
        rw [Signal.codec, QUHWA]
        rfl
      refine (text_showSwitch debug m " 2 7 " " ! Quhwa " group unit 1).trans ?_
      unfold Signal.report Signal.remark
      rw [hcodec, hone, ← String.toList_inj]
      simp [Signal.group, Signal.unit, Signal.shown]

end ArduinoGateway
end LamPI
