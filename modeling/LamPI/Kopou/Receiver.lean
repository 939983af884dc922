import LamPI.Repeats
import LamPI.Library.Digits
import Mathlib.Data.List.Forall2

/-!
# Kopou receiver — `kopouReceiver.cpp`

Every bit is two intervals, short and long for a `0`, long and short for a `1`; the even states
read the first of them and the odd ones the second.  `-1` waits for the start pulse, `0..31` are
the address and `32..47` the unit.
-/

namespace LamPI
namespace Kopou

open BigEndian

structure Code where
  period : ℕ
  address : ℕ
  unit : ℕ
  level : ℕ
  deriving DecidableEq, Repr

structure Decoder where
  state : ℤ
  receivedBit : ℕ
  receivedCode : Code
  filter : RepeatFilter Code
  deriving DecidableEq, Repr

def min1Period : ℕ := 90
def max1Period : ℕ := 180
def min2Period : ℕ := 180
def max2Period : ℕ := 300

def Decoder.reset (s : Decoder) : Decoder := { s with state := -1 }

def sameCode (c d : Code) : Bool :=
  c.address == d.address && c.unit == d.unit && c.level == d.level

def advance (s : Decoder) : Decoder × Option (Completion Code) :=
  if s.state + 1 = 48 then
    let filter := s.filter.count sameCode s.receivedCode
    -- the state is reset whether or not the callback was called
    ({ s.reset with filter := filter }, some (filter.completion s.receivedCode))
  else ({ s with state := s.state + 1 }, none)

/-- The body shared by the address and the unit states; `store` appends a bit to the field. -/
def decodeBit (store : ℕ → Code → Code) (s : Decoder) (duration : ℕ) :
    Decoder × Option (Completion Code) :=
  -- the first half of a bit tells what it is
  if s.state % 2 = 0 then
    advance { s with receivedBit := if duration < max1Period then 0 else 1 }
  -- the second half has to be long for a 0
  else if min2Period < duration then
    if s.receivedBit ≠ 0 then (s.reset, none)
    else advance { s with receivedCode := store s.receivedBit s.receivedCode }
  else
    -- and short for a 1
    if s.receivedBit ≠ 1 then (s.reset, none)
    else advance { s with receivedCode := store s.receivedBit s.receivedCode }

/-- `receivedCode.address = receivedCode.address *2 + receivedBit`, an `unsigned long`. -/
def storeAddress (bit : ℕ) (c : Code) : Code :=
  { c with address := (c.address * 2 + bit) % 2 ^ 32 }

/-- `receivedCode.unit = receivedCode.unit *2 + receivedBit`, an `unsigned short`. -/
def storeUnit (bit : ℕ) (c : Code) : Code :=
  { c with unit := (c.unit * 2 + bit) % 2 ^ 16 }

def startCode (duration : ℕ) : Code :=
  { period := duration / 5, address := 0, unit := 0, level := 1 }

/-- `kopouReceiver::interruptHandler` from the filter on; `gap` is
`edgeTimeStamp[2] - edgeTimeStamp[1]`. -/
def decode (b : Board) (s : Decoder) (gap : ℕ) : Decoder × Option (Completion Code) :=
  -- a spike or a pause within a frame
  if 0 ≤ s.state ∧ (gap < min1Period ∨ max2Period < gap) then (s.reset, none)
  else
    let duration := b.uint gap
    if s.state = -1 then
      -- the start pulse
      if 500 < duration ∧ duration < 750 then
        advance { s with receivedBit := 0, receivedCode := startCode duration }
      else (s, none)
    -- two states each: 16 bits of address, 8 of unit
    else if s.state < 32 then decodeBit storeAddress s duration
    else if s.state < 48 then decodeBit storeUnit s duration
    else (s.reset, none)

abbrev State := Sampled Decoder

def interruptHandler (b : Board) : State → ℕ → State × Option (Completion Code) :=
  Sampled.onEdge (decode b)

def noCode : Code := { period := 0, address := 0, unit := 0, level := 0 }

/-- The static variables after `kopouReceiver::init(_, minRepeats, _)`, the last edge having been
seen at `edge2`. -/
def init (minRepeats : ℕ) (edge2 : ULong) : State :=
  { enabled := true
    edge2 := edge2
    decoder :=
      { state := -1
        receivedBit := 0
        receivedCode := noCode
        filter :=
          { minRepeats := minRepeats, inCallback := false, previousCode := noCode,
            repeats := 0 } } }

/-! ## What one interval can do -/

def store (state : ℤ) : ℕ → Code → Code := if state < 32 then storeAddress else storeUnit

inductive StepTo (b : Board) (s : Decoder) (gap : ℕ) : Decoder × Option (Completion Code) → Prop
  | idle (hstate : s.state = -1) : StepTo b s gap (s, none)
  | reset : StepTo b s gap (s.reset, none)
  | start (hstate : s.state = -1) :
      StepTo b s gap (advance { s with receivedBit := 0, receivedCode := startCode (b.uint gap) })
  | first (hne : s.state ≠ -1) (hhi : s.state < 48) (heven : s.state % 2 = 0) (rb : ℕ) :
      StepTo b s gap (advance { s with receivedBit := rb })
  | second (hne : s.state ≠ -1) (hhi : s.state < 48) (hodd : s.state % 2 ≠ 0)
      (hbit : s.receivedBit = 0 ∨ s.receivedBit = 1) :
      StepTo b s gap
        (advance { s with receivedCode := store s.state s.receivedBit s.receivedCode })

variable {b : Board} {s : Decoder} {gap : ℕ}

theorem StepTo.decodeBit (hne : s.state ≠ -1) (hhi : s.state < 48) (duration : ℕ) :
    StepTo b s gap (decodeBit (store s.state) s duration) := by
  unfold Kopou.decodeBit
  split
  · next heven => exact StepTo.first hne hhi heven _
  · next hodd =>
    split
    · split
      · exact StepTo.reset
      · next hbit => exact StepTo.second hne hhi hodd (Or.inl (not_not.1 hbit))
    · split
      · exact StepTo.reset
      · next hbit => exact StepTo.second hne hhi hodd (Or.inr (not_not.1 hbit))

/-- Every interval is ignored, aborts the frame, begins one or is one half of a bit. -/
theorem stepTo_decode (b : Board) (s : Decoder) (gap : ℕ) : StepTo b s gap (decode b s gap) := by
  unfold decode
  split
  · exact StepTo.reset
  · simp only
    split
    · next hidle =>
      split
      · exact StepTo.start hidle
      · exact StepTo.idle hidle
    · next hne =>
      split
      · next h32 =>
        have hbit : StepTo b s gap _ := StepTo.decodeBit hne (by omega) (b.uint gap)
        rwa [store, if_pos h32] at hbit
      · next h32 =>
        split
        · next h48 =>
          have hbit : StepTo b s gap _ := StepTo.decodeBit hne h48 (b.uint gap)
          rwa [store, if_neg h32] at hbit
        · exact StepTo.reset

theorem step_advance (s : Decoder) {f : RepeatFilter Code} (h : s.filter = f) :
    RepeatFilter.Step sameCode f (advance s).1.filter (advance s).2 := by
  subst h
  unfold advance
  split
  · exact RepeatFilter.Step.complete s.receivedCode
  · exact RepeatFilter.Step.silent

/-- The repeat filter changes at the end of a frame only. -/
theorem counts_decode (b : Board) : Counts (decode b) sameCode Decoder.filter := by
  intro s gap
  have hstep := stepTo_decode b s gap
  generalize decode b s gap = r at hstep ⊢
  cases hstep with
  | idle => exact RepeatFilter.Step.silent
  | reset => exact RepeatFilter.Step.silent
  | start => exact step_advance _ rfl
  | first => exact step_advance _ rfl
  | second => exact step_advance _ rfl

/-! ## Code words -/

inductive Word : Bool → List ℕ → Prop
  | zero {d e : ℕ} (hd : min1Period ≤ d) (hd' : d < max1Period) (he : min2Period < e)
      (he' : e ≤ max2Period) : Word false [d, e]
  | one {d e : ℕ} (hd : max1Period ≤ d) (hd' : d ≤ max2Period) (he : min1Period ≤ e)
      (he' : e ≤ min2Period) : Word true [d, e]

def pushBit (k : ℕ) (c : Code) (bit : Bool) : Code := store (2 * k) bit.toNat c

def InFrame (f : RepeatFilter Code) (k : ℕ) (c : Code) (s : Decoder) : Prop :=
  s.state = 2 * k ∧ s.receivedCode = c ∧ s.filter = f

/-- What a completed frame leaves behind: the decoder waits for a start pulse and the code has
been counted. -/
def Finished (f : RepeatFilter Code) (c : Code) (s : Decoder) : Prop :=
  s.state = -1 ∧ s.filter = f.count sameCode c

variable {f : RepeatFilter Code} {k : ℕ} {c : Code} {bit : Bool} {w : List ℕ}

/-- Within a frame the handler is `decodeBit` on the field of the current bit. -/
theorem decode_eq (hs : 0 ≤ s.state) (hhi : s.state < 48) (hmin : min1Period ≤ gap)
    (hmax : gap ≤ max2Period) : decode b s gap = decodeBit (store s.state) s gap := by
  have hu : b.uint gap = gap := b.uint_of_lt (by unfold max2Period at hmax; omega)
  have hpass : ¬(0 ≤ s.state ∧ (gap < min1Period ∨ max2Period < gap)) := by omega
  have hne : s.state ≠ -1 := by omega
  rw [decode, if_neg hpass]
  simp only [hu, if_neg hne, store]
  by_cases h32 : s.state < 32
  · simp only [if_pos h32]
  · simp only [if_neg h32, if_pos hhi]

/-- Both halves of a bit lie in the field that the bit belongs to. -/
theorem store_succ (k : ℕ) : store (2 * k + 1) = store (2 * k) := by
  unfold store
  by_cases h : k < 16
  · rw [if_pos (by omega), if_pos (by omega)]
  · rw [if_neg (by omega), if_neg (by omega)]

/-- The two halves of a bit, up to `_state++` of the second. -/
theorem run_word (hk : k < 24) (hs : InFrame f k c s) (hw : Word bit w) :
    ∃ rb, Mealy.final (decode b) s w = (advance { s with
        state := 2 * k + 1, receivedBit := rb, receivedCode := pushBit k c bit }).1 ∧
      Mealy.events (decode b) s w = (advance { s with
        state := 2 * k + 1, receivedBit := rb, receivedCode := pushBit k c bit }).2.toList := by
  rcases hs with ⟨hstate, rfl, rfl⟩
  have heven : s.state % 2 = 0 := by omega
  have hnext : s.state + 1 = 2 * k + 1 := by rw [hstate]
  have hodd : ¬(2 * (k : ℤ) + 1) % 2 = 0 := by omega
  cases hw with
  -- a short interval, kept as the bit, and a long one that confirms it
  | @zero d e hd hd' he he' =>
      have hdmax : d ≤ max2Period := by unfold max1Period max2Period at *; omega
      have hemin : min1Period ≤ e := by unfold min1Period min2Period at *; omega
      have hfirst : decode b s d = ({ s with state := 2 * k + 1, receivedBit := 0 }, none) := by
        rw [decode_eq (by omega) (by omega) hd hdmax, decodeBit, if_pos heven, if_pos hd', advance,
          if_neg (by simp only; omega)]
        simp only [hnext]
      have hsecond : decode b { s with state := 2 * k + 1, receivedBit := 0 } e =
          advance { s with
            state := 2 * k + 1, receivedBit := 0, receivedCode := pushBit k s.receivedCode false } := by
        rw [decode_eq (by simp only; omega) (by simp only; omega) hemin he', decodeBit,
          if_neg hodd, if_pos he, if_neg (by simp), store_succ]
        rfl
      refine ⟨0, ?_⟩
      rw [Mealy.final_cons, Mealy.events_cons, hfirst, Mealy.final_cons, Mealy.events_cons, hsecond]
      exact ⟨rfl, List.append_nil _⟩
  -- a long one and a short one
  | @one d e hd hd' he he' =>
      have hdmin : min1Period ≤ d := by unfold min1Period max1Period at *; omega
      have hemax : e ≤ max2Period := by unfold min2Period max2Period at *; omega
      have hfirst : decode b s d = ({ s with state := 2 * k + 1, receivedBit := 1 }, none) := by
        rw [decode_eq (by omega) (by omega) hdmin hd', decodeBit, if_pos heven,
          if_neg (Nat.not_lt.2 hd), advance, if_neg (by simp only; omega)]
        simp only [hnext]
      have hsecond : decode b { s with state := 2 * k + 1, receivedBit := 1 } e =
          advance { s with
            state := 2 * k + 1, receivedBit := 1, receivedCode := pushBit k s.receivedCode true } := by
        rw [decode_eq (by simp only; omega) (by simp only; omega) he hemax, decodeBit,
          if_neg hodd, if_neg (Nat.not_lt.2 he'), if_neg (by simp), store_succ]
        rfl
      refine ⟨1, ?_⟩
      rw [Mealy.final_cons, Mealy.events_cons, hfirst, Mealy.final_cons, Mealy.events_cons, hsecond]
      exact ⟨rfl, List.append_nil _⟩

theorem run_word_inner (hk : k < 23) (hs : InFrame f k c s) (hw : Word bit w) :
    InFrame f (k + 1) (pushBit k c bit) (Mealy.final (decode b) s w) ∧
      Mealy.events (decode b) s w = [] := by
  rcases run_word (b := b) (by omega) hs hw with ⟨rb, hfinal, hevents⟩
  rw [hfinal, hevents, advance, if_neg (by simp only; omega)]
  refine ⟨⟨?_, rfl, hs.2.2⟩, rfl⟩
  push_cast
  ring

theorem run_word_last (hs : InFrame f 23 c s) (hw : Word bit w) :
    Finished f (pushBit 23 c bit) (Mealy.final (decode b) s w) ∧
      Mealy.events (decode b) s w =
        [(f.count sameCode (pushBit 23 c bit)).completion (pushBit 23 c bit)] := by
  rcases run_word (b := b) (by omega) hs hw with ⟨rb, hfinal, hevents⟩
  rw [hfinal, hevents, advance, if_pos (by rfl), ← hs.2.2]
  exact ⟨⟨rfl, rfl⟩, rfl⟩

/-! ## Frames -/

def frameCode (start : ℕ) (bs : List Bool) : Code :=
  { startCode start with address := ofBits (bs.take 16), unit := ofBits (bs.drop 16) }

theorem foldlIdx_pushBit (start : ℕ) {bs : List Bool} (h : bs.length = 24) :
    bs.foldlIdx pushBit (startCode start) = frameCode start bs := by
  have hlen : bs.length - 16 = 8 := by rw [h]
  refine foldlIdx_two_registers
    (g := fun a u => ({ startCode start with address := a, unit := u } : Code))
    (m := 2 ^ 32) (l := 2 ^ 16) (by rw [h]; decide) ?_ ?_ (by decide) (by rw [hlen]; decide)
  · intro k hk a u bit
    rw [pushBit, store, if_pos (by omega)]
    rfl
  · intro k hk a u bit
    rw [pushBit, store, if_neg (by omega)]
    rfl

def Start (b : Board) (gap : ℕ) : Prop := 500 < b.uint gap ∧ b.uint gap < 750

/-- After an accepted start pulse the decoder is in state 0 with an empty code. -/
theorem decode_start (hs : s.state = -1) (hgap : Start b gap) :
    InFrame s.filter 0 (startCode (b.uint gap)) (decode b s gap).1 ∧ (decode b s gap).2 = none := by
  have hstart : decode b s gap =
      ({ s with state := 0, receivedBit := 0, receivedCode := startCode (b.uint gap) }, none) := by
    rw [decode, if_neg (by omega)]
    simp only [if_pos hs]
    unfold Start at hgap
    rw [if_pos hgap, advance, if_neg (by simp only; omega)]
    simp only [hs]
    rfl
  rw [hstart]
  exact ⟨⟨rfl, rfl, rfl⟩, rfl⟩

/-- Without a start pulse nothing happens in state -1. -/
theorem decode_idle (hs : s.state = -1) (h : ¬Start b gap) : decode b s gap = (s, none) := by
  rw [decode, if_neg (by omega)]
  simp only [if_pos hs]
  exact if_neg h

/-- A start pulse and the code words of 24 bits complete a frame. -/
theorem run_frame (hs : s.state = -1) (hgap : Start b gap) {bs : List Bool}
    {ws : List (List ℕ)} (hbs : bs.length = 24) (hws : List.Forall₂ Word bs ws) :
    Finished s.filter (frameCode (b.uint gap) bs) (Mealy.final (decode b) s (gap :: ws.flatten)) ∧
      Mealy.events (decode b) s (gap :: ws.flatten) =
        [(s.filter.count sameCode (frameCode (b.uint gap) bs)).completion
          (frameCode (b.uint gap) bs)] := by
  rcases decode_start hs hgap with ⟨hstart, hquiet⟩
  have hne : bs ≠ [] := by
    rintro rfl
    exact absurd hbs (by decide)
  have hrun := Mealy.run_frame (R := InFrame s.filter) (Q := Finished s.filter)
    (e := fun c => [(s.filter.count sameCode c).completion c]) (W := Word)
    (fun k c s' bit w hk h hw => run_word_inner (b := b) hk h hw)
    (fun c s' bit w h hw => run_word_last h hw) hstart hws hne (by omega)
  rw [foldlIdx_pushBit _ hbs] at hrun
  rw [Mealy.final_cons, Mealy.events_cons, hquiet]
  exact hrun

end Kopou
end LamPI
