import LamPI.Repeats
import LamPI.Library.Digits
import Mathlib.Data.List.Forall2

/-!
# Quhwa receiver — `quhwaReceiver.cpp`

Every bit is one interval, high or low, and `_state` counts them: `-1` waits for the low part of
the start pulse, `0..26` are the address and `27..34` the unit.
-/

namespace LamPI
namespace Quhwa

open BigEndian

structure Code where
  period : ℕ
  address : ℕ
  unit : ℕ
  level : ℕ
  deriving DecidableEq, Repr

structure Decoder where
  state : ℤ
  receivedBit : ℕ
  receivedCode : Code
  filter : RepeatFilter Code
  deriving DecidableEq, Repr

def min1Period : ℕ := 300
def max1Period : ℕ := 450
def max3Period : ℕ := 1250

def Decoder.reset (s : Decoder) : Decoder := { s with state := -1 }

def sameCode (c d : Code) : Bool := c.address == d.address && c.unit == d.unit

def advance (s : Decoder) : Decoder × Option (Completion Code) :=
  if s.state + 1 = 35 then
    let filter := s.filter.count sameCode s.receivedCode
    -- the state is reset whether or not the callback was called
    ({ s.reset with filter := filter }, some (filter.completion s.receivedCode))
  else ({ s with state := s.state + 1 }, none)

def bitOf (duration : ℕ) : Bool := decide (¬duration < max1Period)

def storeAddress (bit : Bool) (c : Code) : Code :=
  { c with address := (c.address * 2 + bit.toNat) % 2 ^ 32 }

def storeUnit (bit : Bool) (c : Code) : Code :=
  { c with unit := (c.unit * 2 + bit.toNat) % 2 ^ 16 }

def startCode (duration : ℕ) : Code :=
  { period := duration / 15, address := 0, unit := 0, level := 1 }

/-- `quhwaReceiver::interruptHandler` from the filter on; `gap` is
`edgeTimeStamp[2] - edgeTimeStamp[1]`. -/
def decode (b : Board) (s : Decoder) (gap : ℕ) : Decoder × Option (Completion Code) :=
  -- a spike or a pause within a frame
  if 0 ≤ s.state ∧ (gap < min1Period ∨ max3Period < gap) then (s.reset, none)
  else
    let duration := b.uint gap
    let bit := bitOf duration
    if s.state = -1 then
      -- the start pulse
      if 2000 < duration ∧ duration < 7000 then
        advance { s with receivedBit := 0, receivedCode := startCode duration }
      else (s, none)
    -- one state each: 27 bits of address, 8 of unit
    else if s.state < 27 then
      advance { s with receivedBit := bit.toNat, receivedCode := storeAddress bit s.receivedCode }
    else if s.state < 35 then
      advance { s with receivedBit := bit.toNat, receivedCode := storeUnit bit s.receivedCode }
    else (s.reset, none)

abbrev State := Sampled Decoder

def interruptHandler (b : Board) : State → ℕ → State × Option (Completion Code) :=
  Sampled.onEdge (decode b)

def noCode : Code := { period := 0, address := 0, unit := 0, level := 0 }

/-- The static variables after `quhwaReceiver::init(_, minRepeats, _)`, the last edge having been
seen at `edge2`. -/
def init (minRepeats : ℕ) (edge2 : ULong) : State :=
  { enabled := true
    edge2 := edge2
    decoder :=
      { state := -1
        receivedBit := 0
        receivedCode := noCode
        filter :=
          { minRepeats := minRepeats, inCallback := false, previousCode := noCode,
            repeats := 0 } } }

/-! ## What one interval can do -/

def store (state : ℤ) : Bool → Code → Code := if state < 27 then storeAddress else storeUnit

inductive StepTo (b : Board) (s : Decoder) (gap : ℕ) : Decoder × Option (Completion Code) → Prop
  | idle (hstate : s.state = -1) : StepTo b s gap (s, none)
  | reset : StepTo b s gap (s.reset, none)
  | start (hstate : s.state = -1) (bit : ℕ) :
      StepTo b s gap (advance { s with receivedBit := bit, receivedCode := startCode (b.uint gap) })
  | bit (hlo : s.state ≠ -1) (hhi : s.state < 35) (rb : ℕ) (bit : Bool) :
      StepTo b s gap
        (advance { s with receivedBit := rb, receivedCode := store s.state bit s.receivedCode })

/-- Every interval is ignored, aborts the frame, begins one or is a bit of it. -/
theorem stepTo_decode (b : Board) (s : Decoder) (gap : ℕ) : StepTo b s gap (decode b s gap) := by
  unfold decode
  split
  · exact StepTo.reset
  · simp only
    split
    · next hidle =>
      split
      · exact StepTo.start hidle 0
      · exact StepTo.idle hidle
    · next hne =>
      split
      -- the first 27 states store the address
      · next h27 =>
        have hbit : StepTo b s gap _ :=
          StepTo.bit hne (by omega) (bitOf (b.uint gap)).toNat (bitOf (b.uint gap))
        rwa [store, if_pos h27] at hbit
      · next h27 =>
        split
        · next h35 =>
          have hbit : StepTo b s gap _ :=
            StepTo.bit hne h35 (bitOf (b.uint gap)).toNat (bitOf (b.uint gap))
          rwa [store, if_neg h27] at hbit
        · exact StepTo.reset

theorem step_advance (s : Decoder) {f : RepeatFilter Code} (h : s.filter = f) :
    RepeatFilter.Step sameCode f (advance s).1.filter (advance s).2 := by
  subst h
  unfold advance
  split
  · exact RepeatFilter.Step.complete s.receivedCode
  · exact RepeatFilter.Step.silent

/-- The repeat filter changes at the end of a frame only. -/
theorem counts_decode (b : Board) : Counts (decode b) sameCode Decoder.filter := by
  intro s gap
  have hstep := stepTo_decode b s gap
  generalize decode b s gap = r at hstep ⊢
  cases hstep with
  | idle => exact RepeatFilter.Step.silent
  | reset => exact RepeatFilter.Step.silent
  | start => exact step_advance _ rfl
  | bit => exact step_advance _ rfl

theorem advance_state_ge {s : Decoder} (hs : -1 ≤ s.state) : -1 ≤ (advance s).1.state := by
  unfold advance
  split
  · exact le_refl (-1 : ℤ)
  · simp only
    omega

/-- `_state` never falls below -1. -/
theorem decode_state_ge {b : Board} {s : Decoder} (gap : ℕ) (hs : -1 ≤ s.state) :
    -1 ≤ (decode b s gap).1.state := by
  have hstep := stepTo_decode b s gap
  generalize decode b s gap = r at hstep ⊢
  cases hstep with
  | idle => exact hs
  | reset => exact le_refl (-1 : ℤ)
  | start => exact advance_state_ge hs
  | bit => exact advance_state_ge hs

/-! ## Frames -/

def Bit (bit : Bool) (gap : ℕ) : Prop :=
  min1Period ≤ gap ∧ gap ≤ max3Period ∧ bitOf gap = bit

def pushBit (k : ℕ) (c : Code) (bit : Bool) : Code := store k bit c

def InFrame (f : RepeatFilter Code) (k : ℕ) (c : Code) (s : Decoder) : Prop :=
  s.state = k ∧ s.receivedCode = c ∧ s.filter = f

def Finished (f : RepeatFilter Code) (c : Code) (s : Decoder) : Prop :=
  s.state = -1 ∧ s.filter = f.count sameCode c

variable {b : Board} {f : RepeatFilter Code} {k gap : ℕ} {c : Code} {s : Decoder} {bit : Bool}

/-- Within a frame an interval of the right length is a bit of the current field. -/
theorem decode_bit (hk : k < 35) (hs : InFrame f k c s) (hw : Bit bit gap) :
    decode b s gap =
      advance { s with receivedBit := bit.toNat, receivedCode := pushBit k c bit } := by
  rcases hs with ⟨hstate, rfl, rfl⟩
  rcases hw with ⟨hmin, hmax, rfl⟩
  have hu : b.uint gap = gap := b.uint_of_lt (by unfold max3Period at hmax; omega)
  have hpass : ¬(0 ≤ s.state ∧ (gap < min1Period ∨ max3Period < gap)) := by omega
  have hne : s.state ≠ -1 := by omega
  rw [decode, if_neg hpass]
  simp only [hu, if_neg hne, pushBit, store, ← hstate]
  by_cases h27 : s.state < 27
  · simp only [if_pos h27]
  · have h35 : s.state < 35 := by omega
    simp only [if_neg h27, if_pos h35]

theorem run_bit_inner (hk : k < 34) (hs : InFrame f k c s) (hw : Bit bit gap) :
    InFrame f (k + 1) (pushBit k c bit) (decode b s gap).1 ∧ (decode b s gap).2 = none := by
  have hstate := hs.1
  have hfilter := hs.2.2
  rw [decode_bit (by omega) hs hw, advance, if_neg (by simp only; omega)]
  exact ⟨⟨by simp only [hstate]; rfl, rfl, hfilter⟩, rfl⟩

theorem run_bit_last (hs : InFrame f 34 c s) (hw : Bit bit gap) :
    Finished f (pushBit 34 c bit) (decode b s gap).1 ∧
      (decode b s gap).2 =
        some ((f.count sameCode (pushBit 34 c bit)).completion (pushBit 34 c bit)) := by
  have hstate := hs.1
  have hfilter := hs.2.2
  rw [decode_bit (by omega) hs hw, advance, if_pos (by simp only [hstate]; rfl)]
  rw [← hfilter]
  exact ⟨⟨rfl, rfl⟩, rfl⟩

def frameCode (start : ℕ) (bs : List Bool) : Code :=
  { startCode start with address := ofBits (bs.take 27), unit := ofBits (bs.drop 27) }

theorem foldlIdx_pushBit (start : ℕ) {bs : List Bool} (h : bs.length = 35) :
    bs.foldlIdx pushBit (startCode start) = frameCode start bs := by
  have hlen : bs.length - 27 = 8 := by rw [h]
  refine foldlIdx_two_registers
    (g := fun a u => ({ startCode start with address := a, unit := u } : Code))
    (m := 2 ^ 32) (l := 2 ^ 16) (by rw [h]; decide) ?_ ?_ (by decide) (by rw [hlen]; decide)
  · intro k hk a u bit
    rw [pushBit, store, if_pos (by omega)]
    rfl
  · intro k hk a u bit
    rw [pushBit, store, if_neg (by omega)]
    rfl

def Start (b : Board) (gap : ℕ) : Prop := 2000 < b.uint gap ∧ b.uint gap < 7000

/-- After an accepted start pulse the decoder is in state 0 with an empty code. -/
theorem decode_start (hs : s.state = -1) (hgap : Start b gap) :
    InFrame s.filter 0 (startCode (b.uint gap)) (decode b s gap).1 ∧ (decode b s gap).2 = none := by
  have hstart : decode b s gap =
      ({ s with state := 0, receivedBit := 0, receivedCode := startCode (b.uint gap) }, none) := by
    rw [decode, if_neg (by omega)]
    simp only [if_pos hs]
    unfold Start at hgap
    rw [if_pos hgap, advance, if_neg (by simp only; omega)]
    simp only [hs]
    rfl
  rw [hstart]
  exact ⟨⟨rfl, rfl, rfl⟩, rfl⟩

/-- Without a start pulse nothing happens in state -1. -/
theorem decode_idle (hs : s.state = -1) (h : ¬Start b gap) : decode b s gap = (s, none) := by
  rw [decode, if_neg (by omega)]
  simp only [if_pos hs]
  exact if_neg h

/-- A start pulse and 35 bits complete a frame. -/
theorem run_frame (hs : s.state = -1) (hgap : Start b gap) {bs : List Bool} {ws : List ℕ}
    (hbs : bs.length = 35) (hws : List.Forall₂ Bit bs ws) :
    Finished s.filter (frameCode (b.uint gap) bs) (Mealy.final (decode b) s (gap :: ws)) ∧
      Mealy.events (decode b) s (gap :: ws) =
        [(s.filter.count sameCode (frameCode (b.uint gap) bs)).completion
          (frameCode (b.uint gap) bs)] := by
  rcases decode_start hs hgap with ⟨hstart, hquiet⟩
  have hne : bs ≠ [] := by
    rintro rfl
    exact absurd hbs (by decide)
  -- every bit is a code word of one interval
  have hwords : List.Forall₂ (fun bit w => ∃ d, w = [d] ∧ Bit bit d) bs (ws.map fun d => [d]) := by
    refine List.forall₂_map_right_iff.2 ?_
    exact hws.imp fun _ d hd => ⟨d, rfl, hd⟩
  -- 34 bits stay in the frame, and the last one completes it
  have hrun := Mealy.run_frame (R := InFrame s.filter) (Q := Finished s.filter)
    (e := fun c => [(s.filter.count sameCode c).completion c])
    (fun k c s' bit w hk h hw => by
      rcases hw with ⟨d, rfl, hd⟩
      rcases run_bit_inner (b := b) hk h hd with ⟨hin, hnone⟩
      rw [Mealy.final_cons, Mealy.events_cons, hnone]
      exact ⟨hin, rfl⟩)
    (fun c s' bit w h hw => by
      rcases hw with ⟨d, rfl, hd⟩
      rcases run_bit_last (b := b) h hd with ⟨hdone, hsome⟩
      rw [Mealy.final_cons, Mealy.events_cons, hsome]
      exact ⟨hdone, rfl⟩)
    hstart hwords hne (by omega)
  rw [foldlIdx_pushBit _ hbs, ← List.flatMap_def, List.flatMap_singleton'] at hrun
  rw [Mealy.final_cons, Mealy.events_cons, hquiet]
  exact hrun

end Quhwa
end LamPI
