import LamPI.Repeats
import LamPI.Library.Digits

/-!
# Livolo receiver — `livoloReceiver.cpp`

`_state` counts half bits: a long pulse moves it by two, a short one by one.  `-1` waits for the
start pulse, `0..31` are the address and `32..45` the unit.
-/

namespace LamPI
namespace Livolo

open BigEndian

structure Code where
  address : ℕ
  unit : ℕ
  level : ℕ
  deriving DecidableEq, Repr

structure Decoder where
  state : ℤ
  receivedBit : ℕ
  receivedCode : Code
  filter : RepeatFilter Code
  deriving DecidableEq, Repr

def min1Period : ℕ := 100
def min3Period : ℕ := 240
def max3Period : ℕ := 400

def Decoder.reset (s : Decoder) : Decoder := { s with state := -1 }

def sameCode (c d : Code) : Bool :=
  c.address == d.address && c.unit == d.unit && c.level == d.level

/-- The end of the handler: in state 46 the frame is complete. -/
def close (s : Decoder) : Decoder × Option (Completion Code) :=
  if s.state = 46 then
    let filter := s.filter.count sameCode s.receivedCode
    -- the state is reset whether or not the callback was called
    ({ s.reset with filter := filter }, some (filter.completion s.receivedCode))
  else (s, none)

def advance (s : Decoder) : Decoder × Option (Completion Code) :=
  close { s with state := s.state + 1 }

def decodeBit (store : ℕ → Code → Code) (s : Decoder) (duration : ℕ) :
    Decoder × Option (Completion Code) :=
  -- a long pulse is a 1, of two half bits
  if min3Period < duration then
    advance { s with
      receivedBit := 1, state := s.state + 1, receivedCode := store 1 s.receivedCode }
  -- the second short pulse: the bit is a 0
  else if s.state % 2 = 1 then
    if s.receivedBit ≠ 0 then (s.reset, none)
    else advance { s with
      receivedBit := 0, receivedCode := store s.receivedBit s.receivedCode }
  -- the first short pulse
  else advance { s with receivedBit := 0 }

/-- `receivedCode.address = receivedCode.address * 2 + receivedBit`, an `unsigned long`. -/
def storeAddress (bit : ℕ) (c : Code) : Code :=
  { c with address := (c.address * 2 + bit) % 2 ^ 32 }

/-- `receivedCode.unit = receivedCode.unit * 2 + receivedBit`, an `unsigned short`. -/
def storeUnit (bit : ℕ) (c : Code) : Code :=
  { c with unit := (c.unit * 2 + bit) % 2 ^ 16 }

/-- `livoloReceiver::interruptHandler` from the filter on; `gap` is
`edgeTimeStamp[2] - edgeTimeStamp[1]`. -/
def decode (b : Board) (s : Decoder) (gap : ℕ) : Decoder × Option (Completion Code) :=
  -- a spike or a pause within a frame
  if 0 ≤ s.state ∧ (gap < min1Period ∨ max3Period < gap) then (s.reset, none)
  else
    let duration := b.uint gap
    if s.state = -1 then
      -- the start pulse
      if 440 < duration ∧ duration < 600 then
        advance { s with receivedBit := 0, receivedCode := { address := 0, unit := 0, level := 1 } }
      else (s, none)
    -- two half bits each: 16 bits of address, 7 of unit
    else if s.state < 32 then decodeBit storeAddress s duration
    else if s.state < 46 then decodeBit storeUnit s duration
    else (s.reset, none)

abbrev State := Sampled Decoder

def interruptHandler (b : Board) : State → ℕ → State × Option (Completion Code) :=
  Sampled.onEdge (decode b)

/-- The static variables after `livoloReceiver::init(_, minRepeats, _)`, the last edge having been
seen at `edge2`. -/
def init (minRepeats : ℕ) (edge2 : ULong) : State :=
  { enabled := true
    edge2 := edge2
    decoder :=
      { state := -1
        receivedBit := 0
        receivedCode := { address := 0, unit := 0, level := 0 }
        filter :=
          { minRepeats := minRepeats
            inCallback := false
            previousCode := { address := 0, unit := 0, level := 0 }
            repeats := 0 } } }

/-! ## What one interval can do -/

inductive StepTo (s : Decoder) : Decoder × Option (Completion Code) → Prop
  | silent {s' : Decoder} (hfilter : s'.filter = s.filter)
      (hstate : s'.state = -1 ∨ s.state ≤ s'.state) : StepTo s (s', none)
  | complete {s' : Decoder} (c : Code) (hfilter : s'.filter = s.filter.count sameCode c)
      (hstate : s'.state = -1) :
      StepTo s (s', some ((s.filter.count sameCode c).completion c))

theorem StepTo.reset (s : Decoder) : StepTo s (s.reset, none) := StepTo.silent rfl (Or.inl rfl)

theorem StepTo.close {s t : Decoder} (hfilter : t.filter = s.filter) (hle : s.state ≤ t.state) :
    StepTo s (close t) := by
  unfold Livolo.close
  split
  · simp only [hfilter]
    exact StepTo.complete _ rfl rfl
  · exact StepTo.silent hfilter (Or.inr hle)

theorem StepTo.decodeBit (store : ℕ → Code → Code) (s : Decoder) (duration : ℕ) :
    StepTo s (decodeBit store s duration) := by
  unfold Livolo.decodeBit advance
  split
  · exact StepTo.close rfl (by simp; omega)
  · split
    · split
      · exact StepTo.reset s
      · exact StepTo.close rfl (by simp)
    · exact StepTo.close rfl (by simp)

/-- Every interval either moves the decoder silently or completes a frame. -/
theorem stepTo_decode (b : Board) (s : Decoder) (gap : ℕ) : StepTo s (decode b s gap) := by
  unfold decode
  split
  · exact StepTo.reset s
  · simp only
    split
    · split
      · exact StepTo.close rfl (by simp)
      · exact StepTo.silent rfl (Or.inr le_rfl)
    · split
      · exact StepTo.decodeBit _ s _
      · split
        · exact StepTo.decodeBit _ s _
        · exact StepTo.reset s

/-- `_state` never falls below -1. -/
theorem decode_state_ge {b : Board} {s : Decoder} (gap : ℕ) (hs : -1 ≤ s.state) :
    -1 ≤ (decode b s gap).1.state := by
  have hstep := stepTo_decode b s gap
  generalize decode b s gap = r at hstep ⊢
  cases hstep with
  | silent hfilter hstate => simp only; omega
  | complete c hfilter hstate => exact hstate.ge

/-- The repeat filter changes at the end of a frame only. -/
theorem counts_decode (b : Board) : Counts (decode b) sameCode Decoder.filter := by
  intro s gap
  have hstep := stepTo_decode b s gap
  generalize decode b s gap = r at hstep ⊢
  cases hstep with
  | silent hfilter _ =>
      rw [hfilter]
      exact RepeatFilter.Step.silent
  | complete c hfilter _ =>
      rw [hfilter]
      exact RepeatFilter.Step.complete c

/-! ## Code words -/

inductive Word : Bool → List ℕ → Prop
  | one {d : ℕ} (hlo : min3Period < d) (hhi : d ≤ max3Period) : Word true [d]
  | zero {d e : ℕ} (hd : min1Period ≤ d) (hd' : d ≤ min3Period) (he : min1Period ≤ e)
      (he' : e ≤ min3Period) : Word false [d, e]

def pushBit (k : ℕ) (c : Code) (bit : Bool) : Code :=
  if k < 16 then storeAddress bit.toNat c else storeUnit bit.toNat c

def InFrame (f : RepeatFilter Code) (k : ℕ) (c : Code) (s : Decoder) : Prop :=
  s.state = 2 * k ∧ s.receivedCode = c ∧ s.filter = f

variable {b : Board} {f : RepeatFilter Code} {k : ℕ} {c : Code} {s : Decoder} {bit : Bool}
  {w : List ℕ}

/-- Within a frame the handler is `decodeBit` on the field of the current bit. -/
theorem decode_eq {gap j : ℕ} (hs : s.state = j) (hj : j < 46)
    (hlo : min1Period ≤ gap) (hhi : gap ≤ max3Period) :
    decode b s gap = decodeBit (if j < 32 then storeAddress else storeUnit) s gap := by
  have hu : b.uint gap = gap := b.uint_of_lt (by unfold max3Period at hhi; omega)
  have hpass : ¬(0 ≤ s.state ∧ (gap < min1Period ∨ max3Period < gap)) := by omega
  have hne : s.state ≠ -1 := by omega
  rw [decode, if_neg hpass]
  simp only [hu, if_neg hne]
  by_cases h32 : j < 32
  · rw [if_pos (by omega), if_pos h32]
  · rw [if_neg (by omega), if_pos (by omega), if_neg h32]

/-- Both halves of a bit lie in the field that the bit belongs to. -/
theorem store_eq {j : ℕ} (hj : j = 2 * k ∨ j = 2 * k + 1) :
    (if j < 32 then storeAddress else storeUnit) bit.toNat c = pushBit k c bit := by
  unfold pushBit
  by_cases h : k < 16
  · rw [if_pos h, if_pos (by omega)]
  · rw [if_neg h, if_neg (by omega)]

/-- A long pulse at the start of a bit is the whole bit. -/
theorem decode_long (hk : k < 23) (hstate : s.state = 2 * k) {d : ℕ} (hlo : min3Period < d)
    (hhi : d ≤ max3Period) :
    decode b s d = close { s with
      state := s.state + 1 + 1, receivedBit := 1,
      receivedCode := pushBit k s.receivedCode true } := by
  have hmin : min1Period ≤ d := by unfold min1Period min3Period at *; omega
  rw [decode_eq (j := 2 * k) (by simpa using hstate) (by omega) hmin hhi, decodeBit,
    if_pos hlo, ← store_eq (Or.inl rfl)]
  rfl

/-- The first short pulse of a bit only clears `receivedBit`. -/
theorem decode_first (hk : k < 23) (hstate : s.state = 2 * k) {d : ℕ} (hlo : min1Period ≤ d)
    (hhi : d ≤ min3Period) :
    decode b s d = ({ s with state := s.state + 1, receivedBit := 0 }, none) := by
  have hmax : d ≤ max3Period := by unfold min3Period max3Period at *; omega
  rw [decode_eq (j := 2 * k) (by simpa using hstate) (by omega) hlo hmax, decodeBit,
    if_neg (by omega), if_neg (by omega), advance, close, if_neg (by simp; omega)]

/-- The second one is in an odd state, which stores the bit. -/
theorem decode_second (hk : k < 23) (hstate : s.state = 2 * k + 1) (hbit : s.receivedBit = 0)
    {d : ℕ} (hlo : min1Period ≤ d) (hhi : d ≤ min3Period) :
    decode b s d = close { s with
      state := s.state + 1, receivedBit := 0,
      receivedCode := pushBit k s.receivedCode false } := by
  have hmax : d ≤ max3Period := by unfold min3Period max3Period at *; omega
  rw [decode_eq (j := 2 * k + 1) (by simpa using hstate) (by omega) hlo hmax, decodeBit,
    if_neg (by omega), if_pos (by omega), if_neg (by rw [hbit]; decide), hbit,
    ← store_eq (Or.inr rfl)]
  rfl

/-- The pulses of one bit, up to the test for the end of the frame. -/
theorem run_word (hk : k < 23) (hs : InFrame f k c s) (hw : Word bit w) :
    ∃ s', InFrame f (k + 1) (pushBit k c bit) s' ∧
      Mealy.final (decode b) s w = (close s').1 ∧
      Mealy.events (decode b) s w = (close s').2.toList := by
  rcases hs with ⟨hstate, rfl, rfl⟩
  have hstate' : s.state + 1 + 1 = 2 * ((k + 1 : ℕ) : ℤ) := by push_cast; omega
  cases hw with
  | @one d hlo hhi =>
      refine ⟨{ s with
        state := s.state + 1 + 1, receivedBit := 1,
        receivedCode := pushBit k s.receivedCode true }, ⟨hstate', rfl, rfl⟩, ?_⟩
      rw [Mealy.final_cons, Mealy.events_cons, decode_long hk hstate hlo hhi]
      exact ⟨rfl, List.append_nil _⟩
  | @zero d e hd hd' he he' =>
      have hodd : s.state + 1 = 2 * (k : ℤ) + 1 := by rw [hstate]
      have hsecond := decode_second (b := b) (s := { s with state := s.state + 1, receivedBit := 0 })
        hk hodd rfl he he'
      refine ⟨{ s with
        state := s.state + 1 + 1, receivedBit := 0,
        receivedCode := pushBit k s.receivedCode false }, ⟨hstate', rfl, rfl⟩, ?_⟩
      rw [Mealy.final_cons, Mealy.events_cons, decode_first hk hstate hd hd', Mealy.final_cons,
        Mealy.events_cons, hsecond]
      exact ⟨rfl, List.append_nil _⟩

theorem run_word_inner (hk : k < 22) (hs : InFrame f k c s) (hw : Word bit w) :
    InFrame f (k + 1) (pushBit k c bit) (Mealy.final (decode b) s w) ∧
      Mealy.events (decode b) s w = [] := by
  rcases run_word (b := b) (by omega) hs hw with ⟨s', hs', hfinal, hevents⟩
  have hclose : close s' = (s', none) := if_neg (by have := hs'.1; omega)
  rw [hfinal, hevents, hclose]
  exact ⟨hs', rfl⟩

def Finished (f : RepeatFilter Code) (c : Code) (s : Decoder) : Prop :=
  s.state = -1 ∧ s.filter = f.count sameCode c

theorem run_word_last (hs : InFrame f 22 c s) (hw : Word bit w) :
    Finished f (pushBit 22 c bit) (Mealy.final (decode b) s w) ∧
      Mealy.events (decode b) s w =
        [(f.count sameCode (pushBit 22 c bit)).completion (pushBit 22 c bit)] := by
  rcases run_word (b := b) (by omega) hs hw with ⟨s', ⟨hstate, hcode, hfilter⟩, hfinal, hevents⟩
  have hclose : close s' = ({ s'.reset with filter := s'.filter.count sameCode s'.receivedCode },
      some ((s'.filter.count sameCode s'.receivedCode).completion s'.receivedCode)) :=
    if_pos (by rw [hstate]; rfl)
  rw [hfinal, hevents, hclose, hcode, hfilter]
  exact ⟨⟨rfl, rfl⟩, rfl⟩

/-! ## Frames -/

def frameCode (bs : List Bool) : Code :=
  { address := ofBits (bs.take 16), unit := ofBits (bs.drop 16), level := 1 }

theorem foldlIdx_pushBit {bs : List Bool} (h : bs.length = 23) :
    bs.foldlIdx pushBit { address := 0, unit := 0, level := 1 } = frameCode bs := by
  have hlen : bs.length - 16 = 7 := by rw [h]
  refine foldlIdx_two_registers (g := fun a u => ({ address := a, unit := u, level := 1 } : Code))
    (m := 2 ^ 32) (l := 2 ^ 16) (by rw [h]; decide) ?_ ?_ (by decide) (by rw [hlen]; decide)
  · intro k hk a u bit
    exact if_pos hk
  · intro k hk a u bit
    exact if_neg (Nat.not_lt.2 hk)

/-- After an accepted start pulse the decoder is in state 0 with an empty code. -/
theorem decode_start (hs : s.state = -1) {gap : ℕ} (hlo : 440 < b.uint gap)
    (hhi : b.uint gap < 600) :
    InFrame s.filter 0 { address := 0, unit := 0, level := 1 } (decode b s gap).1 ∧
      (decode b s gap).2 = none := by
  have hstart : decode b s gap = ({ s with
      state := 0, receivedBit := 0, receivedCode := { address := 0, unit := 0, level := 1 } },
      none) := by
    rw [decode, if_neg (by omega)]
    simp only [if_pos hs, if_pos (And.intro hlo hhi)]
    simp [advance, close, hs]
  rw [hstart]
  exact ⟨⟨rfl, rfl, rfl⟩, rfl⟩

/-- Without a start pulse nothing happens in state -1. -/
theorem decode_idle (hs : s.state = -1) {gap : ℕ} (h : ¬(440 < b.uint gap ∧ b.uint gap < 600)) :
    decode b s gap = (s, none) := by
  rw [decode, if_neg (by omega)]
  simp only [if_pos hs, if_neg h]

/-- A start pulse and the code words of 23 bits complete a frame. -/
theorem run_frame (hs : s.state = -1) {gap : ℕ} (hlo : 440 < b.uint gap) (hhi : b.uint gap < 600)
    {bs : List Bool} {ws : List (List ℕ)} (hbs : bs.length = 23) (hws : List.Forall₂ Word bs ws) :
    Finished s.filter (frameCode bs) (Mealy.final (decode b) s (gap :: ws.flatten)) ∧
      Mealy.events (decode b) s (gap :: ws.flatten) =
        [(s.filter.count sameCode (frameCode bs)).completion (frameCode bs)] := by
  rcases decode_start hs hlo hhi with ⟨hstart, hquiet⟩
  have hne : bs ≠ [] := by
    rintro rfl
    exact absurd hbs (by decide)
  rcases Mealy.run_frame (R := InFrame s.filter) (Q := Finished s.filter)
      (e := fun c => [(s.filter.count sameCode c).completion c]) (W := Word)
      (fun k c s' bit w hk h hw => run_word_inner hk h hw)
      (fun c s' bit w h hw => run_word_last h hw) hstart hws hne (by omega) with
    ⟨hdone, hout⟩
  rw [foldlIdx_pushBit hbs] at hdone hout
  rw [Mealy.final_cons, Mealy.events_cons, hquiet, hout]
  exact ⟨hdone, rfl⟩

end Livolo
end LamPI
