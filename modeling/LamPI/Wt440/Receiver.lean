import LamPI.Receiver
import LamPI.Library.Scanner

/-!
# WT440 receiver — `wt440Receiver.cpp`

`_state` counts half bits: a long pulse moves it by two, a short one by one.  A frame has no sync
pulse; it starts with the leader `1100`, four short pulses and two long ones.  Durations are
`uint16_t` on both cores.
-/

namespace LamPI
namespace Wt440

/-- `wt440Code`; `par` only ever holds 0 or 1. -/
structure Code where
  sync : ℕ
  address : ℕ
  channel : ℕ
  wconst : ℕ
  temperature : ℤ
  humidity : ℕ
  par : Bool
  deriving DecidableEq, Repr

structure Decoder where
  state : ℤ
  skip : Bool
  receivedBit : Bool
  receivedCode : Code
  filter : RepeatFilter Code
  deriving DecidableEq, Repr

def min1period : ℕ := 700
def max1period : ℕ := 1500
def min2period : ℕ := 1500
def max2period : ℕ := 2400

def Decoder.reset (s : Decoder) : Decoder := { s with state := -1 }

/-- The comparison of `receivedCode` with `previousCode`; it leaves `wconst` out. -/
def sameCode (c d : Code) : Bool :=
  c.sync == d.sync && c.address == d.address && c.channel == d.channel &&
    c.temperature == d.temperature && c.humidity == d.humidity && c.par == d.par

/-- The end of the handler: from state 72 on the frame is complete.  The parity warning is left
out: it compares `receivedCode` with the copy just made of it and never fires. -/
def close (s : Decoder) : Decoder × Option (Completion Code) :=
  -- the next repetition starts at 0, unless these were enough
  if 72 ≤ s.state then
    let filter := s.filter.count sameCode s.receivedCode
    ({ s with filter := filter, state := if filter.reached then -1 else 0 },
      some (filter.completion s.receivedCode))
  else (s, none)

def advance (s : Decoder) : Decoder × Option (Completion Code) :=
  close { s with state := s.state + 1 }

/-! ## The fields -/

/-- What the first bits of the leader do: `sync << 1 + 1` shifts by two. -/
def storeStart (c : Code) : Code := { c with sync := c.sync <<< (1 + 1) % 256, par := !c.par }

def storeSync (c : Code) : Code := { c with sync := c.sync <<< 1 % 256 }

def storeAddress (bit : Bool) (c : Code) : Code :=
  { c with address := (c.address * 2 + bit.toNat) % 256, par := c.par ^^ bit }

def storeChannel (bit : Bool) (c : Code) : Code :=
  { c with channel := (c.channel * 2 + bit.toNat) % 256, par := c.par ^^ bit }

/-- The constant inverts the parity at every bit, whatever the bit is. -/
def storeWconst (bit : Bool) (c : Code) : Code :=
  { c with wconst := (c.wconst * 2 + bit.toNat) % 256, par := c.par ^^ true }

def storeHumidity (bit : Bool) (c : Code) : Code :=
  { c with humidity := (c.humidity * 2 + bit.toNat) % 256, par := c.par ^^ bit }

def storeTemperature (bit : Bool) (c : Code) : Code :=
  { c with
    temperature := Int.bmod (c.temperature * 2 + bit.toNat) 65536, par := c.par ^^ bit }

def storePar (bit : Bool) (c : Code) : Code := { c with par := c.par ^^ bit }

/-- The address states, which leave `receivedBit` alone. -/
def decodeAddress (s : Decoder) (duration : ℕ) : Decoder × Option (Completion Code) :=
  if max1period < duration then
    advance { s with state := s.state + 1, receivedCode := storeAddress false s.receivedCode }
  else if s.state % 2 = 1 then
    advance { s with receivedCode := storeAddress true s.receivedCode }
  else advance s

/-- The body shared by the states from the channel on. -/
def decodeField (store : Bool → Code → Code) (s : Decoder) (duration : ℕ) :
    Decoder × Option (Completion Code) :=
  -- a long interval is a 0, of two half bits
  let s' := if max1period < duration then { s with state := s.state + 1, receivedBit := false }
    else { s with receivedBit := true }
  -- the second half bit stores the bit
  if s'.state % 2 = 1 then
    advance { s' with receivedCode := store s'.receivedBit s'.receivedCode }
  else advance s'

def decodeState (s : Decoder) (duration : ℕ) : Decoder × Option (Completion Code) :=
  if s.state < 4 then
    if max1period < duration then (s.reset, none)
    else if s.state % 2 = 1 then advance { s with receivedCode := storeStart s.receivedCode }
    else advance s
  else if s.state < 8 then
    if duration < min2period ∨ max2period < duration then (s.reset, none)
    else advance { s with state := s.state + 1, receivedCode := storeSync s.receivedCode }
  else if s.state < 16 then decodeAddress s duration
  else if s.state < 20 then decodeField storeChannel s duration
  else if s.state < 26 then decodeField storeWconst s duration
  else if s.state < 40 then decodeField storeHumidity s duration
  else if s.state < 70 then decodeField storeTemperature s duration
  else if s.state < 72 then decodeField storePar s duration
  else (s.reset, none)

def emptyCode : Code :=
  { sync := 1, address := 0, channel := 0, wconst := 0, temperature := 0, humidity := 0,
    par := false }

/-- `wt440Receiver::interruptHandler` from the filter on; `gap` is
`edgeTimeStamp[2] - edgeTimeStamp[1]`. -/
def decode (s : Decoder) (gap : ℕ) : Decoder × Option (Completion Code) :=
  if s.skip then ({ s with skip := false }, none)
  -- a spike
  else if 0 ≤ s.state ∧ gap < min1period then (s.reset, none)
  else
    let duration := gap % 65536
    -- a pause
    if max2period < duration then (s.reset, none)
    else if s.state = -1 then
      -- the first half bit of the leader
      if min1period < duration ∧ duration < max1period then
        advance { s with state := s.state + 1, receivedCode := emptyCode }
      else (s, none)
    else decodeState s duration

abbrev State := Sampled Decoder

def interruptHandler : State → ℕ → State × Option (Completion Code) := Sampled.onEdge decode

/-- The static variables after `wt440Receiver::init(_, minRepeats, _)`, the last edge having been
seen at `edge2`. -/
def init (minRepeats : ℕ) (edge2 : ULong) : State :=
  { enabled := true
    edge2 := edge2
    decoder :=
      { state := -1
        skip := false
        receivedBit := false
        receivedCode := { emptyCode with sync := 0 }
        filter :=
          { minRepeats := minRepeats
            inCallback := false
            previousCode := { emptyCode with sync := 0 }
            repeats := 0 } } }

/-! ## What one interval can do -/

def Short (gap : ℕ) : Prop := min1period ≤ gap ∧ gap % 65536 ≤ max1period

def Long (gap : ℕ) : Prop := max1period < gap % 65536 ∧ gap % 65536 ≤ max2period

/-- An interval that the end of the leader takes for a long pulse. -/
def SyncPulse (gap : ℕ) : Prop := min2period ≤ gap % 65536 ∧ gap % 65536 ≤ max2period

/-- The intervals that an idle decoder takes for the first pulse of a frame. -/
def First (gap : ℕ) : Prop := min1period < gap % 65536 ∧ gap % 65536 < max1period

def halfBits (position : ℤ) (duration : ℕ) : ℤ :=
  if position < 4 then 1 else if position < 8 then 2 else if max1period < duration then 2 else 1

def Accepts (position : ℤ) (duration : ℕ) : Prop :=
  duration ≤ max2period ∧ (position < 4 → duration ≤ max1period) ∧
    (4 ≤ position → position < 8 → min2period ≤ duration)

def Takes (state : ℤ) (gap : ℕ) : Prop :=
  if state = -1 then First gap else min1period ≤ gap ∧ Accepts state (gap % 65536)

instance (state : ℤ) (gap : ℕ) : Decidable (Takes state gap) := by
  unfold Takes First Accepts
  infer_instance

/-- How far a decoder is into a frame: waiting counts as 0. -/
def position (state : ℤ) : ℤ := max state 0

def next (state : ℤ) (gap : ℕ) : Scanner.Move ℤ :=
  if Takes state gap then
    if 72 ≤ position state + halfBits (position state) (gap % 65536) then .done
    else .go (position state + halfBits (position state) (gap % 65536))
  else .abort

theorem Takes.accepts {state : ℤ} {gap : ℕ} (h : Takes state gap) (hs : -1 ≤ state) :
    Accepts (position state) (gap % 65536) := by
  unfold Takes at h
  unfold position
  split at h
  · rename_i hidle
    have hmax := h.2
    unfold max1period at hmax
    unfold Accepts max1period max2period
    refine ⟨by omega, fun _ => by omega, by omega⟩
  · rw [max_eq_left (by omega)]
    exact h.2

theorem takes_iff_accepts {state : ℤ} {gap : ℕ} (hs : 0 ≤ state) (hgap : min1period ≤ gap) :
    Takes state gap ↔ Accepts state (gap % 65536) := by
  rw [Takes, if_neg (by omega)]
  exact and_iff_right hgap

theorem Short.le_max2period {gap : ℕ} (h : Short gap) : gap % 65536 ≤ max2period :=
  h.2.trans (by decide)

theorem Long.min1period_le {gap : ℕ} (h : Long gap) : min1period ≤ gap := by
  have hmax : max1period < gap := h.1.trans_le (Nat.mod_le _ _)
  exact hmax.le.trans' (by decide)

theorem Long.sync {gap : ℕ} (h : Long gap) : SyncPulse gap :=
  ⟨(show min2period ≤ max1period from by decide).trans h.1.le, h.2⟩

theorem SyncPulse.min1period_le {gap : ℕ} (h : SyncPulse gap) : min1period ≤ gap :=
  (show min1period ≤ min2period from by decide).trans (h.1.trans (Nat.mod_le _ _))

theorem close_of_lt {s : Decoder} (h : s.state < 72) : close s = (s, none) :=
  if_neg (Int.not_le.2 h)

inductive StepTo (s : Decoder) : Scanner.Move ℤ → Decoder × Option (Completion Code) → Prop
  | abort {s' : Decoder} (hskip : s'.skip = s.skip) (hfilter : s'.filter = s.filter)
      (hstate : s'.state = -1) : StepTo s .abort (s', none)
  | go {s' : Decoder} (hskip : s'.skip = s.skip) (hfilter : s'.filter = s.filter) :
      StepTo s (.go s'.state) (s', none)
  | done {s' : Decoder} (c : Code) (hskip : s'.skip = s.skip)
      (hfilter : s'.filter = s.filter.count sameCode c) (hstate : s'.state = -1 ∨ s'.state = 0) :
      StepTo s .done (s', some ((s.filter.count sameCode c).completion c))

theorem StepTo.reset {s s' : Decoder} {gap : ℕ} (h : ¬Takes s.state gap)
    (hskip : s'.skip = s.skip) (hfilter : s'.filter = s.filter) (hstate : s'.state = -1) :
    StepTo s (next s.state gap) (s', none) := by
  rw [next, if_neg h]
  exact StepTo.abort hskip hfilter hstate

theorem StepTo.close {s t : Decoder} {gap : ℕ} (h : Takes s.state gap) (hskip : t.skip = s.skip)
    (hfilter : t.filter = s.filter)
    (hstate : t.state = position s.state + halfBits (position s.state) (gap % 65536)) :
    StepTo s (next s.state gap) (close t) := by
  rw [next, if_pos h, ← hstate, Wt440.close]
  split
  · simp only [hfilter]
    refine StepTo.done _ hskip rfl ?_
    cases (s.filter.count sameCode t.receivedCode).reached
    · exact Or.inr rfl
    · exact Or.inl rfl
  · exact StepTo.go hskip hfilter

/-- From state 8 on an interval moves the state by its half bits, whatever the field. -/
theorem decodeField_advance (store : Bool → Code → Code) (s : Decoder) (duration : ℕ) :
    ∃ t : Decoder, decodeField store s duration = close t ∧ t.skip = s.skip ∧
      t.filter = s.filter ∧ t.state = s.state + (if max1period < duration then 2 else 1) := by
  unfold decodeField advance
  by_cases hlong : max1period < duration
  · -- both increments come before the test for the end of the frame
    simp only [if_pos hlong]
    split
    · exact ⟨_, rfl, rfl, rfl, by simp only; omega⟩
    · exact ⟨_, rfl, rfl, rfl, by simp only; omega⟩
  · simp only [if_neg hlong]
    split
    · exact ⟨_, rfl, rfl, rfl, rfl⟩
    · exact ⟨_, rfl, rfl, rfl, rfl⟩

theorem decodeAddress_advance (s : Decoder) (duration : ℕ) :
    ∃ t : Decoder, decodeAddress s duration = close t ∧ t.skip = s.skip ∧
      t.filter = s.filter ∧ t.state = s.state + (if max1period < duration then 2 else 1) := by
  unfold decodeAddress advance
  by_cases hlong : max1period < duration
  · simp only [if_pos hlong]
    exact ⟨_, rfl, rfl, rfl, by simp only; omega⟩
  · simp only [if_neg hlong]
    split
    · exact ⟨_, rfl, rfl, rfl, rfl⟩
    · exact ⟨_, rfl, rfl, rfl, rfl⟩

/-- The first half of the leader takes short pulses only. -/
theorem stepTo_start {s : Decoder} {gap : ℕ} (hs : 0 ≤ s.state) (h4 : s.state < 4)
    (hgap : min1period ≤ gap) (hmax : gap % 65536 ≤ max2period) :
    StepTo s (next s.state gap) (decodeState s (gap % 65536)) := by
  have htakes := takes_iff_accepts hs hgap
  rw [decodeState, if_pos h4]
  by_cases hlong : max1period < gap % 65536
  · rw [if_pos hlong]
    refine StepTo.reset (fun h => ?_) rfl rfl rfl
    exact absurd ((htakes.1 h).2.1 h4) (Nat.not_le.2 hlong)
  · have haccept : Accepts s.state (gap % 65536) := ⟨hmax, fun _ => by omega, by omega⟩
    have hhalf : s.state + 1 = position s.state + halfBits (position s.state) (gap % 65536) := by
      rw [show position s.state = s.state from max_eq_left hs, halfBits, if_pos h4]
    rw [if_neg hlong]
    split
    · exact StepTo.close (htakes.2 haccept) rfl rfl hhalf
    · exact StepTo.close (htakes.2 haccept) rfl rfl hhalf

/-- The second half takes long pulses only. -/
theorem stepTo_sync {s : Decoder} {gap : ℕ} (h4 : 4 ≤ s.state) (h8 : s.state < 8)
    (hgap : min1period ≤ gap) (hmax : gap % 65536 ≤ max2period) :
    StepTo s (next s.state gap) (decodeState s (gap % 65536)) := by
  have hs : 0 ≤ s.state := by omega
  have htakes := takes_iff_accepts hs hgap
  rw [decodeState, if_neg (by omega), if_pos h8]
  by_cases hshort : gap % 65536 < min2period ∨ max2period < gap % 65536
  · rw [if_pos hshort]
    refine StepTo.reset (fun h => ?_) rfl rfl rfl
    rcases hshort with hshort | hshort
    · exact absurd ((htakes.1 h).2.2 h4 h8) (Nat.not_le.2 hshort)
    · exact absurd hmax (Nat.not_le.2 hshort)
  · have haccept : Accepts s.state (gap % 65536) := ⟨hmax, by omega, fun _ _ => by omega⟩
    have hhalf : s.state + 1 + 1 =
        position s.state + halfBits (position s.state) (gap % 65536) := by
      rw [show position s.state = s.state from max_eq_left hs, halfBits, if_neg (by omega),
        if_pos h8, add_assoc]
      rfl
    rw [if_neg hshort]
    exact StepTo.close (htakes.2 haccept) rfl rfl hhalf

/-- The fields take both. -/
theorem stepTo_field {s : Decoder} {gap : ℕ} {r : Decoder × Option (Completion Code)}
    (h8 : 8 ≤ s.state) (hgap : min1period ≤ gap) (hmax : gap % 65536 ≤ max2period)
    (h : ∃ t : Decoder, r = close t ∧ t.skip = s.skip ∧ t.filter = s.filter ∧
      t.state = s.state + (if max1period < gap % 65536 then 2 else 1)) :
    StepTo s (next s.state gap) r := by
  have hs : 0 ≤ s.state := by omega
  rcases h with ⟨t, rfl, hskip, hfilter, hstate⟩
  have haccept : Accepts s.state (gap % 65536) := ⟨hmax, by omega, by omega⟩
  have hhalf : halfBits (position s.state) (gap % 65536) =
      if max1period < gap % 65536 then 2 else 1 := by
    rw [show position s.state = s.state from max_eq_left hs]
    unfold halfBits
    rw [if_neg (Int.not_lt.2 (h8.trans' (by decide))), if_neg (Int.not_lt.2 h8)]
  refine StepTo.close ((takes_iff_accepts hs hgap).2 haccept) hskip hfilter ?_
  rw [hstate, hhalf, show position s.state = s.state from max_eq_left hs]

theorem stepTo_decodeState {s : Decoder} {gap : ℕ} (hs : 0 ≤ s.state) (hs' : s.state < 72)
    (hgap : min1period ≤ gap) (hmax : gap % 65536 ≤ max2period) :
    StepTo s (next s.state gap) (decodeState s (gap % 65536)) := by
  by_cases h4 : s.state < 4
  · exact stepTo_start hs h4 hgap hmax
  · by_cases h8 : s.state < 8
    · exact stepTo_sync (by omega) h8 hgap hmax
    · refine stepTo_field (by omega) hgap hmax ?_
      rw [decodeState, if_neg h4, if_neg h8]
      -- one case per field
      split
      · exact decodeAddress_advance s _
      · split
        · exact decodeField_advance _ s _
        · split
          · exact decodeField_advance _ s _
          · split
            · exact decodeField_advance _ s _
            · split
              · exact decodeField_advance _ s _
              · exact decodeField_advance _ s _

def Decoder.Running (s : Decoder) : Prop := s.skip = false ∧ -1 ≤ s.state ∧ s.state < 72

theorem init_running (minRepeats : ℕ) (edge2 : ULong) :
    (init minRepeats edge2).decoder.Running :=
  ⟨rfl, le_refl (-1 : ℤ), (by decide : (-1 : ℤ) < 72)⟩

theorem Decoder.reset_running {s : Decoder} (h : s.Running) : s.reset.Running :=
  ⟨h.1, le_refl (-1 : ℤ), (by decide : (-1 : ℤ) < 72)⟩

/-- The handler moves as `next` says. -/
theorem stepTo_decode {s : Decoder} (gap : ℕ) (h : s.Running) :
    StepTo s (next s.state gap) (decode s gap) := by
  rcases h with ⟨hskip, hlo, hhi⟩
  unfold decode
  rw [if_neg (by simp [hskip])]
  by_cases htooShort : 0 ≤ s.state ∧ gap < min1period
  · -- a spike; the state is not -1, so that it has to be a half bit
    rw [if_pos htooShort]
    refine StepTo.reset (fun htakes => ?_) rfl rfl rfl
    rw [Takes, if_neg (by omega)] at htakes
    omega
  · rw [if_neg htooShort]
    simp only
    by_cases htooLong : max2period < gap % 65536
    -- too long for any position
    · rw [if_pos htooLong]
      exact StepTo.reset (fun htakes => absurd (htakes.accepts hlo).1 (Nat.not_le.2 htooLong))
        rfl rfl rfl
    · rw [if_neg htooLong]
      by_cases hidle : s.state = -1
      · rw [if_pos hidle]
        have htakes : Takes s.state gap ↔ First gap := by rw [Takes, if_pos hidle]
        split
        · rename_i hfirst
          refine StepTo.close (htakes.2 hfirst) rfl rfl ?_
          rw [hidle]
          rfl
        · rename_i hfirst
          exact StepTo.reset (fun h => hfirst (htakes.1 h)) rfl rfl hidle
      · rw [if_neg hidle]
        exact stepTo_decodeState (by omega) hhi (by omega) (by omega)

theorem halfBits_pos (p : ℤ) (duration : ℕ) : 0 < halfBits p duration := by
  unfold halfBits
  split
  · decide
  · split
    · decide
    · split <;> decide

theorem next_go {state q : ℤ} {gap : ℕ} (h : next state gap = .go q) :
    Takes state gap ∧ q = position state + halfBits (position state) (gap % 65536) ∧ q < 72 := by
  unfold next at h
  split at h
  · rename_i htakes
    split at h
    · cases h
    · injection h with hq
      exact ⟨htakes, hq.symm, by omega⟩
  · cases h

theorem next_done {state : ℤ} {gap : ℕ} (h : next state gap = .done) :
    Takes state gap ∧ 72 ≤ position state + halfBits (position state) (gap % 65536) := by
  unfold next at h
  split at h
  · rename_i htakes
    split at h
    · rename_i hle
      exact ⟨htakes, hle⟩
    · cases h
  · cases h

/-- Between frames the decoder waits, or counts on from a frame just completed. -/
def Start (state : ℤ) : Prop := state = -1 ∨ state = 0

theorem tracks_decode : Scanner.Tracks next Start decode Decoder.state Decoder.Running := by
  have hstep : ∀ s gap, s.Running → ∃ m, next s.state gap = m ∧ StepTo s m (decode s gap) :=
    fun s gap h => ⟨_, rfl, stepTo_decode gap h⟩
  refine ⟨?_, ?_, ?_, ?_⟩
  · intro s gap h
    rcases hstep s gap h with ⟨m, hm, hto⟩
    rcases h with ⟨hskip, hlo, hhi⟩
    -- the position stays below 72
    generalize decode s gap = r at hto ⊢
    cases hto with
    | abort hskip' hfilter hstate => exact ⟨hskip'.trans hskip, by simp [hstate], by simp [hstate]⟩
    | @go s' hskip' hfilter =>
        rcases next_go hm with ⟨-, hq, hlt⟩
        have hpos := halfBits_pos (position s.state) (gap % 65536)
        have hnonneg : 0 ≤ position s.state := le_max_right _ _
        have hlo' : -1 ≤ s'.state := by omega
        exact ⟨hskip'.trans hskip, hlo', hlt⟩
    | done c hskip' hfilter hstate =>
        refine ⟨hskip'.trans hskip, ?_, ?_⟩
        · rcases hstate with hstate | hstate <;> simp [hstate]
        · rcases hstate with hstate | hstate <;> simp [hstate]
  · intro s gap h hm
    have hto := stepTo_decode gap h
    rw [hm] at hto
    generalize decode s gap = r at hto ⊢
    cases hto with
    | abort hskip' hfilter hstate => exact ⟨Or.inl hstate, rfl⟩
  · intro s gap q h hm
    have hto := stepTo_decode gap h
    rcases next_go hm with ⟨-, hq, -⟩
    have hpos := halfBits_pos (position s.state) (gap % 65536)
    have hnonneg : 0 ≤ position s.state := le_max_right _ _
    -- a position that has moved on is none of the two that begin a frame
    have hstart : ¬Start q := by
      rintro (h' | h') <;> omega
    rw [hm] at hto
    generalize decode s gap = r at hto ⊢
    cases hto with
    | go hskip' hfilter => exact ⟨hstart, rfl, rfl⟩
  · intro s gap h hm
    have hto := stepTo_decode gap h
    rw [hm] at hto
    generalize decode s gap = r at hto ⊢
    cases hto with
    | done c hskip' hfilter hstate => exact ⟨hstate, _, rfl⟩

end Wt440
end LamPI
