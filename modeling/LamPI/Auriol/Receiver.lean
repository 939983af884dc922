import LamPI.Receiver
import LamPI.Library.Digits
import LamPI.Library.Scanner

/-!
# Auriol receiver — `auriolReceiver.cpp`

A frame is a sync gap and 32 bits, each a short pulse and a space whose length is the bit.
`_state` counts the intervals after the sync gap: even states expect a pulse, odd ones a space.
-/

namespace LamPI
namespace Auriol

open BigEndian

structure Code where
  address : ℕ
  temperature : ℤ
  humidity : ℤ
  channel : ℕ
  n1 : ℕ
  n2 : ℕ
  csum : ℕ
  deriving DecidableEq, Repr

structure Decoder where
  state : ℤ
  receivedCode : Code
  filter : RepeatFilter Code
  deriving DecidableEq, Repr

def min1period : ℕ := 1800
def max1period : ℕ := 2200
def min2period : ℕ := 3800
def max2period : ℕ := 4200

/-- `RESET_STATE`. -/
def Decoder.reset (s : Decoder) : Decoder := { s with state := -1 }

/-- The comparison of `receivedCode` with `previousCode`; it leaves `n1` and `n2` out. -/
def sameCode (c d : Code) : Bool :=
  c.address == d.address && c.channel == d.channel && c.temperature == d.temperature &&
    c.humidity == d.humidity && c.csum == d.csum

def advance (s : Decoder) : Decoder × Option (Completion Code) :=
  if s.state + 1 = 64 then
    let filter := s.filter.count sameCode s.receivedCode
    -- the state is reset whether or not the callback was called
    ({ s.reset with filter := filter }, some (filter.completion s.receivedCode))
  else ({ s with state := s.state + 1 }, none)

def storeAddress (bit : Bool) (c : Code) : Code :=
  { c with address := (c.address * 2 + bit.toNat) % 2 ^ 32, csum := c.csum ^^^ bit.toNat }

def storeN1 (bit : Bool) (c : Code) : Code :=
  { c with n1 := (c.n1 * 2 + bit.toNat) % 256, csum := c.csum ^^^ bit.toNat }

def storeTemperature (b : Board) (bit : Bool) (c : Code) : Code :=
  { c with
    temperature := Int.bmod (c.temperature * 2 + bit.toNat) (2 ^ b.uintBits)
    csum := c.csum ^^^ bit.toNat }

def storeN2 (bit : Bool) (c : Code) : Code :=
  { c with n2 := (c.n2 * 2 + bit.toNat) % 256, csum := c.csum ^^^ bit.toNat }

def storeCsum (bit : Bool) (c : Code) : Code := { c with csum := c.csum ^^^ bit.toNat }

def emptyCode : Code :=
  { address := 0, temperature := 0, humidity := 0, channel := 0, n1 := 0, n2 := 0, csum := 0 }

/-- `auriolReceiver::interruptHandler`; `gap` is `edgeTimeStamp[2] - edgeTimeStamp[1]`. -/
def decode (b : Board) (s : Decoder) (gap : ℕ) : Decoder × Option (Completion Code) :=
  let duration := b.uint gap
  let bit := decide (min2period < duration)
  if s.state = -1 then
    -- the sync gap
    if 8500 < duration ∧ duration < 10000 then
      advance { s with receivedCode := emptyCode }
    else (s, none)
  else if s.state % 2 = 0 then
    -- the pulse that every bit begins with
    if duration < 350 ∨ 700 < duration then (s.reset, none) else advance s
  -- the gap behind it, in one of two bands
  else if duration < min1period ∨ max2period < duration ∨
      (max1period < duration ∧ duration < min2period) then (s.reset, none)
  -- 8, 4, 12, 7 and 1 bits
  else if s.state < 16 then advance { s with receivedCode := storeAddress bit s.receivedCode }
  else if s.state < 24 then advance { s with receivedCode := storeN1 bit s.receivedCode }
  else if s.state < 48 then
    advance { s with receivedCode := storeTemperature b bit s.receivedCode }
  else if s.state < 62 then advance { s with receivedCode := storeN2 bit s.receivedCode }
  else if s.state < 64 then advance { s with receivedCode := storeCsum bit s.receivedCode }
  else (s.reset, none)

abbrev State := Sampled Decoder

def interruptHandler (b : Board) : State → ℕ → State × Option (Completion Code) :=
  Sampled.onEdge (decode b)

/-- The static variables after `auriolReceiver::init(_, minRepeats, _)`, the last edge having been
seen at `edge2`. -/
def init (minRepeats : ℕ) (edge2 : ULong) : State :=
  { enabled := true
    edge2 := edge2
    decoder :=
      { state := -1
        receivedCode := emptyCode
        filter :=
          { minRepeats := minRepeats, inCallback := false, previousCode := emptyCode,
            repeats := 0 } } }

/-! ## What one interval can do -/

def Sync (b : Board) (gap : ℕ) : Prop := 8500 < b.uint gap ∧ b.uint gap < 10000

def Pulse (b : Board) (gap : ℕ) : Prop := 350 ≤ b.uint gap ∧ b.uint gap ≤ 700

def Space (b : Board) (gap : ℕ) : Prop :=
  min1period ≤ b.uint gap ∧ b.uint gap ≤ max2period ∧
    ¬(max1period < b.uint gap ∧ b.uint gap < min2period)

def bitOf (b : Board) (gap : ℕ) : Bool := decide (min2period < b.uint gap)

def Takes (b : Board) (state : ℤ) (gap : ℕ) : Prop :=
  if state = -1 then Sync b gap else if state % 2 = 0 then Pulse b gap else Space b gap

instance (b : Board) (state : ℤ) (gap : ℕ) : Decidable (Takes b state gap) := by
  unfold Takes Sync Pulse Space
  infer_instance

def next (b : Board) (state : ℤ) (gap : ℕ) : Scanner.Move ℤ :=
  if Takes b state gap then if state + 1 = 64 then .done else .go (state + 1) else .abort

def store (b : Board) (state : ℤ) : Bool → Code → Code :=
  if state < 16 then storeAddress else if state < 24 then storeN1
  else if state < 48 then storeTemperature b else if state < 62 then storeN2 else storeCsum

def received (b : Board) (s : Decoder) (gap : ℕ) : Code :=
  if s.state = -1 then emptyCode else if s.state % 2 = 0 then s.receivedCode
  else store b s.state (bitOf b gap) s.receivedCode

def Decoder.Running (s : Decoder) : Prop := -1 ≤ s.state ∧ s.state < 64

theorem init_running (minRepeats : ℕ) (edge2 : ULong) :
    (init minRepeats edge2).decoder.Running :=
  ⟨le_refl (-1 : ℤ), (by decide : (-1 : ℤ) < 64)⟩

def Start (state : ℤ) : Prop := state = -1

variable {b : Board} {s : Decoder} {gap : ℕ}

theorem decode_takes (h : s.Running) (htakes : Takes b s.state gap) :
    decode b s gap = advance { s with receivedCode := received b s gap } := by
  unfold Takes at htakes
  unfold decode received
  by_cases hidle : s.state = -1
  · rw [if_pos hidle] at htakes
    have hsync : 8500 < b.uint gap ∧ b.uint gap < 10000 := htakes
    simp only [if_pos hidle, if_pos hsync]
  · rw [if_neg hidle] at htakes
    simp only [if_neg hidle]
    by_cases heven : s.state % 2 = 0
    · rw [if_pos heven] at htakes
      -- an accepted pulse passes the width check of the even states
      have hpulse : ¬(b.uint gap < 350 ∨ 700 < b.uint gap) := by
        have := htakes.1
        have := htakes.2
        omega
      simp only [if_pos heven, if_neg hpulse]
    · rw [if_neg heven] at htakes
      -- an accepted gap lies in one of the two bands of the odd states
      have hspace : ¬(b.uint gap < min1period ∨ max2period < b.uint gap ∨
          (max1period < b.uint gap ∧ b.uint gap < min2period)) := by
        rintro (h | h | h)
        · exact absurd htakes.1 (Nat.not_le.2 h)
        · exact absurd htakes.2.1 (Nat.not_le.2 h)
        · exact htakes.2.2 h
      simp only [if_neg heven, if_neg hspace, store, bitOf]
      -- the chain of branches is the one of `store`
      by_cases h16 : s.state < 16
      · simp only [if_pos h16]
      · simp only [if_neg h16]
        by_cases h24 : s.state < 24
        · simp only [if_pos h24]
        · simp only [if_neg h24]
          by_cases h48 : s.state < 48
          · simp only [if_pos h48]
          · simp only [if_neg h48]
            by_cases h62 : s.state < 62
            · simp only [if_pos h62]
            · simp only [if_neg h62, if_pos h.2]

theorem decode_not_takes (htakes : ¬Takes b s.state gap) :
    (decode b s gap).1.state = -1 ∧ (decode b s gap).2 = none := by
  unfold Takes at htakes
  unfold decode
  by_cases hidle : s.state = -1
  · rw [if_pos hidle] at htakes
    -- the two comparisons of each state, negated
    have hsync : ¬(8500 < b.uint gap ∧ b.uint gap < 10000) := htakes
    simp only [if_pos hidle, if_neg hsync]
    exact ⟨hidle, trivial⟩
  · rw [if_neg hidle] at htakes
    simp only [if_neg hidle]
    by_cases heven : s.state % 2 = 0
    · rw [if_pos heven] at htakes
      have hpulse : b.uint gap < 350 ∨ 700 < b.uint gap := by
        by_contra hnot
        exact htakes ⟨by omega, by omega⟩
      simp only [if_pos heven, if_pos hpulse]
      exact ⟨rfl, trivial⟩
    · rw [if_neg heven] at htakes
      have hspace : b.uint gap < min1period ∨ max2period < b.uint gap ∨
          (max1period < b.uint gap ∧ b.uint gap < min2period) := by
        by_contra hnot
        exact htakes ⟨by omega, by omega, by omega⟩
      simp only [if_neg heven, if_pos hspace]
      exact ⟨rfl, trivial⟩

theorem tracks_decode (b : Board) :
    Scanner.Tracks (next b) Start (decode b) Decoder.state Decoder.Running := by
  refine ⟨?_, ?_, ?_, ?_⟩
  · intro s gap h
    -- `_state` stays between -1 and 64
    by_cases htakes : Takes b s.state gap
    · rw [decode_takes h htakes, advance]
      split
      · exact ⟨le_refl (-1 : ℤ), (by decide : (-1 : ℤ) < 64)⟩
      · rename_i hnot
        have hlo : -1 ≤ s.state + 1 := by have := h.1; omega
        have hhi : s.state + 1 < 64 := by have := h.2; simp only at hnot; omega
        exact ⟨hlo, hhi⟩
    · have hstate := (decode_not_takes htakes).1
      exact ⟨hstate.ge, by omega⟩
  · intro s gap h hnext
    have htakes : ¬Takes b s.state gap := by
      intro htakes
      rw [next, if_pos htakes] at hnext
      split at hnext <;> cases hnext
    exact decode_not_takes htakes
  · intro s gap q h hnext
    unfold next at hnext
    split at hnext
    · rename_i htakes
      split at hnext
      · cases hnext
      · rename_i hnot
        injection hnext with hq
        -- a state that has moved on is not the one that waits for a sync gap
        have hstart : ¬Start q := by
          intro hq'
          have := h.1
          unfold Start at hq'
          omega
        rw [decode_takes h htakes, advance, if_neg hnot]
        exact ⟨hstart, hq, rfl⟩
    · cases hnext
  · intro s gap h hnext
    unfold next at hnext
    split at hnext
    · rename_i htakes
      split at hnext
      -- the frame is complete after the state 63
      · rename_i hend
        rw [decode_takes h htakes, advance, if_pos hend]
        exact ⟨rfl, _, rfl⟩
      · cases hnext
    · cases hnext

/-! ## Code words -/

inductive Word (b : Board) : Bool → List ℕ → Prop
  | bit {p d : ℕ} (hp : Pulse b p) (hd : Space b d) : Word b (bitOf b d) [p, d]

variable {k : ℕ} {bit : Bool} {w : List ℕ}

/-- The two intervals of a bit lead to the next even state, or to the end of the frame. -/
theorem word_completes (hk : k < 32) (hw : Word b bit w) (rest : List ℕ) :
    Scanner.Completes (next b) (2 * k : ℕ) (w ++ rest) ↔
      if k = 31 then rest = [] else Scanner.Completes (next b) (2 * (k + 1) : ℕ) rest := by
  cases hw with
  | @bit p d hp hd =>
      -- the pulse of the bit moves on
      have hpulse : next b (2 * k : ℕ) p = .go ((2 * k : ℕ) + 1) := by
        have htakes : Takes b (2 * k : ℕ) p := by
          rw [Takes, if_neg (by omega), if_pos (by omega)]
          exact hp
        rw [next, if_pos htakes, if_neg (by omega)]
      have htakes : Takes b ((2 * k : ℕ) + 1) d := by
        rw [Takes, if_neg (by omega), if_neg (by omega)]
        exact hd
      rw [List.cons_append, List.cons_append, List.nil_append,
        Scanner.completes_cons_go hpulse]
      by_cases hlast : k = 31
      -- behind the last bit the frame is complete
      · have hdone : next b ((2 * k : ℕ) + 1) d = .done := by
          rw [next, if_pos htakes, if_pos (by omega)]
        rw [Scanner.completes_cons_done hdone, if_pos hlast]
      · have hgo : next b ((2 * k : ℕ) + 1) d = .go ((2 * (k + 1) : ℕ)) := by
          rw [next, if_pos htakes, if_neg (by omega)]
          congr 1
        rw [Scanner.completes_cons_go hgo, if_neg hlast]

/-- The code words of the bits that are missing complete the frame. -/
theorem words_complete {bs : List Bool} {ws : List (List ℕ)} (hws : List.Forall₂ (Word b) bs ws)
    (hk : k + bs.length = 32) (hne : bs ≠ []) :
    Scanner.Completes (next b) (2 * k : ℕ) ws.flatten := by
  induction hws generalizing k with
  | nil => exact absurd rfl hne
  | @cons bit w bs ws hw hws ih =>
      rw [List.length_cons] at hk
      rw [List.flatten_cons, word_completes (by omega) hw]
      split
      · have hbs : bs = [] := List.eq_nil_of_length_eq_zero (by omega)
        subst hbs
        cases hws
        rfl
      · exact ih (by omega) (by rintro rfl; simp at hk; omega)

/-- A sync gap and the code words of 32 bits complete a frame. -/
theorem frame_completes {sync : ℕ} {bs : List Bool} {ws : List (List ℕ)} (hsync : Sync b sync)
    (hbs : bs.length = 32) (hws : List.Forall₂ (Word b) bs ws) :
    Scanner.Completes (next b) (-1) (sync :: ws.flatten) := by
  have hgo : next b (-1) sync = .go (2 * 0 : ℕ) := by
    have htakes : Takes b (-1) sync := by
      rw [Takes, if_pos rfl]
      exact hsync
    rw [next, if_pos htakes]
    rfl
  rw [Scanner.completes_cons_go hgo]
  exact words_complete hws (by omega) (by rintro rfl; simp at hbs)

theorem takes_of_completes {p : ℤ} {d : ℕ} {w : List ℕ}
    (h : Scanner.Completes (next b) p (d :: w)) : Takes b p d := by
  by_contra hnot
  rw [Scanner.Completes, next, if_neg hnot] at h
  exact h

/-- Only a sync gap and 32 code words complete a frame. -/
theorem exists_words {n : ℕ} (hn : k + n = 32) (hpos : 0 < n) {w : List ℕ}
    (h : Scanner.Completes (next b) (2 * k : ℕ) w) :
    ∃ bs ws, bs.length = n ∧ List.Forall₂ (Word b) bs ws ∧ w = ws.flatten := by
  -- a code word is taken off the front; a single interval does not complete a frame
  induction n generalizing k w with
  | zero => omega
  | succ n ih =>
      rcases w with _ | ⟨p, _ | ⟨d, rest⟩⟩
      · exact absurd rfl h.ne_nil
      · have htakes := takes_of_completes h
        have hgo : next b (2 * k : ℕ) p = .go ((2 * k : ℕ) + 1) := by
          rw [next, if_pos htakes, if_neg (by omega)]
        rw [Scanner.completes_cons_go hgo] at h
        exact absurd rfl h.ne_nil
      · have hp := takes_of_completes h
        have hgo : next b (2 * k : ℕ) p = .go ((2 * k : ℕ) + 1) := by
          rw [next, if_pos hp, if_neg (by omega)]
        have hd := takes_of_completes ((Scanner.completes_cons_go hgo _).1 h)
        rw [Takes, if_neg (by omega), if_pos (by omega)] at hp
        rw [Takes, if_neg (by omega), if_neg (by omega)] at hd
        have hword : Word b (bitOf b d) [p, d] := Word.bit hp hd
        have hrest := (word_completes (by omega) hword rest).1 h
        cases n with
        | zero =>
            rw [if_pos (by omega)] at hrest
            exact ⟨[bitOf b d], [[p, d]], rfl, List.Forall₂.cons hword List.Forall₂.nil,
              by rw [hrest]; rfl⟩
        | succ n =>
            rw [if_neg (by omega)] at hrest
            rcases ih (by omega) (by omega) hrest with ⟨bs, ws, hbs, hws, rfl⟩
            exact ⟨bitOf b d :: bs, [p, d] :: ws, by rw [List.length_cons, hbs],
              List.Forall₂.cons hword hws, rfl⟩

/-! ## Frames -/

def pushBit (b : Board) (k : ℕ) (c : Code) (bit : Bool) : Code := store b (2 * k + 1 : ℕ) bit c

def InFrame (f : RepeatFilter Code) (k : ℕ) (c : Code) (s : Decoder) : Prop :=
  s.state = (2 * k : ℕ) ∧ s.receivedCode = c ∧ s.filter = f

def Finished (f : RepeatFilter Code) (c : Code) (s : Decoder) : Prop :=
  s.state = -1 ∧ s.filter = f.count sameCode c

variable {f : RepeatFilter Code} {c : Code}

/-- The pulse of a bit only moves the state. -/
theorem decode_pulse (hk : k < 32) (hs : InFrame f k c s) {p : ℕ} (hp : Pulse b p) :
    decode b s p = ({ s with state := (2 * k + 1 : ℕ) }, none) := by
  rcases hs with ⟨hstate, rfl, rfl⟩
  have htakes : Takes b s.state p := by
    rw [Takes, if_neg (by omega), if_pos (by omega)]
    exact hp
  have hcode : received b s p = s.receivedCode := by
    rw [received, if_neg (by omega), if_pos (by omega)]
  have hnext : s.state + 1 = (2 * k + 1 : ℕ) := by rw [hstate]; rfl
  have hrunning : s.Running := ⟨by omega, by omega⟩
  rw [decode_takes hrunning htakes, hcode, advance, if_neg (by simp only; omega), ← hnext]

/-- Its space stores the bit. -/
theorem decode_space (hk : k < 32) (hs : s.state = (2 * k + 1 : ℕ)) {d : ℕ} (hd : Space b d) :
    decode b s d = advance { s with
      receivedCode := pushBit b k s.receivedCode (bitOf b d) } := by
  have htakes : Takes b s.state d := by
    rw [Takes, if_neg (by omega), if_neg (by omega)]
    exact hd
  have hcode : received b s d = pushBit b k s.receivedCode (bitOf b d) := by
    rw [received, if_neg (by omega), if_neg (by omega), hs]
    rfl
  have hrunning : s.Running := ⟨by omega, by omega⟩
  rw [decode_takes hrunning htakes, hcode]

theorem run_word_inner (hk : k < 31) (hs : InFrame f k c s) (hw : Word b bit w) :
    InFrame f (k + 1) (pushBit b k c bit) (Mealy.final (decode b) s w) ∧
      Mealy.events (decode b) s w = [] := by
  cases hw with
  | @bit p d hp hd =>
      have hpulse := decode_pulse (by omega) hs hp
      have hspace := decode_space (s := { s with state := (2 * k + 1 : ℕ) })
        (k := k) (by omega) rfl hd
      rcases hs with ⟨hstate, rfl, rfl⟩
      rw [advance, if_neg (by simp only; omega)] at hspace
      rw [Mealy.final_cons, Mealy.final_cons, Mealy.events_cons, Mealy.events_cons, hpulse, hspace]
      have hnext : ((2 * k + 1 : ℕ) : ℤ) + 1 = (2 * (k + 1) : ℕ) := by omega
      exact ⟨⟨hnext, rfl, rfl⟩, rfl⟩

theorem run_word_last (hs : InFrame f 31 c s) (hw : Word b bit w) :
    Finished f (pushBit b 31 c bit) (Mealy.final (decode b) s w) ∧
      Mealy.events (decode b) s w =
        [(f.count sameCode (pushBit b 31 c bit)).completion (pushBit b 31 c bit)] := by
  cases hw with
  | @bit p d hp hd =>
      have hpulse := decode_pulse (by omega) hs hp
      have hspace := decode_space (s := { s with state := (2 * 31 + 1 : ℕ) })
        (k := 31) (by omega) rfl hd
      rcases hs with ⟨hstate, rfl, rfl⟩
      rw [advance, if_pos (by rfl)] at hspace
      rw [Mealy.final_cons, Mealy.final_cons, Mealy.events_cons, Mealy.events_cons, hpulse, hspace]
      exact ⟨⟨rfl, rfl⟩, rfl⟩

/-- After a sync gap the code words of 32 bits complete a frame. -/
theorem run_payload (hs : InFrame f 0 c s) {bs : List Bool} {ws : List (List ℕ)}
    (hbs : bs.length = 32) (hws : List.Forall₂ (Word b) bs ws) :
    Finished f (bs.foldlIdx (pushBit b) c) (Mealy.final (decode b) s ws.flatten) ∧
      Mealy.events (decode b) s ws.flatten =
        [(f.count sameCode (bs.foldlIdx (pushBit b) c)).completion
          (bs.foldlIdx (pushBit b) c)] := by
  have hne : bs ≠ [] := by
    rintro rfl
    exact absurd hbs (by decide)
  -- every word but the last stays in the frame
  exact Mealy.run_frame (R := InFrame f) (Q := Finished f)
    (e := fun c => [(f.count sameCode c).completion c]) (W := Word b)
    (fun k c t bit w hk h hw => run_word_inner hk h hw)
    (fun c t bit w h hw => run_word_last h hw) hs hws hne (by omega)

/-- A sync gap and the code words of 32 bits complete a frame. -/
theorem run_frame (hs : s.state = -1) {sync : ℕ} (hsync : Sync b sync) {bs : List Bool}
    {ws : List (List ℕ)} (hbs : bs.length = 32) (hws : List.Forall₂ (Word b) bs ws) :
    Finished s.filter (bs.foldlIdx (pushBit b) emptyCode)
        (Mealy.final (decode b) s (sync :: ws.flatten)) ∧
      Mealy.events (decode b) s (sync :: ws.flatten) =
        [(s.filter.count sameCode (bs.foldlIdx (pushBit b) emptyCode)).completion
          (bs.foldlIdx (pushBit b) emptyCode)] := by
  have htakes : Takes b s.state sync := by
    rw [Takes, if_pos hs]
    exact hsync
  -- the sync gap clears the code
  have hstart : decode b s sync = ({ s with state := 0, receivedCode := emptyCode }, none) := by
    have hcode : received b s sync = emptyCode := by rw [received, if_pos hs]
    rw [decode_takes ⟨hs.ge, by omega⟩ htakes, hcode, advance, if_neg (by simp only; omega)]
    simp only [hs]
    rfl
  have hframe : InFrame s.filter 0 emptyCode { s with state := 0, receivedCode := emptyCode } :=
    ⟨rfl, rfl, rfl⟩
  rw [Mealy.final_cons, Mealy.events_cons, hstart]
  exact run_payload hframe hbs hws

/-- The intervals of a bit determine it. -/
theorem words_unique {bs bs' : List Bool} {ws ws' : List (List ℕ)}
    (hws : List.Forall₂ (Word b) bs ws) (hws' : List.Forall₂ (Word b) bs' ws')
    (h : ws.flatten = ws'.flatten) : bs = bs' := by
  induction hws generalizing bs' ws' with
  | nil =>
      cases hws' with
      | nil => rfl
      | cons hw' _ => cases hw'; simp at h
  | cons hw hws ih =>
      cases hws' with
      | nil => cases hw; simp at h
      | cons hw' hws' =>
          cases hw with
          | bit hp hd =>
              cases hw' with
              | bit hp' hd' =>
                  simp only [List.flatten_cons, List.cons_append, List.nil_append,
                    List.cons.injEq] at h
                  rw [ih hws' h.2.2, h.2.1]

end Auriol
end LamPI
