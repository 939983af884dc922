import LamPI.Quhwa.Bands

/-!
# Waiting for a signal — `quhwaReceiver::isReceiving`

The loop looks for a `_state` of at least 40.  A frame is complete in state 35, so it waits until
its time is over.
-/

namespace LamPI
namespace Quhwa

open PulseLine

/-- One round of the loop: the edges that have come since the round before, and `millis()`. -/
structure Poll where
  edges : List ℕ
  millis : ULong

def waited (b : Board) (startTime millis : ULong) : ℤ :=
  Int.bmod (millis - startTime).toNat (2 ^ b.uintBits)

def Waits (b : Board) (startTime : ULong) (waitMillis : ℤ) (poll : Poll) : Prop :=
  0 ≤ waited b startTime poll.millis ∧ waited b startTime poll.millis ≤ waitMillis

instance (b : Board) (startTime : ULong) (waitMillis : ℤ) (poll : Poll) :
    Decidable (Waits b startTime waitMillis poll) := by
  unfold Waits
  infer_instance

/-- `quhwaReceiver::isReceiving`; `none` if the loop has not ended after these rounds. -/
def isReceiving (b : Board) (startTime : ULong) (waitMillis : ℤ) : State → List Poll → Option Bool
  | _, [] => none
  | s, poll :: polls =>
      let s := Mealy.final (interruptHandler b) s poll.edges
      if 40 ≤ s.decoder.state then some true
      else if Waits b startTime waitMillis poll then isReceiving b startTime waitMillis s polls
      else some false

def received (b : Board) (minRepeats : ℕ) (edge2 : ULong) (times : List ℕ) : State :=
  Mealy.final (interruptHandler b) (init minRepeats edge2) times

/-- Behind a start pulse the run ends with at least 16 bits of a frame, but not with all of them. -/
def Receiving (b : Board) (minRepeats : ℕ) (edge2 : ULong) (times : List ℕ) : Prop :=
  ∃ before start bs ds, measured edge2 times = before ++ start :: ds ∧
    Waiting (Mealy.final (decode b) (init minRepeats edge2).decoder before).state ∧
    Start b start ∧ List.Forall₂ Bit bs ds ∧ 16 ≤ bs.length ∧ bs.length < 35

variable {b : Board} {s : State} {startTime : ULong} {waitMillis : ℤ} {polls : List Poll}

/-! ## The states of a frame -/

/-- The bits of a frame are counted. -/
theorem final_bits {f : RepeatFilter Code} {k : ℕ} {c : Code} {s : Decoder} {bs : List Bool}
    {ds : List ℕ} (hs : InFrame f k c s) (hws : List.Forall₂ Bit bs ds)
    (hk : k + bs.length < 35) : (Mealy.final (decode b) s ds).state = (k + bs.length : ℕ) := by
  induction hws generalizing k c s with
  | nil => exact hs.1
  | cons hbit _ ih =>
      rw [List.length_cons] at hk ⊢
      have hnext := ih (run_bit_inner (b := b) (by omega) hs hbit).1 (by omega)
      rw [Mealy.final_cons, hnext]
      congr 1
      omega

theorem state_of_receiving {minRepeats : ℕ} {edge2 : ULong} {times : List ℕ}
    (h : Receiving b minRepeats edge2 times) :
    16 ≤ (received b minRepeats edge2 times).decoder.state ∧
      (received b minRepeats edge2 times).decoder.state < 35 := by
  rcases h with ⟨before, start, bs, ds, hsplit, hwaiting, hstart, hbits, hlo, hhi⟩
  have hin := (decode_start hwaiting hstart).1
  have hstate := final_bits (b := b) hin hbits (by omega)
  have hrun : (received b minRepeats edge2 times).decoder =
      Mealy.final (decode b) (init minRepeats edge2).decoder (measured edge2 times) :=
    (Sampled.run_eq (s := init minRepeats edge2) rfl times).2.1
  rw [hrun, hsplit, Mealy.final_append, Mealy.final_cons, hstate]
  omega

/-! ## The loop -/

/-- Between the edges the state stays below 35. -/
theorem running_final (h : s.decoder.Running) (times : List ℕ) :
    (Mealy.final (interruptHandler b) s times).decoder.Running := by
  refine Mealy.final_invariant (I := fun s : State => s.decoder.Running) ?_ h times
  intro s t hs
  unfold interruptHandler Sampled.onEdge
  split
  · exact (tracks_decode b).step_inv _ _ hs
  · exact hs

theorem isReceiving_cons (h : s.decoder.Running) (poll : Poll) :
    isReceiving b startTime waitMillis s (poll :: polls) =
      if Waits b startTime waitMillis poll then
        isReceiving b startTime waitMillis (Mealy.final (interruptHandler b) s poll.edges) polls
      else some false := by
  have hstate := (running_final (b := b) h poll.edges).2
  rw [isReceiving, if_neg (by omega)]

/-- From a state of a run the loop only ends when the time is over. -/
theorem isReceiving_eq (h : s.decoder.Running) (polls : List Poll) :
    isReceiving b startTime waitMillis s polls =
      if ∀ poll ∈ polls, Waits b startTime waitMillis poll then none else some false := by
  induction polls generalizing s with
  | nil => simp [isReceiving]
  | cons poll polls ih =>
      rw [isReceiving_cons h, ih (running_final h poll.edges)]
      by_cases hwaits : Waits b startTime waitMillis poll
      · simp [hwaits]
      · simp [hwaits]

/-- In no state of a frame does `isReceiving` return true: it returns false when it has waited long
enough. -/
theorem isReceiving_misses {minRepeats : ℕ} {edge2 : ULong} {times : List ℕ}
    (h : Receiving b minRepeats edge2 times) (startTime : ULong) (waitMillis : ℤ)
    (polls : List Poll) :
    (16 ≤ (received b minRepeats edge2 times).decoder.state ∧
      (received b minRepeats edge2 times).decoder.state < 35) ∧
    isReceiving b startTime waitMillis (received b minRepeats edge2 times) polls ≠ some true ∧
    (isReceiving b startTime waitMillis (received b minRepeats edge2 times) polls = some false ↔
      ∃ poll ∈ polls, ¬Waits b startTime waitMillis poll) := by
  have hrunning : (received b minRepeats edge2 times).decoder.Running :=
    running_final (init_running minRepeats edge2) times
  refine ⟨state_of_receiving h, ?_⟩
  rw [isReceiving_eq hrunning]
  by_cases hall : ∀ poll ∈ polls, Waits b startTime waitMillis poll
  · rw [if_pos hall]
    refine ⟨nofun, iff_of_false nofun ?_⟩
    rintro ⟨poll, hmem, hover⟩
    exact hover (hall poll hmem)
  · rw [if_neg hall]
    push Not at hall
    exact ⟨by decide, iff_of_true rfl hall⟩

/-- The edges of a start pulse of 6000 µs and 16 zeros. -/
def sixteenZeros : List ℕ := (List.range 17).map fun k => 6000 + 400 * k

theorem receiving_sixteenZeros : Receiving .avr 1 0 sixteenZeros :=
  ⟨[], 6000, List.replicate 16 false, List.replicate 16 400, by decide +kernel, rfl,
    ⟨by decide, by decide⟩,
    Mealy.forall₂_replicate ⟨by decide, by decide, by decide⟩ 16, by decide, by decide⟩

/-- 31 ms without another edge. -/
theorem isReceiving_misses_zeros :
    (16 ≤ (received .avr 1 0 sixteenZeros).decoder.state ∧
      (received .avr 1 0 sixteenZeros).decoder.state < 35) ∧
    isReceiving .avr 0 30 (received .avr 1 0 sixteenZeros) [⟨[], 0⟩, ⟨[], 31⟩] ≠ some true ∧
    (isReceiving .avr 0 30 (received .avr 1 0 sixteenZeros) [⟨[], 0⟩, ⟨[], 31⟩] = some false ↔
      ∃ poll ∈ ([⟨[], 0⟩, ⟨[], 31⟩] : List Poll), ¬Waits .avr 0 30 poll) :=
  isReceiving_misses receiving_sixteenZeros 0 30 [⟨[], 0⟩, ⟨[], 31⟩]

/-- With the 16 zeros received, 30 ms pass and `isReceiving` has not noticed anything. -/
theorem not_isReceiving :
    ¬∀ (b : Board) (minRepeats : ℕ) (edge2 : ULong) (times : List ℕ),
      Receiving b minRepeats edge2 times →
      ∀ (startTime : ULong) (waitMillis : ℤ) (polls : List Poll), 0 ≤ waitMillis →
        (∃ poll ∈ polls, ¬Waits b startTime waitMillis poll) →
        isReceiving b startTime waitMillis (received b minRepeats edge2 times) polls =
          some true := by
  intro h
  have hnoticed := h .avr 1 0 sixteenZeros receiving_sixteenZeros 0 30 [⟨[], 0⟩, ⟨[], 31⟩]
    (by decide) ⟨⟨[], 31⟩, by simp, by decide⟩
  have hmissed : isReceiving .avr 0 30 (received .avr 1 0 sixteenZeros) [⟨[], 0⟩, ⟨[], 31⟩] =
      some false := by decide +kernel
  rw [hmissed] at hnoticed
  cases hnoticed

end Quhwa
end LamPI
