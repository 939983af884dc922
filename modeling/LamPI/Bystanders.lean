import LamPI.Auriol.Receiver
import LamPI.Kopou.Receiver
import LamPI.Library.Bystander
import LamPI.Livolo.Receiver
import LamPI.MinRepeats
import LamPI.Quhwa.Receiver
import LamPI.Wt440.Receiver

/-!
# Receivers that hear other protocols

All receivers of a gateway are handed all edges.  A receiver for a protocol with fixed widths completes
no frame as long as no interval is its start pulse, or as long as intervals that are no bits come often
enough.
-/

namespace LamPI

open Bystander

/-! ## Livolo -/

namespace Livolo

variable {b : Board} {s : Decoder} {ds : List ℕ}

/-- Without a start pulse there is no frame. -/
theorem silent_of_no_start (hs : s.state = -1)
    (hds : ∀ d ∈ ds, ¬(440 < b.uint d ∧ b.uint d < 600)) :
    Mealy.events (decode b) s ds = [] :=
  (Mealy.run_ignored fun d hd => decode_idle hs (hds d hd)).2

/-- The fewest intervals that may have been read of the frame. -/
def depth (s : Decoder) : ℕ := ((s.state + 2) / 2).toNat

theorem broken_close {s t : Decoder} (hs : -1 ≤ s.state) (hlo : 0 ≤ t.state)
    (hhi : t.state ≤ s.state + 2 ∧ (s.state = -1 → t.state = 0)) (hdepth : depth s < 23) :
    -1 ≤ (close t).1.state ∧ (close t).2 = none ∧ depth (close t).1 ≤ depth s + 1 := by
  rcases hhi with ⟨hhi, hstart⟩
  unfold depth at *
  have hlt : t.state ≠ 46 := by omega
  rw [close, if_neg hlt]
  exact ⟨by simp only; omega, rfl, by simp only; omega⟩

theorem broken_decodeBit (store : ℕ → Code → Code) {s : Decoder} (hs : 0 ≤ s.state)
    (hdepth : depth s < 23) (duration : ℕ) :
    -1 ≤ (decodeBit store s duration).1.state ∧ (decodeBit store s duration).2 = none ∧
      depth (decodeBit store s duration).1 ≤ depth s + 1 := by
  unfold decodeBit advance
  split
  · exact broken_close (by omega) (by simp only; omega) ⟨by simp only; omega, by omega⟩ hdepth
  · split
    · split
      · exact ⟨le_rfl, rfl, by simp [depth, Decoder.reset]⟩
      · exact broken_close (by omega) (by simp only; omega) ⟨by simp only; omega, by omega⟩ hdepth
    · exact broken_close (by omega) (by simp only; omega) ⟨by simp only; omega, by omega⟩ hdepth

theorem broken_step (hs : -1 ≤ s.state) (hdepth : depth s < 23) (gap : ℕ) :
    -1 ≤ (decode b s gap).1.state ∧ (decode b s gap).2 = none ∧
      depth (decode b s gap).1 ≤ depth s + 1 := by
  unfold decode
  split
  · exact ⟨le_rfl, rfl, by simp [depth, Decoder.reset]⟩
  · simp only
    split
    · split
      · exact broken_close hs (by simp only; omega) (by simp only; omega) hdepth
      · exact ⟨hs, rfl, Nat.le_succ _⟩
    · split
      · exact broken_decodeBit _ (by omega) hdepth _
      · split
        · exact broken_decodeBit _ (by omega) hdepth _
        · exact ⟨le_rfl, rfl, by simp [depth, Decoder.reset]⟩

/-- A frame has 23 intervals at least, and one that is too long for a bit breaks it off. -/
theorem broken_decode (b : Board) :
    Broken (decode b) (fun s => -1 ≤ s.state) depth (fun _ => True) (fun d => max3Period < d) 23 := by
  refine ⟨fun s d hs _ h => (broken_step hs h d).1, fun s d hs _ h => (broken_step hs h d).2.1,
    fun s d hs _ h => (broken_step hs h d).2.2, ?_⟩
  intro s d hs _ hbad h
  by_cases hidle : s.state = -1
  · have hdepth := (broken_step (b := b) hs h d).2.2
    have hzero : depth s = 0 := by simp [depth, hidle]
    omega
  · rw [decode, if_pos ⟨by omega, Or.inr hbad⟩]
    simp [depth, Decoder.reset]

end Livolo

/-! ## Kopou -/

namespace Kopou

variable {b : Board} {s : Decoder} {ds : List ℕ}

theorem silent_of_no_start (hs : s.state = -1) (hds : ∀ d ∈ ds, ¬Start b d) :
    Mealy.events (decode b) s ds = [] :=
  (Mealy.run_ignored fun d hd => decode_idle hs (hds d hd)).2

/-- The intervals that have been read of the frame. -/
def depth (s : Decoder) : ℕ := (s.state + 1).toNat

theorem broken_step (hs : -1 ≤ s.state) (hdepth : depth s < 48) (gap : ℕ) :
    -1 ≤ (decode b s gap).1.state ∧ (decode b s gap).2 = none ∧
      depth (decode b s gap).1 ≤ depth s + 1 := by
  have hadvance : ∀ t : Decoder, t.state = s.state → -1 ≤ (advance t).1.state ∧
      (advance t).2 = none ∧ depth (advance t).1 ≤ depth s + 1 := by
    intro t ht
    unfold depth at *
    rw [advance, if_neg (by omega)]
    exact ⟨by simp only; omega, rfl, by simp only; omega⟩
  have hstep := stepTo_decode b s gap
  generalize decode b s gap = r at hstep ⊢
  cases hstep with
  | idle _ => exact ⟨hs, rfl, Nat.le_succ _⟩
  | reset => exact ⟨le_rfl, rfl, by simp [depth, Decoder.reset]⟩
  | start _ => exact hadvance _ rfl
  | first _ _ _ rb => exact hadvance _ rfl
  | second _ _ _ _ => exact hadvance _ rfl

/-- A frame has 48 intervals behind its start pulse, and one outside of the widths of a bit breaks it
off. -/
theorem broken_decode (b : Board) :
    Broken (decode b) (fun s => -1 ≤ s.state) depth (fun _ => True)
      (fun d => d < min1Period ∨ max2Period < d) 48 := by
  refine ⟨fun s d hs _ h => (broken_step hs h d).1, fun s d hs _ h => (broken_step hs h d).2.1,
    fun s d hs _ h => (broken_step hs h d).2.2, ?_⟩
  intro s d hs _ hbad h
  by_cases hidle : s.state = -1
  · have hdepth := (broken_step (b := b) hs h d).2.2
    have hzero : depth s = 0 := by simp [depth, hidle]
    omega
  · rw [decode, if_pos ⟨by omega, hbad⟩]
    simp [depth, Decoder.reset]

end Kopou

/-! ## Quhwa -/

namespace Quhwa

variable {b : Board} {s : Decoder} {ds : List ℕ}

theorem silent_of_no_start (hs : s.state = -1) (hds : ∀ d ∈ ds, ¬Start b d) :
    Mealy.events (decode b) s ds = [] :=
  (Mealy.run_ignored fun d hd => decode_idle hs (hds d hd)).2

def depth (s : Decoder) : ℕ := (s.state + 1).toNat

theorem broken_step (hs : -1 ≤ s.state) (hdepth : depth s < 35) (gap : ℕ) :
    -1 ≤ (decode b s gap).1.state ∧ (decode b s gap).2 = none ∧
      depth (decode b s gap).1 ≤ depth s + 1 := by
  have hadvance : ∀ t : Decoder, t.state = s.state → -1 ≤ (advance t).1.state ∧
      (advance t).2 = none ∧ depth (advance t).1 ≤ depth s + 1 := by
    intro t ht
    unfold depth at *
    rw [advance, if_neg (by omega)]
    exact ⟨by simp only; omega, rfl, by simp only; omega⟩
  have hstep := stepTo_decode b s gap
  generalize decode b s gap = r at hstep ⊢
  cases hstep with
  | idle _ => exact ⟨hs, rfl, Nat.le_succ _⟩
  | reset => exact ⟨le_rfl, rfl, by simp [depth, Decoder.reset]⟩
  | start _ _ => exact hadvance _ rfl
  | bit _ _ _ _ => exact hadvance _ rfl

/-- A frame has 35 intervals behind its start pulse, and one outside of the widths of a bit breaks it
off. -/
theorem broken_decode (b : Board) :
    Broken (decode b) (fun s => -1 ≤ s.state) depth (fun _ => True)
      (fun d => d < min1Period ∨ max3Period < d) 35 := by
  refine ⟨fun s d hs _ h => (broken_step hs h d).1, fun s d hs _ h => (broken_step hs h d).2.1,
    fun s d hs _ h => (broken_step hs h d).2.2, ?_⟩
  intro s d hs _ hbad h
  by_cases hidle : s.state = -1
  · have hdepth := (broken_step (b := b) hs h d).2.2
    have hzero : depth s = 0 := by simp [depth, hidle]
    omega
  · rw [decode, if_pos ⟨by omega, hbad⟩]
    simp [depth, Decoder.reset]

end Quhwa

/-! ## Auriol -/

namespace Auriol

variable {b : Board} {s : Decoder} {ds : List ℕ}

theorem silent_of_no_start (hs : s.state = -1) (hds : ∀ d ∈ ds, ¬Sync b d) :
    Mealy.events (decode b) s ds = [] :=
  (Mealy.run_ignored fun d hd => decode_idle hs (hds d hd)).2

end Auriol

/-! ## WT440 -/

namespace Wt440

variable {s : Decoder} {ds : List ℕ}

/-- The second half of the leader takes a long pulse. -/
theorem silent_of_no_long (hs : s.Running) (hstate : s.state < 8)
    (hds : ∀ d ∈ ds, ¬SyncPulse d) : Mealy.events decode s ds = [] := by
  suffices hstep : ∀ s d, s.Running ∧ s.state < 8 → ¬SyncPulse d →
      ((decode s d).1.Running ∧ (decode s d).1.state < 8) ∧ (decode s d).2 = none from
    (Bystander.run_silent hstep ⟨hs, hstate⟩ hds).2
  rintro s d ⟨hrun, h8⟩ hlong
  have hnonneg : 0 ≤ position s.state := le_max_right _ _
  have hposition : position s.state < 8 := by
    unfold position
    omega
  rcases hnext : next s.state d with _ | q | _
  · rcases tracks_decode.abort s d hrun hnext with ⟨hstart, hquiet⟩
    refine ⟨⟨tracks_decode.step_inv s d hrun, ?_⟩, hquiet⟩
    rcases hstart with h | h <;> omega
  -- in the first half the state moves by one
  · rcases next_go hnext with ⟨htakes, hq, -⟩
    rcases tracks_decode.go s d q hrun hnext with ⟨-, hstate', hquiet⟩
    have haccepts := htakes.accepts hrun.2.1
    have h4 : position s.state < 4 := by
      by_contra h4
      exact hlong ⟨haccepts.2.2 (by omega) hposition, haccepts.1⟩
    rw [halfBits, if_pos h4] at hq
    exact ⟨⟨tracks_decode.step_inv s d hrun, by omega⟩, hquiet⟩
  · have hle := (next_done hnext).2
    have hhalf : halfBits (position s.state) (d % 65536) ≤ 2 := by
      unfold halfBits
      split_ifs <;> omega
    omega

end Wt440

end LamPI
