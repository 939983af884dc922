import LamPI.Kaku.RoundTrip

/-!
# The range of `_state`

The chain of cases in the interrupt handler has no last `else`, and state 147 takes a short or a
long part for one of a bit.  So the state stays in its range, and the decoder finds back to waiting,
exactly as long as no part comes where the stop gap of a frame with dim bits should.
-/

namespace LamPI
namespace Kaku

open PulseLine

variable {b : Board} {s : Decoder} {d : ℕ}

/-! ## One interval -/

def InRange (s : Decoder) : Prop := -1 ≤ s.state ∧ s.state ≤ 147

/-- A short or long part in place of the stop gap of a frame with dim bits. -/
def Derails (s : Decoder) (d : ℕ) : Prop := s.state = 147 ∧ s.ReadsPart d

theorem decode_derails (h : Derails s d) : (decode b s d).1.state = 148 := by
  rcases h with ⟨hs, hd⟩
  have hadvance : ∀ rb, (decodeBit { s with receivedBit := rb }).1.state = 148 := by
    intro rb
    have hmod : ¬Int.tmod s.state 4 = 1 := by
      rw [hs]
      decide
    rw [decodeBit, if_neg hmod, advance]
    simp only [hs]
    decide
  rw [decode, if_neg (by omega), if_neg (by omega), if_neg (by omega), if_pos (by omega),
    decodePart]
  by_cases hshort : d ≤ s.max1Period
  · rw [if_pos hshort]
    exact hadvance _
  · rw [if_neg hshort, if_pos (hd.resolve_left hshort)]
    exact hadvance _

/-- Every other interval is silent and gives up or moves the state by one, or completes a frame. -/
theorem decode_on_track (h : InRange s) (hd : ¬Derails s d) :
    InRange (decode b s d).1 ∧ (0 ≤ s.state → (decode b s d).2 = none →
      (decode b s d).1.state = -1 ∨ (decode b s d).1.state = s.state + 1) := by
  rcases h with ⟨hlower, hupper⟩
  have hadvance : ∀ s' : Decoder, s'.state = s.state → s.state ≠ 147 →
      (advance s').1.state = s.state + 1 := by
    intro s' hs' hlt
    rw [advance, hs']
    exact Int.bmod_eq_of_le (by omega) (by omega)
  have houtcome := decode_outcome b s d
  generalize decode b s d = r at houtcome ⊢
  cases houtcome with
  | idle hs => exact ⟨⟨hlower, hupper⟩, fun _ _ => Or.inl hs⟩
  | sync hs =>
      rw [InRange, hadvance (synchronise b s d) rfl (by omega)]
      exact ⟨by omega, fun _ _ => Or.inr rfl⟩
  | reset => exact ⟨⟨le_rfl, (by decide : (-1 : ℤ) ≤ 147)⟩, fun _ _ => Or.inl rfl⟩
  | advance hs rb c _ _ hstop =>
      -- only a part can move the state on from 147
      have hlt : s.state ≠ 147 := fun h147 => hd ⟨h147, hstop h147⟩
      rw [InRange, hadvance { s with receivedBit := rb, receivedCode := c } rfl hlt]
      exact ⟨by omega, fun _ _ => Or.inr rfl⟩
  | complete hs rb =>
      refine ⟨⟨?_, ?_⟩, fun _ hquiet => by cases hquiet⟩
      · simp only [complete]
        split <;> omega
      · simp only [complete]
        split <;> omega

/-! ## Runs -/

/-- After every edge of the run, `_state` is in its range. -/
def Stays (b : Board) (s₀ : State) (times : List ℕ) : Prop :=
  ∀ pre, pre <+: times → InRange (Mealy.final (interruptHandler b) s₀ pre).decoder

/-- A stretch of the run that processes 148 intervals without completing a frame finds the decoder
waiting, after at most 148 of them. -/
def Recovers (b : Board) (s₀ : State) (times : List ℕ) : Prop :=
  ∀ pre mid, pre ++ mid <+: times →
    Mealy.events (interruptHandler b) (Mealy.final (interruptHandler b) s₀ pre) mid = [] →
    148 ≤ ((Mealy.final (interruptHandler b) s₀ pre).processed b (pulseDecoder b) mid).length →
    ∃ w, w <+: mid ∧
      ((Mealy.final (interruptHandler b) s₀ pre).processed b (pulseDecoder b) w).length ≤ 148 ∧
      (Mealy.final (interruptHandler b) s₀ (pre ++ w)).decoder.state = -1

/-- No edge of the run makes the decoder process a short or long part in state 147. -/
def OnTrack (b : Board) (s₀ : State) (times : List ℕ) : Prop :=
  ∀ pre t, pre ++ [t] <+: times → ∀ d,
    (Mealy.final (interruptHandler b) s₀ pre).interval b (pulseDecoder b) t = some d →
    ¬Derails (Mealy.final (interruptHandler b) s₀ pre).decoder d

/-- An edge seen from the decoder. -/
theorem onEdge_decoder (s : State) (t : ℕ) :
    (s.interval b (pulseDecoder b) t = none ∧ (interruptHandler b s t).1.decoder = s.decoder) ∨
    ∃ d, s.interval b (pulseDecoder b) t = some d ∧
      (interruptHandler b s t).1.decoder = (decode b s.decoder d).1 ∧
      (interruptHandler b s t).2 = (decode b s.decoder d).2 := by
  have hedge := Filtered.onEdge_decoder (b := b) (D := pulseDecoder b) (s := s) t
  cases hinterval : s.interval b (pulseDecoder b) t with
  | none =>
      rw [hinterval] at hedge
      exact Or.inl ⟨rfl, hedge.1⟩
  | some d =>
      rw [hinterval] at hedge
      refine Or.inr ⟨d, rfl, hedge.1, ?_⟩
      have hout := hedge.2
      rw [Option.toList_some, Mealy.events_cons, Mealy.events_nil, List.append_nil] at hout
      have hhead := congrArg List.head? hout
      rwa [Option.head?_toList, Option.head?_toList] at hhead

theorem processed_of_none {s : State} {t : ℕ} (h : s.interval b (pulseDecoder b) t = none)
    (times : List ℕ) :
    s.processed b (pulseDecoder b) (t :: times) =
      (interruptHandler b s t).1.processed b (pulseDecoder b) times := by
  rw [Filtered.processed_cons, h]
  rfl

theorem length_processed_of_some {s : State} {t : ℕ}
    (h : s.interval b (pulseDecoder b) t = some d) (times : List ℕ) :
    (s.processed b (pulseDecoder b) (t :: times)).length =
      ((interruptHandler b s t).1.processed b (pulseDecoder b) times).length + 1 := by
  rw [Filtered.processed_cons, h, Option.toList_some, List.length_append, List.length_singleton,
    Nat.add_comm]
  rfl

theorem stays_iff_onTrack {s₀ : State} (h : InRange s₀.decoder) (times : List ℕ) :
    Stays b s₀ times ↔ OnTrack b s₀ times := by
  constructor
  · intro hstays pre t hpre d hinterval hderails
    have hrange := hstays (pre ++ [t]) hpre
    rw [Mealy.final_concat] at hrange
    rcases onEdge_decoder (b := b) (Mealy.final (interruptHandler b) s₀ pre) t with
      ⟨hnone, -⟩ | ⟨d', hsome, hdecoder, -⟩
    · rw [hnone] at hinterval
      cases hinterval
    · rw [hsome] at hinterval
      cases hinterval
      -- a step that derails leaves the range at once
      have hlost := decode_derails (b := b) hderails
      rw [InRange, hdecoder, hlost] at hrange
      omega
  · intro htrack pre
    -- induction on the edges: a step on the track keeps the range
    induction pre using List.reverseRecOn with
    | nil => exact fun _ => h
    | append_singleton pre t ih =>
        intro hpre
        have hrange := ih ((List.prefix_append pre [t]).trans hpre)
        rw [Mealy.final_concat]
        rcases onEdge_decoder (b := b) (Mealy.final (interruptHandler b) s₀ pre) t with
          ⟨-, hsame⟩ | ⟨d, hsome, hdecoder, -⟩
        · rw [hsame]
          exact hrange
        · rw [hdecoder]
          exact (decode_on_track hrange (htrack pre t hpre d hsome)).1

/-- In a frame the state counts the intervals, so that it cannot take 148 of them. -/
theorem exists_idle {s : State} {mid : List ℕ} (hrange : Stays b s mid)
    (hquiet : Mealy.events (interruptHandler b) s mid = []) (hs : 0 ≤ s.decoder.state)
    (hlen : 148 ≤ s.decoder.state + (s.processed b (pulseDecoder b) mid).length) :
    ∃ w, w <+: mid ∧ s.decoder.state + (s.processed b (pulseDecoder b) w).length ≤ 148 ∧
      (Mealy.final (interruptHandler b) s w).decoder.state = -1 := by
  induction mid generalizing s with
  | nil =>
      -- no interval is left, so the state would have to be 148 already
      have hupper := (hrange [] (List.prefix_refl [])).2
      rw [Mealy.final_nil] at hupper
      rw [Filtered.processed_nil, List.length_nil] at hlen
      omega
  | cons t mid ih =>
      have htail : Stays b (interruptHandler b s t).1 mid :=
        fun w hw => hrange (t :: w) (List.cons_prefix_cons.2 ⟨rfl, hw⟩)
      rw [Mealy.events_cons, List.append_eq_nil_iff] at hquiet
      rcases onEdge_decoder (b := b) s t with ⟨hnone, hsame⟩ | ⟨d, hsome, hdecoder, hout⟩
      · -- the filter keeps the edge from the decoder
        have hprocessed := processed_of_none hnone
        rw [hprocessed, ← hsame] at hlen
        rcases ih htail hquiet.2 (by rw [hsame]; exact hs) hlen with ⟨w, hw, hcount, hidle⟩
        refine ⟨t :: w, List.cons_prefix_cons.2 ⟨rfl, hw⟩, ?_, hidle⟩
        rw [hprocessed, ← hsame]
        exact hcount
      · -- the decoder gives up, or the state moves by one
        have hprocessed := length_processed_of_some hsome
        have hhere := hrange [] (List.nil_prefix)
        have hnext := htail [] (List.nil_prefix)
        rw [Mealy.final_nil] at hhere hnext
        have hderails : ¬Derails s.decoder d := by
          intro hderails
          have hlost := decode_derails (b := b) hderails
          rw [InRange, hdecoder, hlost] at hnext
          omega
        have hsilent : (decode b s.decoder d).2 = none := by
          rw [← hout]
          exact Option.toList_eq_nil_iff.1 hquiet.1
        rcases (decode_on_track (b := b) hhere hderails).2 hs hsilent with hidle | hmoved
        · refine ⟨[t], List.cons_prefix_cons.2 ⟨rfl, List.nil_prefix⟩, ?_, ?_⟩
          · have hupper := hhere.2
            rw [hprocessed, Filtered.processed_nil, List.length_nil]
            omega
          · rw [Mealy.final_cons, Mealy.final_nil, hdecoder]
            exact hidle
        · rw [← hdecoder] at hmoved
          rw [hprocessed] at hlen
          rcases ih htail hquiet.2 (by omega) (by omega) with ⟨w, hw, hcount, hidle⟩
          refine ⟨t :: w, List.cons_prefix_cons.2 ⟨rfl, hw⟩, ?_, hidle⟩
          rw [hprocessed]
          omega

theorem recovers_of_stays {s₀ : State} {times : List ℕ} (h : Stays b s₀ times) :
    Recovers b s₀ times := by
  intro pre mid hpre hquiet hlen
  have hmid : Stays b (Mealy.final (interruptHandler b) s₀ pre) mid := by
    intro w hw
    rw [← Mealy.final_append]
    exact h (pre ++ w) (((List.prefix_append_right_inj pre).2 hw).trans hpre)
  have hrange := hmid [] List.nil_prefix
  rw [Mealy.final_nil] at hrange
  by_cases hidle : (Mealy.final (interruptHandler b) s₀ pre).decoder.state = -1
  · refine ⟨[], List.nil_prefix, by rw [Filtered.processed_nil]; decide, ?_⟩
    rw [List.append_nil]
    exact hidle
  · have hs := hrange.1
    rcases exists_idle hmid hquiet (by omega) (by omega) with ⟨w, hw, hcount, hwaits⟩
    refine ⟨w, hw, by omega, ?_⟩
    rw [Mealy.final_append]
    exact hwaits

/-- From `enable` on, the decoder stays in the range of its states and finds back to waiting,
exactly in the runs in which no part is processed where the stop gap of a dim frame should come. -/
theorem enable_stays_recovers (b : Board) (s : State) (times : List ℕ) :
    (Stays b (enable s) times ∧ Recovers b (enable s) times) ↔ OnTrack b (enable s) times := by
  have hrange : InRange (enable s).decoder := ⟨le_rfl, (by decide : (-1 : ℤ) ≤ 147)⟩
  constructor
  · rintro ⟨hstays, -⟩
    exact (stays_iff_onTrack hrange times).1 hstays
  · intro htrack
    have hstays := (stays_iff_onTrack hrange times).2 htrack
    exact ⟨hstays, recovers_of_stays hstays⟩

/-- A gap, the start and the bits of a dim frame, and four pulses of one period instead of the stop
pulse. -/
def derailingEdges : List ℕ :=
  stamps 0 (10400 ::
    (dataWidths 260 ((Command.dim (Fin.last 15) (Fin.last 15)).telegram 1000) ++ [260, 260, 260]))

/-- It leaves the range. -/
theorem enable_leaves_range :
    ¬(Stays .avr (enable (init 2 0 0)) derailingEdges ∧
      Recovers .avr (enable (init 2 0 0)) derailingEdges) := by
  rintro ⟨hstays, -⟩
  have hrange := (hstays derailingEdges (List.prefix_refl _)).2
  have hlost : (Mealy.final (interruptHandler .avr) (enable (init 2 0 0))
      derailingEdges).decoder.state = 148 := by decide +kernel
  omega

end Kaku
end LamPI
