import LamPI.Kaku.RoundTrip
import LamPI.Kaku.Session

/-!
# What a code keeps from earlier frames

Two runs that end with the same gap and the same two frames differ in what came before.  All fields
of the code are set by the frames but `dimLevelPresent`, which a frame with dim bits sets and
nothing clears.
-/

namespace LamPI
namespace Kaku

open PulseLine

variable {b : Board} {s : Decoder} {d : ℕ}

/-! ## What is never cleared -/

theorem decode_minRepeats : (decode b s d).1.filter.minRepeats = s.filter.minRepeats ∧
    (decode b s d).1.filter.inCallback = s.filter.inCallback := by
  have houtcome := decode_outcome b s d
  generalize decode b s d = r at houtcome ⊢
  cases houtcome with
  | idle => exact ⟨rfl, rfl⟩
  | sync => exact ⟨rfl, rfl⟩
  | reset => exact ⟨rfl, rfl⟩
  | advance => exact ⟨rfl, rfl⟩
  | complete => exact ⟨RepeatFilter.count_minRepeats, RepeatFilter.count_inCallback⟩

theorem final_minRepeats (ds : List ℕ) :
    (Mealy.final (decode b) s ds).filter.minRepeats = s.filter.minRepeats ∧
      (Mealy.final (decode b) s ds).filter.inCallback = s.filter.inCallback := by
  refine Mealy.final_invariant (I := fun s' : Decoder =>
    s'.filter.minRepeats = s.filter.minRepeats ∧ s'.filter.inCallback = s.filter.inCallback) ?_
    ⟨rfl, rfl⟩ ds
  intro s' d h
  rw [decode_minRepeats.1, decode_minRepeats.2]
  exact h

def EndsDimFrame (b : Board) (s : Decoder) (d : ℕ) : Prop :=
  s.state = 147 ∧ (decode b s d).2.isSome = true

theorem decode_dimLevelPresent (b : Board) (s : Decoder) (d : ℕ) :
    (decode b s d).1.receivedCode.dimLevelPresent = true ↔
      s.receivedCode.dimLevelPresent = true ∨ EndsDimFrame b s d := by
  have houtcome := decode_outcome b s d
  unfold EndsDimFrame
  generalize decode b s d = r at houtcome ⊢
  cases houtcome with
  | idle => simp
  | sync => simp [advance, synchronise]
  | reset _ rb c _ hdim => simp [hdim]
  | advance _ rb c _ hdim => simp [advance, hdim]
  | complete hs rb =>
      by_cases h147 : s.state = 147
      · simp [complete, h147]
      · simp [complete, h147]

def DimFrameIn (b : Board) (s : Decoder) (ds : List ℕ) : Prop :=
  ∃ pre d post, ds = pre ++ d :: post ∧ EndsDimFrame b (Mealy.final (decode b) s pre) d

theorem final_dimLevelPresent (b : Board) (s : Decoder) (ds : List ℕ) :
    (Mealy.final (decode b) s ds).receivedCode.dimLevelPresent = true ↔
      s.receivedCode.dimLevelPresent = true ∨ DimFrameIn b s ds := by
  -- induction on the intervals: the flag is set by one of them and never cleared
  induction ds using List.reverseRecOn with
  | nil => simp [DimFrameIn]
  | append_singleton ds d ih =>
      rw [Mealy.final_concat, decode_dimLevelPresent, ih, or_assoc]
      refine or_congr_right ⟨?_, ?_⟩
      · rintro (⟨pre, e, post, rfl, hend⟩ | hend)
        · exact ⟨pre, e, post ++ [d], by simp, hend⟩
        · exact ⟨ds, d, [], rfl, hend⟩
      · rintro ⟨pre, e, post, heq, hend⟩
        rcases List.eq_nil_or_concat post with rfl | ⟨post, k, rfl⟩
        · -- the last interval ends the frame
          rcases List.append_inj' heq rfl with ⟨rfl, hlast⟩
          cases hlast
          exact Or.inr hend
        · refine Or.inl ⟨pre, e, post, ?_, hend⟩
          have hsplit : ds ++ [d] = (pre ++ e :: post) ++ [k] := by
            rw [heq]
            simp
          exact (List.append_inj' hsplit rfl).1

/-! ## Two histories -/

/-- A run from power-up that ends with a gap, for which the decoder waits, and twice the frame
`f`. -/
structure History (b : Board) (gap : ℕ) (f : List ℕ) where
  edge0 : ULong
  edge2 : ULong
  times : List ℕ
  before : List ℕ
  processed : (init 2 edge0 edge2).processed b (pulseDecoder b) times =
    before ++ gap :: (f ++ f)
  waiting : (Mealy.final (decode b) (init 2 edge0 edge2).decoder before).state = -1

namespace History

variable {gap : ℕ} {f : List ℕ} {y : Telegram}

def code (h : History b gap f) : Option Code :=
  (callbacks (Mealy.events (interruptHandler b) (init 2 h.edge0 h.edge2) h.times)).getLast?

def Dimmed (h : History b gap f) : Prop := DimFrameIn b (init 2 h.edge0 h.edge2).decoder h.before

/-- The callback gets what the frames say, and whether there was ever a frame with dim bits. -/
theorem code_eq (h : History b gap f) (hgap : 4800 < gap) (hf : IsFrame b (tune b gap) y f) :
    ∃ present, h.code = some (transmitted (tune b gap) present y) ∧
      (present = true ↔ h.Dimmed ∨ y.dim.isSome = true) := by
  rcases final_minRepeats (b := b) (s := (init 2 h.edge0 h.edge2).decoder) h.before with
    ⟨hrepeats, hcallback⟩
  refine ⟨(Mealy.final (decode b) (init 2 h.edge0 h.edge2).decoder
    h.before).receivedCode.dimLevelPresent || y.dim.isSome, ?_, ?_⟩
  · -- the gap, the first frame and the second frame
    rcases turn_gap (y := y) hgap rfl ⟨h.waiting, hrepeats, hcallback, rfl⟩ with ⟨hfirst, hquiet⟩
    rcases turn_first hf hfirst with ⟨hsecond, hsilent⟩
    have hlast := (turn_second hf hsecond).2
    rw [code, interruptHandler, Filtered.events_eq, h.processed,
      show (pulseDecoder b).decode = decode b from rfl, Mealy.events_append, Mealy.events_cons,
      hquiet, Mealy.events_append, callbacks_append, callbacks_append, callbacks_append, hsilent,
      hlast]
    simp
  · have hpresent := final_dimLevelPresent b (init 2 h.edge0 h.edge2).decoder h.before
    rw [Bool.or_eq_true, hpresent]
    have hfresh : (init 2 h.edge0 h.edge2).decoder.receivedCode.dimLevelPresent = false := rfl
    rw [hfresh]
    simp [Dimmed]

theorem present_eq_iff (h : History b gap f) {present : Bool}
    (hpresent : present = true ↔ h.Dimmed ∨ y.dim.isSome = true) :
    present = y.dim.isSome ↔ y.dim.isSome = true ∨ ¬h.Dimmed := by
  cases hsome : y.dim.isSome with
  | true => exact iff_of_true (hpresent.2 (Or.inr hsome)) (Or.inl rfl)
  | false =>
      rw [hsome] at hpresent
      rw [← Bool.not_eq_true, hpresent]
      simp

/-- Both histories end with the same code, whose `dimLevelPresent` tells whether the frames have
dim bits, exactly when they do or no frame before the gaps had. -/
theorem code_eq_code_iff (hgap : 4800 < gap) (hf : IsFrame b (tune b gap) y f)
    (h₁ h₂ : History b gap f) :
    (∃ c, h₁.code = some c ∧ h₂.code = some c ∧ c.dimLevelPresent = y.dim.isSome) ↔
      y.dim.isSome = true ∨ (¬h₁.Dimmed ∧ ¬h₂.Dimmed) := by
  rcases h₁.code_eq hgap hf with ⟨present₁, hcode₁, hdim₁⟩
  rcases h₂.code_eq hgap hf with ⟨present₂, hcode₂, hdim₂⟩
  have hiff₁ := h₁.present_eq_iff hdim₁
  have hiff₂ := h₂.present_eq_iff hdim₂
  rw [hcode₁, hcode₂]
  constructor
  · rintro ⟨c, heq₁, heq₂, hc⟩
    injection heq₁ with heq₁
    injection heq₂ with heq₂
    have hpresent₁ : present₁ = y.dim.isSome := by
      rw [← hc, ← heq₁]
      rfl
    have hpresent₂ : present₂ = y.dim.isSome := by
      rw [← hc, ← heq₂]
      rfl
    -- neither receiver may carry the flag over from a frame with a dim level
    rcases hiff₁.1 hpresent₁ with hsome | hdimmed₁
    · exact Or.inl hsome
    · rcases hiff₂.1 hpresent₂ with hsome | hdimmed₂
      · exact Or.inl hsome
      · exact Or.inr ⟨hdimmed₁, hdimmed₂⟩
  · intro hcond
    -- both receivers set the flag to what the frame says
    have hpresent₁ : present₁ = y.dim.isSome := hiff₁.2 (hcond.imp_right And.left)
    have hpresent₂ : present₂ = y.dim.isSome := hiff₂.2 (hcond.imp_right And.right)
    rw [hpresent₁, hpresent₂]
    exact ⟨transmitted (tune b gap) y.dim.isSome y, rfl, rfl, rfl⟩

/-! ### On after dim -/

/-- Unit 15 of address 1000, switched on or dimmed. -/
def onFrame : Telegram := (Command.unit (Fin.last 15) true).telegram 1000

def dimFrame : Telegram := (Command.dim (Fin.last 15) (Fin.last 15)).telegram 1000

def fresh : History .avr 10400 (widths (pulses 260 onFrame)) :=
  { edge0 := 0
    edge2 := 0
    times := stamps 0
      (10400 :: (widths (pulses 260 onFrame) ++ widths (pulses 260 onFrame) ++ [260]))
    before := [0]
    processed := by decide +kernel
    waiting := by decide +kernel }

def dimmed : History .avr 10400 (widths (pulses 260 onFrame)) :=
  { edge0 := 0
    edge2 := 0
    times := stamps 0 (10400 :: (widths (pulses 260 dimFrame) ++ widths (pulses 260 dimFrame) ++
      [260, 10400] ++ widths (pulses 260 onFrame) ++ widths (pulses 260 onFrame) ++ [260]))
    before := [0, 10400] ++ widths (pulses 260 dimFrame) ++ widths (pulses 260 dimFrame) ++ [260]
    processed := by decide +kernel
    waiting := by decide +kernel }

theorem code_eq_code_iff_example :
    (∃ c, fresh.code = some c ∧ fresh.code = some c ∧ c.dimLevelPresent = onFrame.dim.isSome) ↔
      onFrame.dim.isSome = true ∨ (¬fresh.Dimmed ∧ ¬fresh.Dimmed) :=
  code_eq_code_iff (by decide) (isFrame_pulses (fits_self .avr (by decide) (by decide)) onFrame)
    fresh fresh

/-- The two differ. -/
theorem code_ne_code : ¬∃ c, fresh.code = some c ∧ dimmed.code = some c ∧
    c.dimLevelPresent = onFrame.dim.isSome := by
  rintro ⟨c, hfresh, hdimmed, -⟩
  have hdiffer : fresh.code ≠ dimmed.code := by decide +kernel
  exact hdiffer (hfresh.trans hdimmed.symm)

end History

end Kaku
end LamPI
