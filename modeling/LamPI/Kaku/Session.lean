import LamPI.Kaku.Telegram
import LamPI.Library.Session

/-!
# KlikAanKlikUit sessions

Between two synchronisations the decoder reads frames back to back.  A part that comes where the
stop gap should loses it: the state leaves the range of the frame, and is only counted from then on.
-/

namespace LamPI
namespace Kaku

variable {b : Board} {q m : ℕ} {s : Decoder} {u : List ℕ}

/-! ## One interval in a frame -/

inductive InFrame (b : Board) (q : ℕ) : List ℕ → Decoder → Prop where
  | start {s : Decoder} (h : s.AtStart b q) : InFrame b q [] s
  | pulse {s : Decoder} {c : Code} {u : List ℕ} (h : s.InStart b q c) (hc : c.period = q)
      (hu : List.Forall₂ (Band b q) [.short] u) : InFrame b q u s
  | reading {s : Decoder} {c : Code} {ys : List Symbol} {ps : List Bool} {u : List ℕ}
      (h : s.Reading b q c ys ps) (hc : c.period = q)
      (hu : List.Forall₂ (Band b q) ([.short, .start] ++ (ys.flatMap parts ++ ps).map part) u) :
      InFrame b q u s

theorem InFrame.state_nonneg (h : InFrame b q u s) : 0 ≤ s.state := by
  cases h with
  | start h => exact h.state.ge
  | pulse h => exact h.state.ge.trans' (by decide)
  | reading h =>
      rw [h.state]
      exact Int.natCast_nonneg _

/-- A part while reading bits. -/
theorem decode_reading_part {c : Code} {ys : List Symbol} {ps : List Bool} {p : Bool} {d : ℕ}
    (h : s.Reading b q c ys ps) (hc : c.period = q)
    (hu : List.Forall₂ (Band b q) ([.short, .start] ++ (ys.flatMap parts ++ ps).map part) u)
    (hd : Band b q (part p) d) :
    (decode b s d).2 = none ∧ (decode b s d).1.filter = s.filter ∧
      ((decode b s d).1.state = -1 ∨ (decode b s d).1.state = 148 ∨
        InFrame b q (u ++ [d]) (decode b s d).1) := by
  have hstate := h.state
  have hlt := h.parts
  by_cases hps : ps.length < 3
  · by_cases hmore : s.state = 147
    · -- the stop pulse of a frame with dim bits, and no gap
      rw [decode_part_inner h hps hd]
      refine ⟨rfl, rfl, Or.inr (Or.inl ?_)⟩
      simp only
      omega
    · rcases decode_part_more h hps hmore hd with ⟨s', hdecode, hreading, hfilter⟩
      rw [hdecode]
      refine ⟨rfl, hfilter, Or.inr (Or.inr (InFrame.reading hreading hc ?_))⟩
      simpa using forall₂_snoc hu hd
  · -- the fourth part: a bit that this place admits, or rubbish
    by_cases hsymbol : ∃ y, ps ++ [p] = parts y ∧ Allowed ys.length y
    · rcases hsymbol with ⟨y, hy, hallowed⟩
      rcases decode_part_last h hy hallowed hd with ⟨s', hdecode, hreading, hfilter⟩
      rw [hdecode]
      refine ⟨rfl, hfilter, Or.inr (Or.inr (InFrame.reading hreading hc ?_))⟩
      simpa [← hy] using forall₂_snoc hu hd
    · have hbad : ∀ y, ps ++ [p] = parts y → ¬Allowed ys.length y :=
        fun y hy hallowed => hsymbol ⟨y, hy, hallowed⟩
      rcases decode_part_rubbish h (by omega) hbad hd with ⟨s', hdecode, hidle, hfilter⟩
      rw [hdecode]
      exact ⟨rfl, hfilter, Or.inl hidle⟩

/-- In a frame, an interval gives up, is read, or completes a well-formed frame; or the decoder is
lost. -/
theorem decode_inFrame (h : InFrame b q u s) (d : ℕ) :
    ((decode b s d).2 = none ∧ (decode b s d).1.filter = s.filter ∧
      ((decode b s d).1.state = -1 ∨ (decode b s d).1.state = 148 ∨
        InFrame b q (u ++ [d]) (decode b s d).1)) ∨
    ∃ c y, c.period = q ∧ IsFrame b q y (u ++ [d]) ∧
      (decode b s d).2 = some ((counted c s.filter y).completion (delivered c y)) ∧
      (decode b s d).1.Between b q (delivered c y) (counted c s.filter y) := by
  cases h with
  -- the high half of the start pulse
  | start h =>
      left
      by_cases hd : Band b q .short d
      · rcases (decode_startPulse h).1 hd with ⟨s', hdecode, hin, hfilter⟩
        rw [hdecode]
        exact ⟨rfl, hfilter, Or.inr (Or.inr
          (InFrame.pulse hin h.tuned.period (List.Forall₂.cons hd List.Forall₂.nil)))⟩
      · rcases (decode_startPulse h).2 hd with ⟨s', hdecode, hidle, hfilter⟩
        rw [hdecode]
        exact ⟨rfl, hfilter, Or.inl hidle⟩
  -- its low half
  | @pulse _ c _ h hc hu =>
      left
      by_cases hd : Band b q .start d
      · rcases (decode_startGap h).1 hd with ⟨s', hdecode, hreading, hfilter⟩
        rw [hdecode]
        exact ⟨rfl, hfilter, Or.inr (Or.inr (InFrame.reading hreading hc (forall₂_snoc hu hd)))⟩
      · rcases (decode_startGap h).2 hd with ⟨s', hdecode, hidle, hfilter⟩
        rw [hdecode]
        exact ⟨rfl, hfilter, Or.inl hidle⟩
  | @reading _ c ys ps _ h hc hu =>
      by_cases hpart : ∃ p, Band b q (part p) d
      · rcases hpart with ⟨p, hd⟩
        exact Or.inl (decode_reading_part h hc hu hd)
      · -- no part: the stop gap in its place, or nothing that belongs here
        by_cases hstop : Band b q .stop d ∧ ps = [false] ∧ (ys.length = 32 ∨ ys.length = 36)
        · rcases hstop with ⟨hd, rfl, hlen⟩
          right
          rcases exists_telegram h.allowed hlen with ⟨y, rfl⟩
          rcases decode_stop h hlen hd with ⟨s', hdecode, hbetween⟩
          rw [frameCode_symbols] at hdecode hbetween
          refine ⟨c, y, hc, ?_, ?_, ?_⟩
          · have hframe := forall₂_snoc hu hd
            rw [IsFrame, layout]
            simpa [part] using hframe
          · rw [hdecode]
            rfl
          · rw [hdecode]
            exact hbetween
        · left
          rcases decode_other h (fun p hp => hpart ⟨p, hp⟩) hstop with
            ⟨s', hdecode, hidle, hfilter⟩
          rw [hdecode]
          exact ⟨rfl, hfilter, Or.inl hidle⟩

/-! ## Codes and frames -/

/-- The frame says what the code says.  A frame without dim bits counts as dim level 0. -/
structure Encodes (c : Code) (y : Telegram) : Prop where
  address : c.address = y.address
  groupBit : c.groupBit = y.groupBit
  switchType : c.switchType = y.switchType
  unit : c.unit = y.unit
  dimLevel : c.dimLevel = dimValue y.dim
  dimLevelPresent : y.dim.isSome = true → c.dimLevelPresent = true

theorem encodes_delivered (c : Code) (y : Telegram) : Encodes (delivered c y) y :=
  ⟨rfl, rfl, rfl, rfl, rfl, fun h => by rw [delivered, h, Bool.or_true]⟩

/-- The comparison with `previousCode` covers all that a frame says. -/
theorem Encodes.of_same {c d : Code} {y : Telegram} (h : Encodes d y)
    (hsame : sameCode c d = true) : Encodes c y := by
  simp only [sameCode, Bool.and_eq_true, beq_iff_eq] at hsame
  rcases hsame with ⟨⟨⟨⟨⟨haddress, hunit⟩, hpresent⟩, hdim⟩, hgroup⟩, hswitch⟩
  exact ⟨haddress.trans h.address, hgroup.trans h.groupBit, hswitch.trans h.switchType,
    hunit.trans h.unit, hdim.trans h.dimLevel, fun hy => hpresent.trans (h.dimLevelPresent hy)⟩

theorem sameCode_symm {c d : Code} (h : sameCode c d = true) : sameCode d c = true := by
  simp only [sameCode, Bool.and_eq_true, beq_iff_eq] at h ⊢
  rcases h with ⟨⟨⟨⟨⟨h1, h2⟩, h3⟩, h4⟩, h5⟩, h6⟩
  exact ⟨⟨⟨⟨⟨h1.symm, h2.symm⟩, h3.symm⟩, h4.symm⟩, h5.symm⟩, h6.symm⟩

/-- The intervals `f` are a well-formed frame for the period `q` that says what `c` says. -/
def Carries (b : Board) (q : ℕ) (c : Code) (f : List ℕ) : Prop :=
  ∃ y, IsFrame b q y f ∧ Encodes c y

/-! ## The decoder as a machine with sessions -/

/-- The period that an accepted gap sets. -/
def tune (b : Board) (gap : ℕ) : ℕ := b.uint (gap / 40)

def Idle (s : Decoder) : Prop := s.state = -1

def Lost (s : Decoder) : Prop := s.state < -1 ∨ 148 ≤ s.state

/-- What every state keeps: `_state` is a `short`. -/
structure Sane (m : ℕ) (s : Decoder) : Prop where
  minRepeats : s.filter.minRepeats = m
  lower : -32768 ≤ s.state
  upper : s.state ≤ 32767

theorem sane_advance (h : s.filter.minRepeats = m) : Sane m (advance s).1 := by
  refine ⟨h, ?_, ?_⟩
  · have := Int.le_bmod (x := s.state + 1) (m := 65536) (by decide)
    simp only [advance]
    omega
  · have := Int.bmod_lt (x := s.state + 1) (m := 65536) (by decide)
    simp only [advance]
    omega

theorem decode_sane (h : Sane m s) (d : ℕ) : Sane m (decode b s d).1 := by
  have houtcome := decode_outcome b s d
  generalize decode b s d = r at houtcome ⊢
  cases houtcome with
  | idle => exact h
  | sync => exact sane_advance h.minRepeats
  | reset => exact ⟨h.minRepeats, (by decide : (-32768 : ℤ) ≤ -1), (by decide : (-1 : ℤ) ≤ 32767)⟩
  | advance => exact sane_advance h.minRepeats
  | complete hs rb =>
      refine ⟨RepeatFilter.count_minRepeats.trans h.minRepeats, ?_, ?_⟩
      · simp only [complete]
        split <;> omega
      · simp only [complete]
        split <;> omega

/-- A lost decoder is deaf: it counts until `_state` has wrapped to `-1`. -/
theorem decode_lost (hm : Sane m s) (h : Lost s) (d : ℕ) :
    (decode b s d).2 = none ∧ (Idle (decode b s d).1 ∨ Lost (decode b s d).1) := by
  have hlower := hm.lower
  have hupper := hm.upper
  have hcount : s.state < -1 ∨ 148 ≤ s.state → (∀ s' : Decoder, s'.state = s.state →
      (advance s').2 = none ∧ (Idle (advance s').1 ∨ Lost (advance s').1)) := by
    intro hlost s' hs'
    refine ⟨rfl, ?_⟩
    simp only [Idle, Lost, advance, hs']
    rcases hlost with hlow | hhigh
    · rw [Int.bmod_eq_of_le (by omega) (by omega)]
      omega
    · by_cases hmax : s.state = 32767
      · -- the `short` wraps
        rw [hmax]
        decide
      · rw [Int.bmod_eq_of_le (by omega) (by omega)]
        omega
  have houtcome := decode_outcome b s d
  generalize decode b s d = r at houtcome ⊢
  cases houtcome with
  | idle hs => exact absurd h (by rw [Lost, hs]; decide)
  | sync hs => exact absurd h (by rw [Lost, hs]; decide)
  | reset => exact ⟨rfl, Or.inl rfl⟩
  | advance => exact hcount h _ rfl
  | complete hs => exact absurd h (by rw [Lost]; omega)

/-- The frames since the gap end with `m` or more that carry the code of a callback. -/
def Backed (b : Board) (m q : ℕ) (frames : List (List ℕ)) (e : Completion Code) : Prop :=
  e.calledBack = true → e.code.period = q ∧ ∃ earlier last, frames = earlier ++ last ∧
    m ≤ last.length ∧ ∀ f ∈ last, Carries b q e.code f

/-- The counters after one more frame. -/
theorem counted_frame {f : RepeatFilter Code} {frames : List (List ℕ)} {c : Code} {y : Telegram}
    (h : f.Counted (Carries b q) frames) (hu : IsFrame b q y u) :
    (counted c f y).Counted (Carries b q) (frames ++ [u]) := by
  refine h.count ⟨y, hu, encodes_delivered c y⟩ fun hsame => ?_
  exact ⟨y, hu, (encodes_delivered c y).of_same (sameCode_symm hsame)⟩

theorem backed_frame {f : RepeatFilter Code} {frames : List (List ℕ)} {c : Code} {y : Telegram}
    (hm : f.minRepeats = m) (hc : c.period = q) (h : f.Counted (Carries b q) frames)
    (hu : IsFrame b q y u) :
    Backed b m q (frames ++ [u]) ((counted c f y).completion (delivered c y)) := by
  intro hcall
  have hreached : (counted c f y).reached = true := by
    rw [RepeatFilter.completion, Bool.and_eq_true] at hcall
    exact hcall.1
  have hself : sameCode (delivered c y) (delivered c y) = true := by simp [sameCode]
  have hsame : sameCode (delivered c y) (counted c f y).previousCode = true :=
    RepeatFilter.same_previousCode_count hself
  refine ⟨hc, (counted_frame h hu).backed hm hreached ?_⟩
  rintro x ⟨y', hframe, hencodes⟩
  exact ⟨y', hframe, hencodes.of_same hsame⟩

theorem decode_laws (b : Board) (m : ℕ) :
    Session.Laws (decode b) (Sane m) Idle Lost (fun d => 4800 < d) (tune b) (InFrame b)
      (fun q f => ∃ y, IsFrame b q y f) (fun q frames s => s.filter.Counted (Carries b q) frames)
      (Backed b m) := by
  refine ⟨fun s d h => decode_sane h d, ?_, ?_, fun s d hm h => decode_lost hm h d, ?_⟩
  -- a frame is not read in the idle state
  · intro q u s h hidle
    have hnonneg := h.state_nonneg
    rw [Idle] at hidle
    omega
  -- what begins a session is a sync gap
  · intro s d _ hidle
    by_cases hd : 4800 < d
    · rcases decode_sync (b := b) hidle hd with ⟨s', hdecode, hstart, hfilter, -⟩
      rw [hdecode]
      refine ⟨rfl, Or.inr ⟨hd, InFrame.start hstart, ?_⟩⟩
      exact RepeatFilter.counted_of_zero (by rw [hfilter])
    · rw [decode_idle hidle (Nat.le_of_not_lt hd)]
      exact ⟨rfl, Or.inl hidle⟩
  -- what continues it is a frame of the same period
  · intro q frames u s d hm hreading hcounted
    rcases decode_inFrame hreading d with ⟨hquiet, hfilter, hnext⟩ | ⟨c, y, hc, hframe, hout, hnext⟩
    · refine Or.inl ⟨hquiet, ?_⟩
      rcases hnext with hidle | hlost | hmore
      · exact Or.inl hidle
      · exact Or.inr (Or.inl (Or.inr hlost.ge))
      · exact Or.inr (Or.inr ⟨hmore, by rw [hfilter]; exact hcounted⟩)
    · refine Or.inr ⟨⟨y, hframe⟩, ?_, ?_⟩
      · intro e he
        rw [hout] at he
        cases he
        exact backed_frame hm.minRepeats hc hcounted hframe
      · cases hreached : (counted c s.filter y).reached with
        | true => exact Or.inl (hnext.idle hreached)
        | false =>
            refine Or.inr ⟨InFrame.start (hnext.reading hreached), ?_⟩
            rw [hnext.filter]
            exact counted_frame hcounted hframe

/-- Behind a callback with the code `c`, after the intervals `past`: a gap that the decoder waited
for, and since then well-formed frames back to back, of which the last `m` or more carry `c`. -/
def Genuine (b : Board) (s₀ : Decoder) (m : ℕ) (past : List ℕ) (c : Code) : Prop :=
  ∃ (before : List ℕ) (gap : ℕ) (earlier last : List (List ℕ)),
    Session.Since (decode b) Idle (fun d => 4800 < d) s₀ past before gap (earlier ++ last).flatten ∧
    (∀ f ∈ earlier ++ last, ∃ y, IsFrame b (tune b gap) y f) ∧ c.period = tune b gap ∧
    m ≤ last.length ∧ ∀ f ∈ last, Carries b (tune b gap) c f

theorem genuine_of_callback {s₀ : State} (hidle : s₀.decoder.state = -1) {times : List ℕ} {t : ℕ}
    {c : Code}
    (h : (interruptHandler b (Mealy.final (interruptHandler b) s₀ times) t).2 = some ⟨c, true⟩) :
    Genuine b s₀.decoder s₀.decoder.filter.minRepeats
      (s₀.processed b (pulseDecoder b) (times ++ [t])) c := by
  rcases Filtered.onEdge_last h with ⟨d, hprocessed, hdecode⟩
  have hsane : Sane s₀.decoder.filter.minRepeats s₀.decoder :=
    ⟨rfl, by rw [hidle]; decide, by rw [hidle]; decide⟩
  rcases (decode_laws b _).event hsane hidle hdecode with
    ⟨before, gap, frames, hsince, hframes, hbacked⟩
  rcases hbacked rfl with ⟨hperiod, earlier, last, rfl, hlen, hlast⟩
  rw [hprocessed]
  exact ⟨before, gap, earlier, last, hsince, hframes, hperiod, hlen, hlast⟩

end Kaku
end LamPI
