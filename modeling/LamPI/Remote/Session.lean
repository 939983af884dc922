import LamPI.Remote.Receiver
import LamPI.Library.Session

/-!
# Remote sessions

Between two synchronisations the decoder reads telegrams back to back.
-/

namespace LamPI
namespace Remote

open BigEndian

variable {b : Board} {q m : ℕ} {s : Decoder} {u : List ℕ}

/-! ## One interval in a telegram -/

inductive InTelegram (b : Board) (q : ℕ) : List ℕ → Decoder → Prop where
  | reading {s : Decoder} {ts : List Trit} {ps : List Bool} {u : List ℕ}
      (h : s.Reading b q ts ps)
      (hu : List.Forall₂ (Band b q) ((ts.flatMap parts ++ ps).map part) u) : InTelegram b q u s
  | awaiting {s : Decoder} {ts : List Trit} {u : List ℕ} (h : s.AwaitingGap b q ts)
      (hu : List.Forall₂ (Band b q) ((ts.flatMap parts).map part ++ [.short]) u) :
      InTelegram b q u s

/-- In a telegram, an interval gives up, is read, or completes a well-formed telegram. -/
theorem decode_inTelegram (h : InTelegram b q u s) (d : ℕ) :
    ((decode b s d).2 = none ∧ (decode b s d).1.filter = s.filter ∧
      ((decode b s d).1.state = -1 ∨ InTelegram b q (u ++ [d]) (decode b s d).1)) ∨
    ∃ ts, IsTelegram b q ts (u ++ [d]) ∧ (decode b s d).2 = some (completion s.filter q ts) ∧
      (decode b s d).1.Between b q (s.filter.count (· == ·) (value ts)) := by
  -- whatever does not belong there resets the decoder
  have hgiveUp : ∀ s', decode b s d = (s', none) → s'.state = -1 → s'.filter = s.filter →
      (decode b s d).2 = none ∧ (decode b s d).1.filter = s.filter ∧
        ((decode b s d).1.state = -1 ∨ InTelegram b q (u ++ [d]) (decode b s d).1) := by
    intro s' hdecode hidle hfilter
    rw [hdecode]
    exact ⟨rfl, hfilter, Or.inl hidle⟩
  cases h with
  | @reading _ ts ps _ h hu =>
      left
      by_cases hts : ts.length < 12
      · by_cases hpart : ∃ p, Band b q (part p) d
        · rcases hpart with ⟨p, hd⟩
          by_cases hps : ps.length < 3
          · rcases decode_part_inner h hts hps hd with ⟨s', hdecode, hreading, hfilter⟩
            rw [hdecode]
            refine ⟨rfl, hfilter, Or.inr (InTelegram.reading hreading ?_)⟩
            simpa using forall₂_snoc hu hd
          · -- the fourth part: a trit, or rubbish
            have hlt := h.parts
            by_cases htrit : ∃ t, ps ++ [p] = parts t
            · rcases htrit with ⟨t, ht⟩
              rcases decode_part_last h hts ht hd with ⟨s', hdecode, hreading, hfilter⟩
              rw [hdecode]
              refine ⟨rfl, hfilter, Or.inr (InTelegram.reading hreading ?_)⟩
              simpa [← ht] using forall₂_snoc hu hd
            · rcases decode_part_rubbish h hts (by omega) (fun t ht => htrit ⟨t, ht.symm⟩) hd with
                ⟨s', hdecode, hidle, hfilter⟩
              exact hgiveUp s' hdecode hidle hfilter
        · rcases decode_no_part h hts (fun p hp => hpart ⟨p, hp⟩) with
            ⟨s', hdecode, hidle, hfilter⟩
          exact hgiveUp s' hdecode hidle hfilter
      · -- all trits are there: the synchronisation pulse is due
        have hlen : ts.length = 12 := by
          have htrits := h.trits
          omega
        have hps : ps = [] := h.whole hlen
        subst hps
        by_cases hd : Band b q .short d
        · rcases (decode_pulse h hlen).1 hd with ⟨s', hdecode, hawaiting, hfilter⟩
          rw [hdecode]
          refine ⟨rfl, hfilter, Or.inr (InTelegram.awaiting hawaiting ?_)⟩
          rw [List.append_nil] at hu
          exact forall₂_snoc hu hd
        · rcases (decode_pulse h hlen).2 hd with ⟨s', hdecode, hidle, hfilter⟩
          exact hgiveUp s' hdecode hidle hfilter
  -- the gap completes the telegram
  | @awaiting _ ts _ h hu =>
      by_cases hd : Band b q .gap d
      · right
        rcases (decode_gap h).1 hd with ⟨s', hdecode, hbetween⟩
        rw [hdecode]
        refine ⟨ts, ⟨h.trits, ?_⟩, rfl, hbetween⟩
        have htelegram := forall₂_snoc hu hd
        rw [layout, ← List.map_flatMap]
        simpa using htelegram
      · rcases (decode_gap h).2 hd with ⟨s', hdecode, hidle, hfilter⟩
        exact Or.inl (hgiveUp s' hdecode hidle hfilter)

/-! ## The decoder as a machine with sessions -/

def tune (b : Board) (gap : ℕ) : ℕ := b.uint (gap / 31)

def Idle (s : Decoder) : Prop := s.state = -1

/-- The intervals `f` are a well-formed telegram for the period `q` whose value is `code`. -/
def Carries (b : Board) (q code : ℕ) (f : List ℕ) : Prop :=
  ∃ ts, IsTelegram b q ts f ∧ value ts = code

/-- The telegrams since the gap end with `m` or more that carry the code of a callback. -/
def Backed (b : Board) (m q : ℕ) (telegrams : List (List ℕ)) (e : Completion Received) : Prop :=
  e.calledBack = true → e.code.period = q ∧ ∃ earlier last, telegrams = earlier ++ last ∧
    m ≤ last.length ∧ ∀ f ∈ last, Carries b q e.code.code f

/-- The counters after one more telegram. -/
theorem counted_telegram {f : RepeatFilter ℕ} {telegrams : List (List ℕ)} {ts : List Trit}
    (h : f.Counted (Carries b q) telegrams) (hu : IsTelegram b q ts u) :
    (f.count (· == ·) (value ts)).Counted (Carries b q) (telegrams ++ [u]) := by
  refine h.count ⟨ts, hu, rfl⟩ fun hsame => ?_
  exact ⟨ts, hu, beq_iff_eq.1 hsame⟩

theorem backed_telegram {f : RepeatFilter ℕ} {telegrams : List (List ℕ)} {ts : List Trit}
    (hm : f.minRepeats = m) (h : f.Counted (Carries b q) telegrams) (hu : IsTelegram b q ts u) :
    Backed b m q (telegrams ++ [u]) (completion f q ts) := by
  intro hcall
  have hreached : (f.count (· == ·) (value ts)).reached = true := by
    rw [completion, RepeatFilter.completion, Bool.and_eq_true] at hcall
    exact hcall.1
  have hself : (value ts == value ts) = true := beq_self_eq_true _
  have hsame : (value ts == (f.count (· == ·) (value ts)).previousCode) = true :=
    RepeatFilter.same_previousCode_count hself
  refine ⟨rfl, (counted_telegram h hu).backed hm hreached ?_⟩
  rintro x ⟨ts', htelegram, hvalue⟩
  exact ⟨ts', htelegram, hvalue.trans (beq_iff_eq.1 hsame).symm⟩

theorem decode_minRepeats (b : Board) (s : Decoder) (d : ℕ) :
    (decode b s d).1.filter.minRepeats = s.filter.minRepeats := by
  have houtcome := decode_outcome b s d
  generalize decode b s d = r at houtcome ⊢
  cases houtcome with
  | idle => rfl
  | sync => rfl
  | reset => rfl
  | advance => rfl
  | complete =>
      simp only [complete]
      split <;> exact RepeatFilter.count_minRepeats

theorem decode_laws (b : Board) (m : ℕ) :
    Session.Laws (decode b) (fun s => s.filter.minRepeats = m) Idle (fun _ => False)
      (fun d => 3720 < d) (tune b) (InTelegram b) (fun q f => ∃ ts, IsTelegram b q ts f)
      (fun q telegrams s => s.filter.Counted (Carries b q) telegrams) (Backed b m) := by
  refine ⟨fun s d h => (decode_minRepeats b s d).trans h, ?_, ?_, fun _ _ _ h => h.elim, ?_⟩
  -- a telegram is not read in the idle state
  · intro q u s h hidle
    rw [Idle] at hidle
    cases h with
    | reading h =>
        have hstate := h.state
        omega
    | awaiting h =>
        have hstate := h.state
        omega
  -- what begins a session is a sync gap
  · intro s d _ hidle
    by_cases hd : 3720 < d
    · rcases decode_sync (b := b) hidle hd with ⟨s', hdecode, hreading, hfilter⟩
      rw [hdecode]
      refine ⟨rfl, Or.inr ⟨hd, InTelegram.reading hreading List.Forall₂.nil, ?_⟩⟩
      exact RepeatFilter.counted_of_zero (by rw [hfilter])
    · rw [decode_idle hidle (Nat.le_of_not_lt hd)]
      exact ⟨rfl, Or.inl hidle⟩
  -- what continues it is a telegram of the same period
  · intro q telegrams u s d hm hreading hcounted
    rcases decode_inTelegram hreading d with ⟨hquiet, hfilter, hnext⟩ | ⟨ts, htelegram, hout, hnext⟩
    · refine Or.inl ⟨hquiet, ?_⟩
      rcases hnext with hidle | hmore
      · exact Or.inl hidle
      · exact Or.inr (Or.inr ⟨hmore, by rw [hfilter]; exact hcounted⟩)
    · refine Or.inr ⟨⟨ts, htelegram⟩, ?_, ?_⟩
      · intro e he
        rw [hout] at he
        cases he
        exact backed_telegram hm hcounted htelegram
      · cases hreached : (s.filter.count (· == ·) (value ts)).reached with
        | true => exact Or.inl (hnext.idle hreached)
        | false =>
            refine Or.inr ⟨InTelegram.reading (hnext.reading hreached) List.Forall₂.nil, ?_⟩
            rw [hnext.filter]
            exact counted_telegram hcounted htelegram

/-- Behind a callback with the code `c`, after the intervals `past`: a gap that the decoder waited
for, and since then well-formed telegrams back to back, of which the last `m` or more carry `c`. -/
def Genuine (b : Board) (s₀ : Decoder) (m : ℕ) (past : List ℕ) (c : Received) : Prop :=
  ∃ (before : List ℕ) (gap : ℕ) (earlier last : List (List ℕ)),
    Session.Since (decode b) Idle (fun d => 3720 < d) s₀ past before gap (earlier ++ last).flatten ∧
    (∀ f ∈ earlier ++ last, ∃ ts, IsTelegram b (tune b gap) ts f) ∧ c.period = tune b gap ∧
    m ≤ last.length ∧ ∀ f ∈ last, Carries b (tune b gap) c.code f

theorem genuine_of_callback {s₀ : State} (hidle : s₀.decoder.state = -1) {times : List ℕ} {t : ℕ}
    {c : Received}
    (h : (interruptHandler b (Mealy.final (interruptHandler b) s₀ times) t).2 = some ⟨c, true⟩) :
    Genuine b s₀.decoder s₀.decoder.filter.minRepeats
      (s₀.processed b (pulseDecoder b) (times ++ [t])) c := by
  rcases Filtered.onEdge_last h with ⟨d, hprocessed, hdecode⟩
  rcases (decode_laws b _).event rfl hidle hdecode with
    ⟨before, gap, telegrams, hsince, htelegrams, hbacked⟩
  rcases hbacked rfl with ⟨hperiod, earlier, last, rfl, hlen, hlast⟩
  rw [hprocessed]
  exact ⟨before, gap, earlier, last, hsince, htelegrams, hperiod, hlen, hlast⟩

end Remote
end LamPI
