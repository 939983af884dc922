import LamPI.Remote.Transmitter

/-!
# Remote round trip

Of the copies that a transmission consists of, the receiver takes the gap after the first one for
its synchronisation, reads the next two, calls back, and waits for the next gap: one callback for
every three gaps.
-/

namespace LamPI
namespace Remote

open PulseLine BigEndian

variable {b : Board} {p : ℕ} {ts : List Trit} {s : Decoder}

/-! ## A telegram without errors -/

def dataWidths (p : ℕ) (ts : List Trit) : List ℕ := widths (ts.flatMap (tritPulses p))

theorem widths_pulses (p : ℕ) (ts : List Trit) :
    widths (pulses p ts) = dataWidths p ts ++ [p, p * 31] := by
  rw [pulses, widths_append]
  rfl

/-- The nominal durations lie in the bands of their period. -/
theorem band_nominal (b : Board) (hp : 121 ≤ p) (hp' : p ≤ 511) :
    Band b p .short p ∧ Band b p .long (p * 3) ∧ Band b p .gap (p * 31) := by
  have hu : ∀ {n : ℕ}, n < 65536 → b.uint n = n := fun h => b.uint_of_lt h
  unfold Band
  rw [hu (by omega), hu (by omega), hu (by omega), hu (by omega), hu (by omega)]
  exact ⟨by omega, ⟨by omega, by omega, by omega⟩, by omega, by omega⟩

theorem forall₂_dataWidths (b : Board) (hp : 121 ≤ p) (hp' : p ≤ 511) (ts : List Trit) :
    List.Forall₂ (Band b p) ((ts.flatMap parts).map part) (dataWidths p ts) := by
  rcases band_nominal b hp hp' with ⟨hshort, hlong, -⟩
  induction ts with
  | nil => exact List.Forall₂.nil
  | cons t ts ih =>
      have htrit : List.Forall₂ (Band b p) ((parts t).map part) (widths (tritPulses p t)) := by
        match t with
        | 0 => simp [parts, part, tritPulses, widths, hshort, hlong]
        | 1 => simp [parts, part, tritPulses, widths, hshort, hlong]
        | 2 => simp [parts, part, tritPulses, widths, hshort, hlong]
      have hsplit : dataWidths p (t :: ts) = widths (tritPulses p t) ++ dataWidths p ts := by
        rw [dataWidths, List.flatMap_cons, widths_append]
        rfl
      rw [hsplit, List.flatMap_cons, List.map_append]
      exact List.rel_append htrit ih

theorem isTelegram_pulses (b : Board) (hp : 121 ≤ p) (hp' : p ≤ 511) (hts : ts.length = 12) :
    IsTelegram b p ts (widths (pulses p ts)) := by
  rcases band_nominal b hp hp' with ⟨hshort, -, hgap⟩
  refine ⟨hts, ?_⟩
  rw [widths_pulses, layout, ← List.map_flatMap]
  exact List.rel_append (forall₂_dataWidths b hp hp' ts)
    (List.Forall₂.cons hshort (List.Forall₂.cons hgap List.Forall₂.nil))

theorem mem_dataWidths {d : ℕ} (hd : d ∈ dataWidths p ts) : d = p ∨ d = p * 3 := by
  rcases List.mem_flatMap.1 hd with ⟨q, hq, hd⟩
  rcases List.mem_flatMap.1 hq with ⟨t, -, hq⟩
  match t with
  | 0 => simp [tritPulses] at hq; subst hq; simpa using hd
  | 1 => simp [tritPulses] at hq; subst hq; simpa [or_comm] using hd
  | 2 =>
      simp [tritPulses] at hq
      rcases hq with rfl | rfl
      · simpa using hd
      · simpa [or_comm] using hd

/-! ## The copies of a transmission -/

/-- The states that the copies of a telegram go through: idle, and the decoder about to read a
telegram of the same transmission for the first or the second time. -/
def Turn (b : Board) (p : ℕ) (ts : List Trit) : ℕ → Decoder → Prop
  | 0, s => s.state = -1 ∧ s.filter.minRepeats = 2 ∧ s.filter.inCallback = false
  | 1, s => s.Reading b p [] [] ∧ s.filter.minRepeats = 2 ∧ s.filter.inCallback = false ∧
      s.filter.repeats = 0
  | _, s => s.Reading b p [] [] ∧ s.filter.minRepeats = 2 ∧ s.filter.inCallback = false ∧
      s.filter.repeats = 1 ∧ s.filter.previousCode = value ts

/-- Nothing but a gap ends the waiting. -/
theorem run_idle (hs : s.state = -1) {w : List ℕ} (hw : ∀ d ∈ w, d ≤ 3720) :
    Mealy.final (decode b) s w = s ∧ Mealy.events (decode b) s w = [] := by
  induction w with
  | nil => exact ⟨rfl, rfl⟩
  | cons d w ih =>
      have hidle := decode_idle (b := b) hs (hw d (by simp))
      rw [Mealy.final_cons, Mealy.events_cons, hidle]
      exact ih (fun x hx => hw x (by simp [hx]))

theorem turn_sync (hp : 121 ≤ p) (hp' : p ≤ 511) (hs : Turn b p ts 0 s) :
    Turn b p ts 1 (Mealy.final (decode b) s (widths (pulses p ts))) ∧
      callbacks (Mealy.events (decode b) s (widths (pulses p ts))) = [] := by
  rcases hs with ⟨hstate, hrepeats, hcallback⟩
  -- no data interval is a sync gap for a decoder that waits
  have hdata : ∀ d ∈ dataWidths p ts ++ [p], d ≤ 3720 := by
    intro d hd
    rcases List.mem_append.1 hd with hd | hd
    · rcases mem_dataWidths hd with rfl | rfl <;> omega
    · rw [List.mem_singleton.1 hd]
      omega
  rcases run_idle (b := b) hstate hdata with ⟨hsame, hquiet⟩
  rcases decode_sync (b := b) (d := p * 31) hstate (by omega) with
    ⟨s', hsync, hreading, hfilter⟩
  have hperiod : b.uint (p * 31 / 31) = p := by
    rw [Nat.mul_div_cancel _ (by decide)]
    exact b.uint_of_lt (by omega)
  -- only the last interval of a telegram synchronises
  have hsplit : widths (pulses p ts) = (dataWidths p ts ++ [p]) ++ [p * 31] := by
    rw [widths_pulses, List.append_assoc]
    rfl
  rw [hperiod] at hreading
  rw [hsplit, Mealy.final_append, Mealy.events_append, hsame, hquiet, Mealy.final_cons,
    Mealy.events_cons, hsync]
  exact ⟨⟨hreading, by rw [Mealy.final_nil, hfilter]; exact hrepeats,
    by rw [Mealy.final_nil, hfilter]; exact hcallback, by rw [Mealy.final_nil, hfilter]⟩, rfl⟩

theorem turn_first (hp : 121 ≤ p) (hp' : p ≤ 511) (hts : ts.length = 12)
    (hs : Turn b p ts 1 s) :
    Turn b p ts 2 (Mealy.final (decode b) s (widths (pulses p ts))) ∧
      callbacks (Mealy.events (decode b) s (widths (pulses p ts))) = [] := by
  rcases hs with ⟨hreading, hrepeats, hcallback, hzero⟩
  rcases run_telegram hreading (isTelegram_pulses b hp hp' hts) with ⟨hbetween, hevents⟩
  have hsame : (value ts == (s.filter.count (· == ·) (value ts)).previousCode) = true :=
    RepeatFilter.same_previousCode_count (beq_self_eq_true _)
  have hmore : (s.filter.count (· == ·) (value ts)).reached = false :=
    RepeatFilter.not_reached_count hrepeats hzero
  have hfilter := hbetween.filter
  constructor
  · refine ⟨hbetween.reading hmore, ?_, ?_, ?_, ?_⟩
    · rw [hfilter, RepeatFilter.count_minRepeats, hrepeats]
    · rw [hfilter, RepeatFilter.count_inCallback, hcallback]
    · rw [hfilter, RepeatFilter.repeats_count hzero]
    · rw [hfilter]
      exact (beq_iff_eq.1 hsame).symm
  · rw [hevents]
    simp [callbacks, completion, RepeatFilter.completion, hmore]

theorem turn_second (hp : 121 ≤ p) (hp' : p ≤ 511) (hts : ts.length = 12)
    (hs : Turn b p ts 2 s) :
    Turn b p ts 0 (Mealy.final (decode b) s (widths (pulses p ts))) ∧
      callbacks (Mealy.events (decode b) s (widths (pulses p ts))) = [⟨value ts, p⟩] := by
  rcases hs with ⟨hreading, hrepeats, hcallback, hone, hprevious⟩
  rcases run_telegram hreading (isTelegram_pulses b hp hp' hts) with ⟨hbetween, hevents⟩
  have hsame : (value ts == s.filter.previousCode) = true := by rw [hprevious, beq_self_eq_true]
  have hreached : (s.filter.count (· == ·) (value ts)).reached = true :=
    RepeatFilter.reached_count hrepeats hone hsame
  have hfilter := hbetween.filter
  constructor
  · refine ⟨hbetween.idle hreached, ?_, ?_⟩
    · rw [hfilter, RepeatFilter.count_minRepeats, hrepeats]
    · rw [hfilter, RepeatFilter.count_inCallback, hcallback]
  · rw [hevents]
    simp [callbacks, codes, completion, RepeatFilter.completion, hreached, hcallback]

/-- A telegram that breaks off before its synchronisation pulse calls nobody. -/
theorem turn_broken (hp : 121 ≤ p) (hp' : p ≤ 511) (hts : ts.length = 12) (n : ℕ)
    (hs : Turn b p ts n s) : Mealy.events (decode b) s (dataWidths p ts) = [] := by
  have hquiet : s.Reading b p [] [] → Mealy.events (decode b) s (dataWidths p ts) = [] :=
    fun hreading => (run_trits hreading hts (forall₂_dataWidths b hp hp' ts)).2.1
  match n, hs with
  | 0, hs =>
      refine (run_idle hs.1 ?_).2
      intro d hd
      rcases mem_dataWidths hd with rfl | rfl <;> omega
  | 1, hs => exact hquiet hs.1
  | n + 2, hs => exact hquiet hs.1

theorem callbacks_transmission (hp : 121 ≤ p) (hp' : p ≤ 511) (hts : ts.length = 12)
    (hs : Turn b p ts 0 s) (n : ℕ) :
    callbacks (Mealy.events (decode b) s
        ((List.replicate n (widths (pulses p ts))).flatten ++ dataWidths p ts)) =
      List.replicate (n / 3) ⟨value ts, p⟩ := by
  rcases callbacks_copies (A := Turn b p ts) (w := widths (pulses p ts)) (c := ⟨value ts, p⟩)
    (fun s h => turn_sync hp hp' h) (fun s h => turn_first hp hp' hts h)
    (fun s h => turn_second hp hp' hts h) hs n with ⟨hturn, hcalls⟩
  rw [Mealy.events_append, callbacks_append, hcalls, turn_broken hp hp' hts _ hturn]
  simp

/-! ## Through the low-pass filter -/

/-- Once it is synchronised, the decoder leaves the filter's threshold alone. -/
theorem decode_min1Period (hne : s.state ≠ -1) (d : ℕ) :
    (decode b s d).1.min1Period = s.min1Period := by
  have houtcome := decode_outcome b s d
  generalize decode b s d = r at houtcome ⊢
  cases houtcome with
  | idle hs => rfl
  | sync hs => exact absurd hs hne
  | reset => rfl
  | advance => rfl
  | complete =>
      simp only [complete]
      split <;> rfl

def Open (p : ℕ) (s : Decoder) : Prop := s.state ≠ -1 → s.min1Period ≤ p

theorem open_decode (hp' : p ≤ 511) {d : ℕ} (hd : d ≤ 3720 ∨ d = p * 31) (h : Open p s) :
    Open p (decode b s d).1 := by
  by_cases hs : s.state = -1
  · by_cases hsync : 3720 < d
    · have hgap : d = p * 31 := by omega
      have hperiod : b.uint (p * 31 / 31) = p := by
        rw [Nat.mul_div_cancel _ (by decide)]
        exact b.uint_of_lt (by omega)
      rcases decode_sync (b := b) (d := d) hs hsync with ⟨s', hdecode, hreading, -⟩
      rw [hgap, hperiod] at hreading
      rw [hdecode]
      intro _
      rw [hreading.tuned.min1Period, b.uint_of_lt (by omega)]
      omega
    · rw [decode_idle hs (Nat.le_of_not_lt hsync)]
      exact h
  · intro _
    rw [decode_min1Period hs]
    exact h hs

/-- The delays between the edges of a transmission of `n + 1` copies. -/
theorem edges_sendTelegram (b : Board) {p r : ℕ} (hp : p < 2 ^ 9) (hr : r < 2 ^ 3)
    (hts : ts.length = 12) (t : ℕ) :
    edges ⟨LOW, t⟩ (sendTelegram b (encodeTelegram ⟨p, r⟩ (ts.map Fin.val))) =
      stamps t (0 :: ((List.replicate (2 ^ r - 1) (widths (pulses p ts))).flatten ++
        (dataWidths p ts ++ [p]))) := by
  have hcopies : 2 ^ r = (2 ^ r - 1) + 1 := by
    have := Nat.one_le_two_pow (n := r)
    omega
  have hlast : (List.replicate (2 ^ r) (widths (pulses p ts))).flatten =
      ((List.replicate (2 ^ r - 1) (widths (pulses p ts))).flatten ++ (dataWidths p ts ++ [p])) ++
        [p * 31] := by
    rw [hcopies, List.replicate_succ', List.flatten_append, Nat.add_sub_cancel, List.append_assoc]
    congr 1
    rw [List.flatten_singleton, widths_pulses, List.append_assoc]
    rfl
  rw [sendTelegram_eq b hp hr hts, edges_train, widths_replicate, hlast, ← List.cons_append,
    List.dropLast_concat]

/-- The intervals of a transmission without its last gap. -/
theorem mem_transmission {n d : ℕ}
    (hd : d ∈ (List.replicate n (widths (pulses p ts))).flatten ++ dataWidths p ts ++ [p]) :
    d = p ∨ d = p * 3 ∨ d = p * 31 := by
  have hdata : d ∈ dataWidths p ts → d = p ∨ d = p * 3 ∨ d = p * 31 := by
    intro hd
    rcases mem_dataWidths hd with h | h
    · exact Or.inl h
    · exact Or.inr (Or.inl h)
  rcases List.mem_append.1 hd with hd | hd
  · rcases List.mem_append.1 hd with hd | hd
    · rcases List.mem_flatten.1 hd with ⟨w, hw, hd⟩
      rw [List.eq_of_mem_replicate hw, widths_pulses, List.mem_append] at hd
      rcases hd with hd | hd
      · exact hdata hd
      · simp only [List.mem_cons, List.not_mem_nil, or_false] at hd
        rcases hd with h | h
        · exact Or.inl h
        · exact Or.inr (Or.inr h)
    · exact hdata hd
  · exact Or.inl (List.mem_singleton.1 hd)

/-- No pulse is shorter than a period, so that the filter lets every edge of a transmission pass. -/
theorem events_transmission {s : State} {t n : ℕ} (hp : 121 ≤ p) (hp' : p ≤ 511)
    (henabled : s.enabled = true) (hstate : s.decoder.state = -1) (hskip : s.lowPass.skip = false)
    (hpending : b.uint (s.lowPass.edge2 - s.lowPass.edge0).toNat ≤ 3720)
    (hpause : b.uint (micros t - s.lowPass.edge2).toNat ≤ 3720) :
    Mealy.events (interruptHandler b) s (stamps t
        (0 :: ((List.replicate n (widths (pulses p ts))).flatten ++ dataWidths p ts ++ [p]))) =
      Mealy.events (decode b) s.decoder
        ((List.replicate n (widths (pulses p ts))).flatten ++ dataWidths p ts) := by
  -- no interval is shorter than what the filter lets through
  refine Filtered.events_first (D := pulseDecoder b) (I := Open p) (m := p) henabled hskip
    (decide_eq_false (by rw [hstate]; decide)) (fun h => absurd hstate h) ?_
    (decode_idle hstate hpending) (decode_idle hstate hpause) ?_ ?_
  · intro dec h hactive
    have hnonneg : 0 ≤ dec.state := of_decide_eq_true hactive
    exact h (by omega)
  -- every interval is short, or the gap between two telegrams
  · intro dec d hd h
    refine open_decode hp' ?_ h
    rcases List.mem_cons.1 hd with rfl | hd
    · exact Or.inl hpause
    · rcases mem_transmission hd with rfl | rfl | rfl
      · exact Or.inl (by omega)
      · exact Or.inl (by omega)
      · exact Or.inr rfl
  · intro d hd
    rcases mem_transmission hd with rfl | rfl | rfl <;> omega

/-- A transmission to an idle receiver that has measured no gap: one callback for every three
gaps. -/
theorem callbacks_sendTelegram {s : State} {r t : ℕ} (hp : 121 ≤ p) (hp' : p ≤ 511) (hr : r ≤ 7)
    (hts : ts.length = 12) (henabled : s.enabled = true) (hstate : s.decoder.state = -1)
    (hrepeats : s.decoder.filter.minRepeats = 2) (hcallback : s.decoder.filter.inCallback = false)
    (hskip : s.lowPass.skip = false)
    (hpending : b.uint (s.lowPass.edge2 - s.lowPass.edge0).toNat ≤ 3720)
    (hpause : b.uint (micros t - s.lowPass.edge2).toNat ≤ 3720) :
    callbacks (Mealy.events (interruptHandler b) s
        (edges ⟨LOW, t⟩ (sendTelegram b (encodeTelegram ⟨p, r⟩ (ts.map Fin.val))))) =
      List.replicate ((2 ^ r - 1) / 3) ⟨value ts, p⟩ := by
  rw [edges_sendTelegram b (by omega) (by omega) hts, ← List.append_assoc,
    events_transmission hp hp' henabled hstate hskip hpending hpause]
  exact callbacks_transmission hp hp' hts ⟨hstate, hrepeats, hcallback⟩ _

/-- The gap of one telegram and two more: four telegrams are enough for a callback. -/
theorem copies_pos {r : ℕ} (hr : 2 ≤ r) : 0 < (2 ^ r - 1) / 3 := by
  have hpow : 2 ^ 2 ≤ 2 ^ r := Nat.pow_le_pow_right Nat.two_pos hr
  exact Nat.div_pos (by omega) (by decide)

/-- The same if the receiver may be about to drop the first edge. -/
theorem callbacks_sendTelegram_quiet {s : State} {r t : ℕ} (hp : 121 ≤ p) (hp' : p ≤ 511)
    (hr : r ≤ 7) (hts : ts.length = 12) (henabled : s.enabled = true)
    (hstate : s.decoder.state = -1) (hrepeats : s.decoder.filter.minRepeats = 2)
    (hcallback : s.decoder.filter.inCallback = false)
    (hquiet : ∀ d ∈ s.untilPulse b t, d ≤ 3720) :
    callbacks (Mealy.events (interruptHandler b) s
        (edges ⟨LOW, t⟩ (sendTelegram b (encodeTelegram ⟨p, r⟩ (ts.map Fin.val))))) =
      List.replicate ((2 ^ r - 1) / 3) ⟨value ts, p⟩ := by
  -- the filter may still be waiting for the edge that ends a glitch
  unfold Filtered.untilPulse at hquiet
  cases hskip : s.lowPass.skip with
  | false =>
      simp only [hskip, Bool.false_eq_true, if_false] at hquiet
      exact callbacks_sendTelegram hp hp' hr hts henabled hstate hrepeats hcallback hskip
        (hquiet _ List.mem_cons_self) (hquiet _ (List.mem_cons_of_mem _ List.mem_cons_self))
  | true =>
      simp only [hskip, if_true] at hquiet
      -- that edge leaves the decoder idle, and the telegram follows it
      have hinactive : (pulseDecoder b).active s.decoder = false :=
        decide_eq_false (by rw [hstate]; decide)
      have hzero : decode b s.decoder 0 = (s.decoder, none) := decode_idle hstate (Nat.zero_le _)
      have hpending : b.uint (s.passing.lowPass.edge2 - s.passing.lowPass.edge0).toNat ≤ 3720 := by
        rw [Filtered.passing, BitVec.sub_self]
        exact (Nat.mod_le 0 _).trans (Nat.zero_le _)
      have hpassing := callbacks_sendTelegram (s := s.passing) (r := r) (t := t) hp hp' hr hts
        henabled hstate hrepeats hcallback rfl hpending (hquiet _ List.mem_cons_self)
      rw [edges_sendTelegram b (by omega) (by omega) hts, stamps_cons] at hpassing ⊢
      rw [interruptHandler, Filtered.events_passing henabled hskip hinactive hzero]
      exact hpassing

end Remote
end LamPI
