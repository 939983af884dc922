import LamPI.Livolo.Acceptance
import LamPI.Remote.RoundTrip

/-!
# Action telegrams at the Livolo receiver

At periods up to 133 µs the long pulse of a trit is a 1 to the Livolo decoder, above that it is too
long for a bit, and from 147 µs on it is a start pulse.  In no case does a frame get further than a
few half bits.
-/

namespace LamPI
namespace Livolo

open PulseLine
open Remote (Trit tritPulses pulses dataWidths widths_pulses mem_dataWidths value sendCode)

variable {b : Board} {s : Decoder} {p d : ℕ} {n : ℤ}

def Below (n : ℤ) (s : Decoder) : Prop := -1 ≤ s.state ∧ s.state ≤ n

/-- The interval was read without completing a frame, and left the decoder at most in state `n`. -/
def Quiet (n : ℤ) (r : Decoder × Option (Completion Code)) : Prop := Below n r.1 ∧ r.2 = none

/-! ## One pulse -/

/-- A short pulse is half a bit. -/
theorem quiet_short (hs : Below n s) (hn : n < 45) (hlo : min1Period ≤ d) (hhi : d ≤ min3Period) :
    Quiet (n + 1) (decode b s d) := by
  rcases hs with ⟨hge, hle⟩
  have hu : b.uint d = d := b.uint_of_lt (by unfold min3Period at hhi; omega)
  by_cases hidle : s.state = -1
  · -- not a start pulse
    rw [decode_idle hidle (by rw [hu]; unfold min3Period at hhi; omega)]
    exact ⟨⟨hge, hle.trans (Int.le_add_one le_rfl)⟩, rfl⟩
  · obtain ⟨j, hj⟩ : ∃ j : ℕ, s.state = j :=
      ⟨s.state.toNat, (Int.toNat_of_nonneg (by omega)).symm⟩
    have hmax : d ≤ max3Period := by unfold min3Period at hhi; unfold max3Period; omega
    have hnext : ∀ t : Decoder, t.state = s.state → Quiet (n + 1) (advance t) := by
      intro t ht
      have hne : t.state + 1 ≠ 46 := by omega
      rw [advance, close, if_neg hne]
      exact ⟨⟨by simp only; omega, by simp only; omega⟩, rfl⟩
    rw [decode_eq hj (by omega) hlo hmax, decodeBit, if_neg (Nat.not_lt.2 hhi)]
    split
    · split
      · exact ⟨⟨le_rfl, by simp only [Decoder.reset]; omega⟩, rfl⟩
      · exact hnext _ rfl
    · exact hnext _ rfl

/-- Whatever a waiting decoder gets is a start pulse at most. -/
theorem quiet_waiting (hs : s.state = -1) (d : ℕ) : Quiet 0 (decode b s d) := by
  by_cases hstart : 440 < b.uint d ∧ b.uint d < 600
  · rcases decode_start hs hstart.1 hstart.2 with ⟨⟨hstate, -, -⟩, hquiet⟩
    exact ⟨⟨by omega, by omega⟩, hquiet⟩
  · rw [decode_idle hs hstart]
    exact ⟨⟨hs.ge, hs.le.trans (by decide)⟩, rfl⟩

/-- A pulse that is too long for a bit ends the frame, and is a start pulse at most. -/
theorem quiet_pause (hs : Below n s) (hlo : max3Period < d) : Quiet 0 (decode b s d) := by
  by_cases hidle : s.state = -1
  · exact quiet_waiting hidle d
  · rcases hs with ⟨hge, hle⟩
    rw [decode_outside (by unfold Decoder.Within; omega) (by omega)]
    exact ⟨⟨le_rfl, by simp [Decoder.reset]⟩, rfl⟩

/-- The gap between two telegrams is no start pulse either. -/
theorem quiet_gap (hs : Below n s) (hlo : 600 ≤ d) (hhi : d < 65536) :
    Quiet (-1) (decode b s d) := by
  have hu : b.uint d = d := b.uint_of_lt hhi
  rcases hs with ⟨hge, hle⟩
  by_cases hidle : s.state = -1
  · rw [decode_idle hidle (by rw [hu]; omega)]
    exact ⟨⟨hge, hidle.le⟩, rfl⟩
  · rw [decode_outside (by unfold Decoder.Within; omega) (by unfold max3Period; omega)]
    exact ⟨⟨le_rfl, le_rfl⟩, rfl⟩

/-! ## Runs of pulses -/

/-- The run completes no frame and leaves the decoder at most in state `n`. -/
def QuietRun (b : Board) (n : ℤ) (s : Decoder) (ds : List ℕ) : Prop :=
  Below n (Mealy.final (decode b) s ds) ∧ Mealy.events (decode b) s ds = []

theorem QuietRun.cons {ds : List ℕ} {m : ℤ} (h : Quiet m (decode b s d))
    (hrest : ∀ t, Below m t → QuietRun b n t ds) : QuietRun b n s (d :: ds) := by
  rcases hrest _ h.1 with ⟨hfinal, hevents⟩
  refine ⟨hfinal, ?_⟩
  rw [Mealy.events_cons, h.2, hevents]
  rfl

theorem QuietRun.nil (h : Below n s) : QuietRun b n s [] := ⟨h, rfl⟩

theorem QuietRun.append {ds es : List ℕ} {m : ℤ} (h : QuietRun b m s ds)
    (hrest : ∀ t, Below m t → QuietRun b n t es) : QuietRun b n s (ds ++ es) := by
  rcases hrest _ h.1 with ⟨hfinal, hevents⟩
  refine ⟨?_, ?_⟩
  · rw [Mealy.final_append]
    exact hfinal
  · rw [Mealy.events_append, h.2, hevents]
    rfl

theorem QuietRun.of_append {ds es : List ℕ} (h : QuietRun b n s (ds ++ es)) :
    Mealy.events (decode b) s ds = [] := by
  have hevents := h.2
  rw [Mealy.events_append, List.append_eq_nil_iff] at hevents
  exact hevents.1

/-- The intervals of a telegram come trit by trit. -/
theorem dataWidths_cons (p : ℕ) (t : Trit) (ts : List Trit) :
    dataWidths p (t :: ts) = PulseLine.widths (tritPulses p t) ++ dataWidths p ts := by
  rw [dataWidths, List.flatMap_cons, widths_append]
  rfl

/-! ## Periods above 133 µs -/

/-- Between two pulses that are too long there are at most two short ones. -/
theorem quietRun_trit_above (hp : 133 < p) (hp' : p ≤ 199) (t : Trit) (hs : Below 1 s) :
    QuietRun b 1 s (PulseLine.widths (tritPulses p t)) := by
  have hshort : ∀ {n : ℤ} {s : Decoder}, n < 45 → Below n s → Quiet (n + 1) (decode b s p) :=
    fun hn hs => quiet_short hs hn (by unfold min1Period; omega) (by unfold min3Period; omega)
  have hlong : ∀ {n : ℤ} {s : Decoder}, Below n s → Quiet 0 (decode b s (p * 3)) :=
    fun hs => quiet_pause hs (by unfold max3Period; omega)
  -- a long pulse resets the decoder, so at most one short one is counted behind it
  match t with
  | 0 =>
      refine QuietRun.cons (hshort (by decide) hs) fun s hs => ?_
      refine QuietRun.cons (hlong hs) fun s hs => ?_
      refine QuietRun.cons (hshort (by decide) hs) fun s hs => ?_
      exact QuietRun.cons (hlong hs) fun s hs => QuietRun.nil ⟨hs.1, hs.2.trans (by decide)⟩
  | 1 =>
      refine QuietRun.cons (hlong hs) fun s hs => ?_
      refine QuietRun.cons (hshort (by decide) hs) fun s hs => ?_
      refine QuietRun.cons (hlong hs) fun s hs => ?_
      exact QuietRun.cons (hshort (by decide) hs) fun s hs => QuietRun.nil hs
  | 2 =>
      refine QuietRun.cons (hshort (by decide) hs) fun s hs => ?_
      refine QuietRun.cons (hlong hs) fun s hs => ?_
      refine QuietRun.cons (hlong hs) fun s hs => ?_
      exact QuietRun.cons (hshort (by decide) hs) fun s hs => QuietRun.nil hs

theorem quietRun_data_above (hp : 133 < p) (hp' : p ≤ 199) (ts : List Trit) (hs : Below 1 s) :
    QuietRun b 1 s (dataWidths p ts) := by
  induction ts generalizing s with
  | nil => exact QuietRun.nil hs
  | cons t ts ih =>
      rw [dataWidths_cons]
      exact (quietRun_trit_above hp hp' t hs).append fun s hs => ih hs

/-! ## Periods up to 133 µs -/

/-- A pulse of a trit is no start pulse. -/
theorem Lost.step (hs : Lost s) (hd : d ≤ max3Period) :
    ∃ t, decode b s d = (t, none) ∧ Lost t := by
  rcases hs with hidle | hs
  · have hu : b.uint d ≤ 440 := by
      unfold max3Period at hd
      rw [b.uint_of_lt (by omega)]
      omega
    exact ⟨s, decode_idle hidle (fun h => absurd h.1 (Nat.not_lt.2 hu)), Or.inl hidle⟩
  · exact decode_misaligned hs d

/-- A short pulse makes a lost decoder wait. -/
theorem Lost.short (hs : Lost s) (hd : d ≤ min3Period) :
    ∃ t, decode b s d = (t, none) ∧ t.state = -1 := by
  rcases hs with hidle | hs
  · have hu : b.uint d ≤ 440 := by
      unfold min3Period at hd
      rw [b.uint_of_lt (by omega)]
      omega
    exact ⟨s, decode_idle hidle (fun h => absurd h.1 (Nat.not_lt.2 hu)), hidle⟩
  · exact ⟨s.reset, decode_misaligned_short hs hd, rfl⟩

theorem QuietRun.cons_of_eq {t : Decoder} {ds : List ℕ} (hstep : decode b s d = (t, none))
    (h : QuietRun b n t ds) : QuietRun b n s (d :: ds) := by
  rcases h with ⟨hfinal, hevents⟩
  refine ⟨?_, ?_⟩
  · rw [Mealy.final_cons, hstep]
    exact hfinal
  · rw [Mealy.events_cons, hstep, hevents]
    rfl

/-- A waiting decoder does not notice the telegram. -/
theorem quietRun_idle (hs : s.state = -1) {ds : List ℕ} (hds : ∀ d ∈ ds, d ≤ max3Period) :
    QuietRun b (-1) s ds := by
  have hignored : ∀ d ∈ ds, decode b s d = (s, none) := by
    intro d hd
    have hmax := hds d hd
    unfold max3Period at hmax
    have hu : b.uint d = d := b.uint_of_lt (by omega)
    exact decode_idle hs (by rw [hu]; omega)
  rcases Mealy.run_ignored hignored with ⟨hfinal, hevents⟩
  exact ⟨by rw [hfinal]; exact ⟨hs.ge, hs.le⟩, hevents⟩

/-- A frame that an earlier pulse began does not survive the first trit: in each of the three a
long pulse comes in the middle of a 0, and a short one behind it. -/
theorem quietRun_first (hp : 121 ≤ p) (hp' : p ≤ 133) (t : Trit) (hs : s.state = 0) :
    QuietRun b (-1) s (PulseLine.widths (tritPulses p t)) := by
  have hlo : min1Period ≤ p := by unfold min1Period; omega
  have hhi : p ≤ min3Period := by unfold min3Period; omega
  have hlong : min3Period < p * 3 := by unfold min3Period; omega
  have hlong' : p * 3 ≤ max3Period := by unfold max3Period; omega
  -- half a 0, and a long pulse that does not belong there
  have hlost : ∀ {k : ℕ} {s : Decoder}, k < 23 → s.state = 2 * k → ∃ s₁ s₂,
      decode b s p = (s₁, none) ∧ decode b s₁ (p * 3) = (s₂, none) ∧ Lost s₂ := by
    intro k s hk hs
    have hfirst := decode_first (b := b) hk hs hlo hhi
    rcases decode_long_odd (b := b) (s := { s with state := s.state + 1, receivedBit := 0 })
        (by simp only; omega) (by simp only [Decoder.Within]; omega) hlong with ⟨s₂, hstep, hs₂⟩
    exact ⟨_, s₂, hfirst, hstep, hs₂⟩
  have htrits : ∀ t : Trit, t = 0 ∨ t = 1 ∨ t = 2 := by decide
  rcases htrits t with rfl | rfl | rfl
  · rcases hlost (k := 0) (by decide) hs with ⟨s₁, s₂, h₁, h₂, hs₂⟩
    rcases hs₂.short (b := b) hhi with ⟨s₃, h₃, hs₃⟩
    exact ((quietRun_idle hs₃ (by simpa using hlong')).cons_of_eq h₃).cons_of_eq h₂
      |>.cons_of_eq h₁
  · have hone := decode_long (b := b) (k := 0) (by decide) hs hlong hlong'
    rw [close, if_neg (by simp only; omega)] at hone
    rcases hlost (k := 1) (s := { s with
        state := s.state + 1 + 1, receivedBit := 1,
        receivedCode := pushBit 0 s.receivedCode true }) (by decide)
      (by simp only; omega) with ⟨s₁, s₂, h₁, h₂, hs₂⟩
    rcases hs₂.short (b := b) hhi with ⟨s₃, h₃, hs₃⟩
    exact (((QuietRun.nil ⟨hs₃.ge, hs₃.le⟩).cons_of_eq h₃).cons_of_eq h₂).cons_of_eq h₁
      |>.cons_of_eq hone
  · rcases hlost (k := 0) (by decide) hs with ⟨s₁, s₂, h₁, h₂, hs₂⟩
    rcases hs₂.step (b := b) hlong' with ⟨s₃, h₃, hs₃⟩
    rcases hs₃.short (b := b) hhi with ⟨s₄, h₄, hs₄⟩
    exact (((QuietRun.nil ⟨hs₄.ge, hs₄.le⟩).cons_of_eq h₄).cons_of_eq h₃).cons_of_eq h₂
      |>.cons_of_eq h₁

/-- The trits of a telegram. -/
theorem quietRun_data_below (hp : 121 ≤ p) (hp' : p ≤ 133) {ts : List Trit} (hne : ts ≠ [])
    (hs : Below 0 s) : QuietRun b (-1) s (dataWidths p ts) := by
  have hshort : ∀ {ts : List Trit}, ∀ d ∈ dataWidths p ts, d ≤ max3Period := by
    intro ts d hd
    unfold max3Period
    rcases mem_dataWidths hd with rfl | rfl <;> omega
  by_cases hidle : s.state = -1
  · exact quietRun_idle hidle hshort
  · rcases hs with ⟨hge, hle⟩
    cases ts with
    | nil => exact absurd rfl hne
    | cons t ts =>
        rw [dataWidths_cons]
        refine (quietRun_first hp hp' t (by omega)).append fun s hs => ?_
        exact quietRun_idle (le_antisymm hs.2 hs.1) hshort

/-! ## Telegrams -/

/-- Whatever was begun before it, a telegram ends with a decoder that waits. -/
theorem quietRun_telegram (hp : 121 ≤ p) (hp' : p ≤ 199) {ts : List Trit} (hne : ts ≠ [])
    (hs : Below 0 s) : QuietRun b (-1) s (PulseLine.widths (pulses p ts)) := by
  have hdata : QuietRun b 1 s (dataWidths p ts) := by
    by_cases hbelow : p ≤ 133
    · rcases quietRun_data_below (b := b) hp hbelow hne hs with ⟨⟨hge, hle⟩, hevents⟩
      exact ⟨⟨hge, hle.trans (by decide)⟩, hevents⟩
    · exact quietRun_data_above (by omega) hp' ts ⟨hs.1, hs.2.trans (by decide)⟩
  rw [widths_pulses]
  refine hdata.append fun s hs => ?_
  refine QuietRun.cons (quiet_short hs (by decide) (by unfold min1Period; omega)
    (by unfold min3Period; omega)) fun s hs => ?_
  exact QuietRun.cons (quiet_gap hs (by omega) (by omega)) fun s hs => QuietRun.nil hs

/-- The pulses of telegrams, each with the argument `repeats` of its `sendCode`. -/
def telegramPulses (p : ℕ) (msgs : List (List Trit × ℕ)) : List (ℕ × ℕ) :=
  msgs.flatMap fun m => (List.replicate (1 <<< (m.2 &&& 7) % 256) (pulses p m.1)).flatten

variable {msgs : List (List Trit × ℕ)}

theorem quietRun_telegrams (hp : 121 ≤ p) (hp' : p ≤ 199) (hmsgs : ∀ m ∈ msgs, m.1.length = 12)
    (hs : Below 0 s) : QuietRun b 0 s (PulseLine.widths (telegramPulses p msgs)) := by
  have hcopies : ∀ {ts : List Trit} {s : Decoder} (k : ℕ), ts ≠ [] → Below 0 s →
      QuietRun b 0 s (PulseLine.widths (List.replicate k (pulses p ts)).flatten) := by
    intro ts s k hts hs
    induction k generalizing s with
    | zero => exact QuietRun.nil hs
    | succ k ih =>
        rw [List.replicate_succ, List.flatten_cons, widths_append]
        exact (quietRun_telegram hp hp' hts hs).append fun s hs =>
          ih ⟨hs.1, hs.2.trans (by decide)⟩
  induction msgs generalizing s with
  | nil => exact QuietRun.nil hs
  | cons m msgs ih =>
      have hne : m.1 ≠ [] := by
        intro hnil
        have hlen := hmsgs m (by simp)
        rw [hnil] at hlen
        cases hlen
      rw [telegramPulses, List.flatMap_cons, widths_append]
      exact (hcopies _ hne hs).append fun s hs => ih (fun m' hm' => hmsgs m' (by simp [hm'])) hs

/-- What the transmitter does is a train of these pulses. -/
theorem sendCode_telegrams (b : Board) (hp' : p ≤ 199) (hmsgs : ∀ m ∈ msgs, m.1.length = 12) :
    (msgs.flatMap fun m => sendCode b (value m.1) p m.2) = train (telegramPulses p msgs) := by
  induction msgs with
  | nil => rfl
  | cons m msgs ih =>
      have hlen := hmsgs m (by simp)
      have hlow : value m.1 &&& 0xfffff = value m.1 := by
        have hlt : value m.1 < 2 ^ 20 := (Remote.value_lt m.1).trans_le (by rw [hlen]; decide)
        exact (Nat.and_two_pow_sub_one_eq_mod (value m.1) 20).trans (Nat.mod_eq_of_lt hlt)
      rw [List.flatMap_cons, ih fun m' hm' => hmsgs m' (by simp [hm']),
        Remote.sendCode_eq b (by omega) hlen hlow, telegramPulses, telegramPulses,
        List.flatMap_cons, train_append]

/-- No delay of the telegrams comes near a turn of the clock. -/
theorem telegram_width_lt (hp' : p ≤ 199) (hd : d ∈ PulseLine.widths (telegramPulses p msgs)) :
    d < 2 ^ 32 := by
  rcases List.mem_flatMap.1 hd with ⟨q, hq, hd⟩
  rcases List.mem_flatMap.1 hq with ⟨m, -, hq⟩
  rcases List.mem_flatten.1 hq with ⟨ps, hps, hq⟩
  rw [List.eq_of_mem_replicate hps] at hq
  have hmem : d ∈ PulseLine.widths (pulses p m.1) := List.mem_flatMap.2 ⟨q, hq, hd⟩
  rw [widths_pulses, List.mem_append] at hmem
  rcases hmem with hmem | hmem
  · rcases mem_dataWidths hmem with rfl | rfl <;> omega
  · simp only [List.mem_cons, List.not_mem_nil, or_false] at hmem
    omega

/-- Telegrams at any period that an Action remote may have complete no Livolo frame, whatever the
interval before them is. -/
theorem silent_of_sendCode (b b' : Board) (hp : 121 ≤ p) (hp' : p ≤ 199)
    (hmsgs : ∀ m ∈ msgs, m.1.length = 12) {s : State} (hs : s.decoder.state = -1) (t : ℕ) :
    Mealy.events (interruptHandler b) s
      (edges ⟨LOW, t⟩ (msgs.flatMap fun m => sendCode b' (value m.1) p m.2)) = [] := by
  rw [sendCode_telegrams b' hp' hmsgs, edges_train]
  cases henabled : s.enabled with
  | false =>
      refine (Mealy.run_ignored fun u _ => ?_).2
      rw [interruptHandler, Sampled.onEdge, henabled]
      rfl
  | true =>
      rw [interruptHandler, Sampled.events_eq henabled]
      rcases hwidths : PulseLine.widths (telegramPulses p msgs) with _ | ⟨d, ds⟩
      · rfl
      · rw [List.dropLast_cons_of_ne_nil (by simp), measured_stamps_cons]
        · -- the last gap is never measured; with it the run would be quiet as well
          have hrun := QuietRun.cons
            (quiet_waiting (b := b) hs (micros (t + 0) - s.edge2).toNat) fun u hu =>
              quietRun_telegrams (b := b) hp hp' hmsgs hu
          rw [hwidths, ← List.dropLast_append_getLast (List.cons_ne_nil d ds),
            ← List.cons_append] at hrun
          exact hrun.of_append
        · intro x hx
          apply telegram_width_lt hp'
          rw [hwidths]
          exact List.dropLast_subset _ hx

/-- Two telegrams at 150 µs, the first of them twice. -/
theorem silent_of_two_telegrams :
    Mealy.events (interruptHandler .avr) (init 2 0)
      (edges ⟨LOW, 1000⟩ ([(List.replicate 12 0, 1), (List.replicate 12 2, 0)].flatMap
        fun m : List Trit × ℕ => sendCode .avr (value m.1) 150 m.2)) = [] :=
  silent_of_sendCode .avr .avr (by decide) (by decide) (by simp) rfl 1000

end Livolo
end LamPI
