import LamPI.Windows
import LamPI.Wt440.Frame
import LamPI.Auriol.Receiver

/-!
# Silence — long intervals that pass for pulses

The two sensor receivers test a duration of 16 bits, of which a silence of 65536 µs or more only
leaves the remainder.  So it is a pulse to them whenever the remainder is one.
-/

namespace LamPI

open PulseLine

/-! ## WT440 -/

namespace Wt440

/-- Every interval of a frame is short enough, modulo 65536. -/
theorem mod_le_of_completes {p : ℤ} {w : List ℕ} (hp : -1 ≤ p)
    (h : Scanner.Completes next p w) : ∀ d ∈ w, d % 65536 ≤ max2period := by
  induction w generalizing p with
  | nil => exact absurd rfl h.ne_nil
  | cons d w ih =>
      intro x hx
      rcases hnext : next p d with _ | q | _
      · simp only [Scanner.Completes, hnext] at h
      · rcases next_go hnext with ⟨htakes, hq, -⟩
        rw [Scanner.completes_cons_go hnext] at h
        rcases List.mem_cons.1 hx with rfl | hx
        · exact (htakes.accepts hp).1
        · have hpos := halfBits_pos (position p) (d % 65536)
          have hnonneg : 0 ≤ position p := le_max_right _ _
          exact ih (by omega) h x hx
      · rw [Scanner.completes_cons_done hnext] at h
        subst h
        rw [List.mem_singleton.1 hx]
        exact ((next_done hnext).1.accepts hp).1

/-- They are so without the modulus exactly if there is no silence among them. -/
theorem widths_iff {p : ℤ} {w : List ℕ} (hp : -1 ≤ p) (h : Scanner.Completes next p w) :
    (∀ d ∈ w, d ≤ max2period) ↔ ∀ d ∈ w, d < 65536 := by
  constructor
  · intro hle d hd
    have hmax := hle d hd
    unfold max2period at hmax
    omega
  · intro hlt d hd
    have hmod := mod_le_of_completes hp h d hd
    rwa [Nat.mod_eq_of_lt (hlt d hd)] at hmod

end Wt440

/-! ## Auriol -/

namespace Auriol

/-- The intervals of a frame are a sync gap and code words. -/
theorem frame_of_completes {b : Board} {w : List ℕ} (h : Scanner.Completes (next b) (-1) w) :
    ∃ sync bs ws, w = sync :: ws.flatten ∧ Sync b sync ∧ bs.length = 32 ∧
      List.Forall₂ (Word b) bs ws := by
  rcases w with _ | ⟨sync, w⟩
  · exact absurd rfl h.ne_nil
  have htakes := takes_of_completes h
  have hgo : next b (-1) sync = .go ((2 * 0 : ℕ) : ℤ) := by
    rw [next, if_pos htakes]
    rfl
  rw [Scanner.completes_cons_go hgo] at h
  rcases exists_words (n := 32) (by decide) (by decide) h with ⟨bs, ws, hlen, hws, rfl⟩
  rw [Takes, if_pos rfl] at htakes
  exact ⟨sync, bs, ws, rfl, htakes, hlen, hws⟩

theorem uint_le_of_words {b : Board} {bs : List Bool} {ws : List (List ℕ)}
    (hws : List.Forall₂ (Word b) bs ws) : ∀ d ∈ ws.flatten, b.uint d ≤ max2period := by
  induction hws with
  | nil => simp
  | cons hw _ ih =>
      intro x hx
      rw [List.flatten_cons, List.mem_append] at hx
      rcases hx with hx | hx
      · cases hw with
        | bit hp hd =>
            simp only [List.mem_cons, List.not_mem_nil, or_false] at hx
            rcases hx with rfl | rfl
            · exact hp.2.trans (by decide)
            · exact hd.2.1
      · exact ih x hx

def TrueWidths (w : List ℕ) : Prop :=
  ∃ sync rest, w = sync :: rest ∧ 8500 ≤ sync ∧ sync ≤ 10000 ∧ ∀ d ∈ rest, d ≤ max2period

/-- On a board with 16-bit integers the widths of a frame are what they seem exactly if there is no
silence among them. -/
theorem widths_iff {w : List ℕ} (h : Scanner.Completes (next .avr) (-1) w) :
    TrueWidths w ↔ ∀ d ∈ w, d < 65536 := by
  constructor
  · rintro ⟨sync, rest, rfl, -, hsync, hrest⟩ d hd
    rcases List.mem_cons.1 hd with rfl | hd
    · omega
    · have hmax := hrest d hd
      unfold max2period at hmax
      omega
  · intro hlt
    rcases frame_of_completes h with ⟨sync, bs, ws, rfl, hsync, -, hws⟩
    have huint : ∀ d ∈ sync :: ws.flatten, Board.avr.uint d = d :=
      fun d hd => Board.avr.uint_of_lt (hlt d hd)
    rw [Sync, huint sync (by simp)] at hsync
    refine ⟨sync, ws.flatten, rfl, hsync.1.le, hsync.2.le, fun d hd => ?_⟩
    have hle := uint_le_of_words hws d hd
    rwa [huint d (by simp [hd])] at hle

end Auriol

/-! ## Both receivers -/

/-- In a run with the true spacings `ds ++ [d]`, a frame that the last edge completes consists of
intervals that truly have its widths exactly if none of them is a silence of 65536 µs or more. -/
theorem completed_true_iff (minRepeats t : ℕ) (ds : List ℕ) (d : ℕ)
    (hds : ∀ x ∈ ds ++ [d], x < 2 ^ 32) :
    (∀ e, (Wt440.interruptHandler (Mealy.final Wt440.interruptHandler
        (Wt440.init minRepeats (micros t)) (stamps t ds)) (t + (ds ++ [d]).sum)).2 = some e →
      ∃ before w, ds ++ [d] = before ++ w ∧
        Scanner.Window Wt440.next Wt440.Start Wt440.decode Wt440.Decoder.state
          (Wt440.init minRepeats (micros t)).decoder before w ∧
        ((∀ x ∈ w, x ≤ Wt440.max2period) ↔ ∀ x ∈ w, x < 65536)) ∧
    (∀ e, (Auriol.interruptHandler .avr (Mealy.final (Auriol.interruptHandler .avr)
        (Auriol.init minRepeats (micros t)) (stamps t ds)) (t + (ds ++ [d]).sum)).2 = some e →
      ∃ before w, ds ++ [d] = before ++ w ∧
        Scanner.Window (Auriol.next .avr) Auriol.Start (Auriol.decode .avr) Auriol.Decoder.state
          (Auriol.init minRepeats (micros t)).decoder before w ∧
        (Auriol.TrueWidths w ↔ ∀ x ∈ w, x < 65536)) := by
  -- the clock shows the true spacings
  have hstamps : stamps t (ds ++ [d]) = stamps t ds ++ [t + (ds ++ [d]).sum] := by
    rw [stamps_append, stamps_cons, stamps_nil, List.sum_append, List.sum_singleton,
      Nat.add_assoc]
  have hmeasured : measured (micros t) (stamps t ds ++ [t + (ds ++ [d]).sum]) = ds ++ [d] := by
    rw [← hstamps]
    exact measured_stamps hds
  constructor
  · intro e he
    rcases Sampled.window_of_event (s := Wt440.init minRepeats (micros t)) Wt440.tracks_decode rfl
        (Wt440.init_running _ _) (Or.inl rfl) he with ⟨before, w, hsplit, hwindow, -⟩
    refine ⟨before, w, hmeasured.symm.trans hsplit, hwindow, Wt440.widths_iff ?_ hwindow.2⟩
    exact (Wt440.tracks_decode.final_inv (Wt440.init_running _ _) before).2.1
  · intro e he
    rcases Sampled.window_of_event (s := Auriol.init minRepeats (micros t))
        (Auriol.tracks_decode .avr) rfl (Auriol.init_running _ _) rfl he with
      ⟨before, w, hsplit, hwindow, -⟩
    refine ⟨before, w, hmeasured.symm.trans hsplit, hwindow, Auriol.widths_iff ?_⟩
    have hstart : (Mealy.final (Auriol.decode .avr)
      (Auriol.init minRepeats (micros t)).decoder before).state = -1 := hwindow.1
    rw [← hstart]
    exact hwindow.2

/-- A frame of 32 zeros whose first pulse is a silence of 66536 µs. -/
def silentWt440 : List ℕ := 66536 :: (List.replicate 3 1000 ++ List.replicate 33 2000)

/-- A silence of 74536 µs instead of a sync gap, and 32 zeros but for their last space. -/
def silentAuriol : List ℕ := 74536 :: ((List.replicate 31 [500, 2000]).flatten ++ [500])

theorem completed_true_silent :
    (∀ e, (Wt440.interruptHandler (Mealy.final Wt440.interruptHandler
        (Wt440.init 1 (micros 0)) (stamps 0 silentWt440))
          (0 + (silentWt440 ++ [2000]).sum)).2 = some e →
      ∃ before w, silentWt440 ++ [2000] = before ++ w ∧
        Scanner.Window Wt440.next Wt440.Start Wt440.decode Wt440.Decoder.state
          (Wt440.init 1 (micros 0)).decoder before w ∧
        ((∀ x ∈ w, x ≤ Wt440.max2period) ↔ ∀ x ∈ w, x < 65536)) ∧
    (∀ e, (Auriol.interruptHandler .avr (Mealy.final (Auriol.interruptHandler .avr)
        (Auriol.init 1 (micros 0)) (stamps 0 silentWt440))
          (0 + (silentWt440 ++ [2000]).sum)).2 = some e →
      ∃ before w, silentWt440 ++ [2000] = before ++ w ∧
        Scanner.Window (Auriol.next .avr) Auriol.Start (Auriol.decode .avr) Auriol.Decoder.state
          (Auriol.init 1 (micros 0)).decoder before w ∧
        (Auriol.TrueWidths w ↔ ∀ x ∈ w, x < 65536)) :=
  completed_true_iff 1 0 silentWt440 2000 (by decide)

/-- Both receivers take a silence for a pulse. -/
theorem not_completed_true :
    (¬∀ (minRepeats t : ℕ) (ds : List ℕ) (d : ℕ), (∀ x ∈ ds ++ [d], x < 2 ^ 32) →
      ∀ e, (Wt440.interruptHandler (Mealy.final Wt440.interruptHandler
          (Wt440.init minRepeats (micros t)) (stamps t ds)) (t + (ds ++ [d]).sum)).2 = some e →
        ∃ before w, ds ++ [d] = before ++ w ∧
          Scanner.Window Wt440.next Wt440.Start Wt440.decode Wt440.Decoder.state
            (Wt440.init minRepeats (micros t)).decoder before w ∧
          ∀ x ∈ w, x ≤ Wt440.max2period) ∧
    ¬∀ (minRepeats t : ℕ) (ds : List ℕ) (d : ℕ), (∀ x ∈ ds ++ [d], x < 2 ^ 32) →
      ∀ e, (Auriol.interruptHandler .avr (Mealy.final (Auriol.interruptHandler .avr)
          (Auriol.init minRepeats (micros t)) (stamps t ds)) (t + (ds ++ [d]).sum)).2 = some e →
        ∃ before w, ds ++ [d] = before ++ w ∧
          Scanner.Window (Auriol.next .avr) Auriol.Start (Auriol.decode .avr) Auriol.Decoder.state
            (Auriol.init minRepeats (micros t)).decoder before w ∧ Auriol.TrueWidths w := by
  constructor
  · intro h
    rcases h 1 0 silentWt440 2000 (by decide) ⟨{ Wt440.leaderCode with par := true }, true⟩
      (by decide +kernel) with ⟨before, w, hsplit, hwindow, hwidths⟩
    -- the whole run is one frame
    have hwhole : Scanner.Window Wt440.next Wt440.Start Wt440.decode Wt440.Decoder.state
        (Wt440.init 1 (micros 0)).decoder [] (silentWt440 ++ [2000]) :=
      ⟨Or.inl rfl, by decide +kernel⟩
    obtain rfl := Wt440.tracks_decode.window_unique (Wt440.init_running _ _) hwhole hwindow
      (by rw [List.nil_append, hsplit])
    exact absurd (hwidths 66536 (by simp [silentWt440])) (by decide)
  · intro h
    rcases h 1 0 silentAuriol 2000 (by decide) ⟨Auriol.emptyCode, true⟩
      (by decide +kernel) with ⟨before, w, hsplit, hwindow, hwidths⟩
    have hwhole : Scanner.Window (Auriol.next .avr) Auriol.Start (Auriol.decode .avr)
        Auriol.Decoder.state (Auriol.init 1 (micros 0)).decoder [] (silentAuriol ++ [2000]) :=
      ⟨rfl, by decide +kernel⟩
    obtain rfl := (Auriol.tracks_decode .avr).window_unique (Auriol.init_running _ _) hwhole hwindow
      (by rw [List.nil_append, hsplit])
    have hlt := (Auriol.widths_iff (by decide +kernel)).1 hwidths 74536 (by simp [silentAuriol])
    exact absurd hlt (by decide)

end LamPI
