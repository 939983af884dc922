import LamPI.Windows
import LamPI.Wt440.RoundTrip
import LamPI.Auriol.Receiver

/-!
# Parity — the sensor receivers accumulate a parity and never look at it

Both sensor protocols end a frame with a bit that makes the exclusive or of all bits zero.  The
receivers accumulate that exclusive or, but complete a frame without testing it, so the readings
they hand out have even parity exactly as far as the frames on the air have it.
-/

namespace LamPI

open PulseLine BigEndian

/-! ## WT440 -/

namespace Wt440

def EvenFrame (w : List ℕ) : Prop :=
  ∃ bs ws, bs.length = 36 ∧ List.Forall₂ Word bs ws ∧ w = ws.flatten ∧ parity bs = false

def Frame (bs : List Bool) (w : List ℕ) : Prop :=
  ∃ ps ws, bs = [true, true, false, false] ++ ps ∧ ps.length = 32 ∧
    List.Forall₂ Word bs ws ∧ w = ws.flatten ∧ ∀ d ∈ w.head?, First d

theorem Frame.even_iff {bs : List Bool} {w : List ℕ} (h : Frame bs w) :
    EvenFrame w ↔ parity bs = false := by
  rcases h with ⟨ps, ws, rfl, hps, hws, rfl, -⟩
  constructor
  · rintro ⟨bs', ws', -, hws', hflatten, hparity⟩
    rw [words_unique hws hws' hflatten]
    exact hparity
  · intro hparity
    exact ⟨_, ws, by simp [hps], hws, rfl, hparity⟩

/-- The pulses of a frame, one by one up to the end of the leader. -/
theorem Frame.leader {bs : List Bool} {w : List ℕ} (h : Frame bs w) :
    ∃ d₁ d₂ d₃ d₄ d₅ d₆ ps ws, First d₁ ∧ Short d₂ ∧ Short d₃ ∧ Short d₄ ∧ Long d₅ ∧ Long d₆ ∧
      ps.length = 32 ∧ List.Forall₂ Word ps ws ∧
      w = [d₁, d₂, d₃, d₄, d₅, d₆] ++ ws.flatten := by
  rcases h with ⟨ps, ws, rfl, hps, hws, rfl, hfirst⟩
  rcases hws with _ | ⟨hw₁, hws⟩
  rcases hws with _ | ⟨hw₂, hws⟩
  rcases hws with _ | ⟨hw₃, hws⟩
  rcases hws with _ | ⟨hw₄, hws⟩
  cases hw₁ with
  | one h₁ h₂ =>
      cases hw₂ with
      | one h₃ h₄ =>
          cases hw₃ with
          | zero h₅ =>
              cases hw₄ with
              | zero h₆ =>
                  exact ⟨_, _, _, _, _, _, ps, _, hfirst _ rfl, h₂, h₃, h₄, h₅, h₆, hps, hws, rfl⟩

/-- A receiver of one frame calls back, whatever its parity. -/
theorem Frame.events {bs : List Bool} {w : List ℕ} (h : Frame bs w) (edge2 : ULong) :
    Scanner.Completes next (-1) w ∧
      ∃ c, Mealy.events decode (init 1 edge2).decoder w = [⟨c, true⟩] := by
  rcases h.leader with ⟨d₁, d₂, d₃, d₄, d₅, d₆, ps, ws, h₁, h₂, h₃, h₄, h₅, h₆, hps, hws, rfl⟩
  refine ⟨frame_completes h₁ h₂ h₃ h₄ h₅ h₆ hps hws, ?_⟩
  have hrun := (run_frame (s := (init 1 edge2).decoder) rfl rfl h₁ h₂ h₃ h₄ h₅ h₆ hps hws).2
  rw [RepeatFilter.completion_count rfl rfl rfl] at hrun
  exact ⟨_, hrun⟩

/-- Every part of the input that a fresh receiver reads as a frame is 36 bits of even parity. -/
def FramesEven (minRepeats : ℕ) (edge2 : ULong) (times : List ℕ) : Prop :=
  Sampled.EveryFrame next Start decode Decoder.state EvenFrame (init minRepeats edge2) times

/-- Every callback of a fresh receiver is for 36 bits of even parity. -/
def CallbacksEven (minRepeats : ℕ) (edge2 : ULong) (times : List ℕ) : Prop :=
  Sampled.EveryCallback next Start decode Decoder.state EvenFrame (init minRepeats edge2) times

theorem callbacksEven_of_framesEven {minRepeats : ℕ} {edge2 : ULong} {times : List ℕ}
    (h : FramesEven minRepeats edge2 times) : CallbacksEven minRepeats edge2 times :=
  Sampled.everyCallback_of_everyFrame tracks_decode rfl (init_running minRepeats edge2)
    (Or.inl rfl) h

/-- The parity of the reading of one frame is the parity of that frame: the receiver adds
nothing. -/
theorem callbacksEven_iff {edge2 : ULong} {times : List ℕ} {bs : List Bool}
    (h : Frame bs (measured edge2 times)) : CallbacksEven 1 edge2 times ↔ parity bs = false := by
  rcases h.events edge2 with ⟨hcomplete, c, hevents⟩
  have hcalled : ∀ e ∈ Mealy.events decode (init 1 edge2).decoder (measured edge2 times),
      e.calledBack = true := by
    intro e he
    rw [hevents] at he
    rw [List.mem_singleton.1 he]
  rw [← h.even_iff]
  exact Sampled.everyCallback_iff (s := init 1 edge2) tracks_decode rfl (init_running 1 edge2)
    (Or.inl rfl) hcomplete hcalled

/-- The pulses of a leader and 32 bits as the transmitter makes them. -/
theorem frame_widths {ps : List Bool} (hps : ps.length = 32) :
    Frame ([true, true, false, false] ++ ps)
      (([true, true, false, false] ++ ps).flatMap widths) := by
  refine ⟨ps, _, rfl, hps, forall₂_word_widths _, List.flatMap_def, ?_⟩
  intro d hd
  obtain rfl : PULSE1 = d := by simpa [widths] using hd
  exact first_PULSE1

theorem frame_measured {ps : List Bool} (hps : ps.length = 32) :
    Frame ([true, true, false, false] ++ ps)
      (measured (micros 0) (stamps 0 (([true, true, false, false] ++ ps).flatMap widths))) := by
  have hlt : ∀ d ∈ ([true, true, false, false] ++ ps).flatMap widths, d < 2 ^ 32 := by
    intro d hd
    rcases List.mem_flatMap.1 hd with ⟨bit, -, hd⟩
    clear hps
    cases bit <;> simp [widths] at hd <;> rw [hd] <;> decide
  have hmeasured : measured (micros 0) _ = _ := measured_stamps hlt
  rw [hmeasured]
  exact frame_widths hps

end Wt440

/-! ## Auriol -/

namespace Auriol

def Frame (b : Board) (bs : List Bool) (w : List ℕ) : Prop :=
  ∃ sync ws, Sync b sync ∧ bs.length = 32 ∧ List.Forall₂ (Word b) bs ws ∧ w = sync :: ws.flatten

def EvenFrame (b : Board) (w : List ℕ) : Prop := ∃ bs, Frame b bs w ∧ parity bs = false

theorem Frame.even_iff {b : Board} {bs : List Bool} {w : List ℕ} (h : Frame b bs w) :
    EvenFrame b w ↔ parity bs = false := by
  constructor
  · rintro ⟨bs', ⟨sync', ws', -, -, hws', heq⟩, hparity⟩
    rcases h with ⟨sync, ws, -, -, hws, rfl⟩
    injection heq with hsync hflatten
    rw [words_unique hws hws' hflatten]
    exact hparity
  · intro hparity
    exact ⟨bs, h, hparity⟩

theorem Frame.events {b : Board} {bs : List Bool} {w : List ℕ} (h : Frame b bs w)
    (edge2 : ULong) :
    Scanner.Completes (next b) (-1) w ∧
      ∃ c, Mealy.events (decode b) (init 1 edge2).decoder w = [⟨c, true⟩] := by
  rcases h with ⟨sync, ws, hsync, hbs, hws, rfl⟩
  refine ⟨frame_completes hsync hbs hws, ?_⟩
  have hrun := (run_frame (s := (init 1 edge2).decoder) rfl hsync hbs hws).2
  rw [RepeatFilter.completion_count rfl rfl rfl] at hrun
  exact ⟨_, hrun⟩

/-- Every part of the input that a fresh receiver reads as a frame is 32 bits of even parity. -/
def FramesEven (b : Board) (minRepeats : ℕ) (edge2 : ULong) (times : List ℕ) : Prop :=
  Sampled.EveryFrame (next b) Start (decode b) Decoder.state (EvenFrame b)
    (init minRepeats edge2) times

/-- Every callback of a fresh receiver is for 32 bits of even parity. -/
def CallbacksEven (b : Board) (minRepeats : ℕ) (edge2 : ULong) (times : List ℕ) : Prop :=
  Sampled.EveryCallback (next b) Start (decode b) Decoder.state (EvenFrame b)
    (init minRepeats edge2) times

theorem callbacksEven_of_framesEven {b : Board} {minRepeats : ℕ} {edge2 : ULong}
    {times : List ℕ} (h : FramesEven b minRepeats edge2 times) :
    CallbacksEven b minRepeats edge2 times :=
  Sampled.everyCallback_of_everyFrame (tracks_decode b) rfl (init_running minRepeats edge2) rfl h

theorem callbacksEven_iff {b : Board} {edge2 : ULong} {times : List ℕ} {bs : List Bool}
    (h : Frame b bs (measured edge2 times)) :
    CallbacksEven b 1 edge2 times ↔ parity bs = false := by
  rcases h.events edge2 with ⟨hcomplete, c, hevents⟩
  have hcalled : ∀ e ∈ Mealy.events (decode b) (init 1 edge2).decoder (measured edge2 times),
      e.calledBack = true := by
    intro e he
    rw [hevents] at he
    rw [List.mem_singleton.1 he]
  rw [← h.even_iff]
  exact Sampled.everyCallback_iff (s := init 1 edge2) (tracks_decode b) rfl
    (init_running 1 edge2) rfl hcomplete hcalled

def intervals (bit : Bool) : List ℕ := [500, if bit then 4000 else 2000]

/-- A sync gap of 9 ms and the nominal intervals of 32 bits. -/
theorem frame_intervals (b : Board) {bs : List Bool} (hbs : bs.length = 32) :
    Frame b bs (9000 :: bs.flatMap intervals) := by
  -- all intervals are below 65536, so both boards measure them alike
  have hu : ∀ {n : ℕ}, n < 65536 → b.uint n = n := fun h => b.uint_of_lt h
  have hsync : Sync b 9000 := by
    rw [Sync, hu (by decide)]
    decide
  have hpulse : Pulse b 500 := by
    rw [Pulse, hu (by decide)]
    decide
  -- induction on the bits: each of them is a pulse and a gap
  have hwords : List.Forall₂ (Word b) bs (bs.map intervals) := by
    clear hbs
    induction bs with
    | nil => exact List.Forall₂.nil
    | cons bit bs ih =>
        refine List.Forall₂.cons ?_ ih
        have hspace : Space b (if bit then 4000 else 2000) := by
          cases bit <;> rw [Space, hu (by decide)] <;> decide
        have hbit : bitOf b (if bit then 4000 else 2000) = bit := by
          cases bit <;> rw [bitOf, hu (by decide)] <;> decide
        have hword := Word.bit hpulse hspace
        rwa [hbit] at hword
  exact ⟨9000, _, hsync, hbs, hwords, by rw [List.flatMap_def]⟩

theorem frame_measured (b : Board) {bs : List Bool} (hbs : bs.length = 32) :
    Frame b bs (measured (micros 0) (stamps 0 (9000 :: bs.flatMap intervals))) := by
  have hlt : ∀ d ∈ 9000 :: bs.flatMap intervals, d < 2 ^ 32 := by
    intro d hd
    rcases List.mem_cons.1 hd with rfl | hd
    · decide
    · rcases List.mem_flatMap.1 hd with ⟨bit, -, hd⟩
      clear hbs
      cases bit <;> simp [intervals] at hd <;> rcases hd with rfl | rfl <;> decide
  have hmeasured : measured (micros 0) _ = _ := measured_stamps hlt
  rw [hmeasured]
  exact frame_intervals b hbs

end Auriol

/-! ## Readings -/

/-- In a run whose frames all have even parity, so have the readings; and a single frame of odd
parity is handed out like any other.  This is so for both receivers. -/
theorem readings_even (b : Board) (edge2 : ULong) (times : List ℕ) :
    (∀ minRepeats, Wt440.FramesEven minRepeats edge2 times →
      Wt440.CallbacksEven minRepeats edge2 times) ∧
    (∀ minRepeats, Auriol.FramesEven b minRepeats edge2 times →
      Auriol.CallbacksEven b minRepeats edge2 times) ∧
    (∀ bs, Wt440.Frame bs (measured edge2 times) →
      (Wt440.CallbacksEven 1 edge2 times ↔ parity bs = false)) ∧
    (∀ bs, Auriol.Frame b bs (measured edge2 times) →
      (Auriol.CallbacksEven b 1 edge2 times ↔ parity bs = false)) := by
  refine ⟨?_, ?_, ?_, ?_⟩
  · intro minRepeats h
    exact Wt440.callbacksEven_of_framesEven h
  · intro minRepeats h
    exact Auriol.callbacksEven_of_framesEven h
  · intro bs h
    exact Wt440.callbacksEven_iff h
  · intro bs h
    exact Auriol.callbacksEven_iff h

/-- A frame of either protocol with all data bits 0. -/
theorem readings_even_example :
    Wt440.CallbacksEven 1 (micros 0)
      (stamps 0 (([true, true, false, false] ++ List.replicate 32 false).flatMap Wt440.widths)) ∧
    Auriol.CallbacksEven .avr 1 (micros 0)
      (stamps 0 (9000 :: (List.replicate 32 false).flatMap Auriol.intervals)) :=
  ⟨((readings_even .avr _ _).2.2.1 _ (Wt440.frame_measured rfl)).2 (by decide),
    ((readings_even .avr _ _).2.2.2 _ (Auriol.frame_measured .avr rfl)).2 (by decide)⟩

/-- The same frames with their last bit flipped. -/
theorem readings_odd :
    ¬Wt440.CallbacksEven 1 (micros 0)
      (stamps 0 (([true, true, false, false] ++ (List.replicate 31 false ++ [true])).flatMap
        Wt440.widths)) ∧
    ¬Auriol.CallbacksEven .avr 1 (micros 0)
      (stamps 0 (9000 :: (List.replicate 31 false ++ [true]).flatMap Auriol.intervals)) := by
  constructor
  · rw [Wt440.callbacksEven_iff (Wt440.frame_measured rfl)]
    decide
  · rw [Auriol.callbacksEven_iff (Auriol.frame_measured .avr rfl)]
    decide

end LamPI
