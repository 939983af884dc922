import LamPI.Kaku.History

/-!
# The pause before a transmission

A decoder that waits takes every long interval for a stop gap, the pause before a transmission too.
The period that it computes from the pause is wrong, and so are the thresholds of the decoder and of
the low-pass filter: most pauses end with the first frame given up, but some make the filter drop
one edge of every pulse, and the decoder hears nothing of the transmission.
-/

namespace LamPI
namespace Kaku

open PulseLine

variable {b : Board} {q x : ℕ} {y : Telegram} {s : Decoder} {present : Bool}

/-! ## The transmission -/

/-- The intervals of a frame of the transmitter with the period 260 µs. -/
def frame (y : Telegram) : List ℕ := widths (pulses 260 y)

/-- The intervals of `n` frames and of another one up to its stop pulse. -/
def intervals (n : ℕ) (y : Telegram) : List ℕ :=
  (List.replicate n (frame y)).flatten ++ dataWidths 260 y

def delays (n : ℕ) (y : Telegram) : List ℕ := intervals n y ++ [260]

def bitPulses (y : Telegram) : List (ℕ × ℕ) := y.symbols.flatMap (symbolPulses 260)

theorem mem_bitPulses {p : ℕ × ℕ} (hp : p ∈ bitPulses y) :
    p.1 = 260 ∧ 260 ≤ p.2 ∧ p.2 ≤ 1300 := by
  rcases List.mem_flatMap.1 hp with ⟨z, -, hp⟩
  cases z with
  | zero =>
      simp [symbolPulses] at hp
      rcases hp with rfl | rfl <;> decide
  | one =>
      simp [symbolPulses] at hp
      rcases hp with rfl | rfl <;> decide
  | dim =>
      simp [symbolPulses] at hp
      subst hp
      decide

theorem dataWidths_eq (y : Telegram) : dataWidths 260 y = 260 :: 2730 :: widths (bitPulses y) := rfl

theorem frame_eq (y : Telegram) : frame y = dataWidths 260 y ++ [260, 10400] :=
  widths_pulses 260 y

theorem intervals_succ (n : ℕ) (y : Telegram) :
    intervals (n + 1) y = frame y ++ intervals n y := by
  rw [intervals, List.replicate_succ, List.flatten_cons, List.append_assoc]
  rfl

def restPulses (n : ℕ) (y : Telegram) : List (ℕ × ℕ) :=
  (List.replicate n (pulses 260 y)).flatten ++ (260, 2730) :: bitPulses y

theorem delays_eq (n : ℕ) (y : Telegram) : delays n y = widths (restPulses n y) ++ [260] := by
  rw [restPulses, widths_append, widths_replicate]
  rfl

theorem mem_restPulses {n : ℕ} {p : ℕ × ℕ} (hp : p ∈ restPulses n y) :
    p.1 = 260 ∧ 260 ≤ p.2 ∧ p.2 ≤ 10400 := by
  have hbits : p ∈ bitPulses y → p.1 = 260 ∧ 260 ≤ p.2 ∧ p.2 ≤ 10400 := by
    intro hp
    have hmem := mem_bitPulses hp
    omega
  rcases List.mem_append.1 hp with hp | hp
  · rcases List.mem_flatten.1 hp with ⟨ps, hps, hp⟩
    rw [List.eq_of_mem_replicate hps, pulses] at hp
    simp only [List.mem_append, List.mem_singleton] at hp
    rcases hp with (rfl | hp) | rfl
    · decide
    · exact hbits hp
    · decide
  · rcases List.mem_cons.1 hp with rfl | hp
    · decide
    · exact hbits hp

/-- The same pulses from the first falling edge on: low, then high. -/
def shifted (ps : List (ℕ × ℕ)) : List (ℕ × ℕ) := ps.map fun p => (p.2, 260)

theorem widths_shifted {ps : List (ℕ × ℕ)} (hps : ∀ p ∈ ps, p.1 = 260) :
    widths ps ++ [260] = 260 :: widths (shifted ps) := by
  induction ps with
  | nil => rfl
  | cons p ps ih =>
      have hcons : widths (p :: ps) = p.1 :: p.2 :: widths ps := rfl
      have hshift : widths (shifted (p :: ps)) = p.2 :: 260 :: widths (shifted ps) := rfl
      rw [hcons, hshift, hps p (by simp), List.cons_append, List.cons_append,
        ih (fun q hq => hps q (by simp [hq]))]

/-- The duration of a frame without its stop gap. -/
def span (y : Telegram) : ℕ := 260 + (widths (shifted ((260, 2730) :: bitPulses y))).sum

theorem sum_widths_shifted (ps : List (ℕ × ℕ)) (hps : ∀ p ∈ ps, p.1 = 260) :
    (widths (shifted ps)).sum = (widths ps).sum := by
  have hsum := congrArg List.sum (widths_shifted hps)
  rw [List.sum_append, List.sum_singleton, List.sum_cons] at hsum
  omega

theorem sum_bits (bs : List Bool) :
    (widths ((bs.map Symbol.ofBool).flatMap (symbolPulses 260))).sum = 2080 * bs.length := by
  induction bs with
  | nil => rfl
  | cons bit bs ih =>
      have hbit : (widths (symbolPulses 260 (Symbol.ofBool bit))).sum = 2080 := by
        cases bit <;> rfl
      rw [List.map_cons, List.flatMap_cons, widths_append, List.sum_append, ih, hbit,
        List.length_cons]
      ring

/-- The bit of the switch type is shorter in a frame with dim bits. -/
theorem telegram_kind (address : ℕ) (cmd : Command) :
    (cmd.telegram address).dim = none ∧
        (widths (symbolPulses 260 (cmd.telegram address).switchType.symbol)).sum = 2080 ∨
      ∃ dimLevel, (cmd.telegram address).dim = some dimLevel ∧
        (widths (symbolPulses 260 (cmd.telegram address).switchType.symbol)).sum = 1040 := by
  cases cmd with
  | unit u switchOn => exact Or.inl ⟨rfl, by cases switchOn <;> rfl⟩
  | group switchOn => exact Or.inl ⟨rfl, by cases switchOn <;> rfl⟩
  | dim u dimLevel => exact Or.inr ⟨dimLevel, rfl, rfl⟩
  | groupDim dimLevel => exact Or.inr ⟨dimLevel, rfl, rfl⟩

/-- A frame lasts 69810 µs up to its stop gap, and one with a dim level 77090 µs. -/
theorem span_telegram (address : ℕ) (cmd : Command) :
    span (cmd.telegram address) =
      if (cmd.telegram address).dim.isSome then 77090 else 69810 := by
  have hhigh : ∀ p ∈ (260, 2730) :: bitPulses (cmd.telegram address), p.1 = 260 := by
    intro p hp
    rcases List.mem_cons.1 hp with rfl | hp
    · rfl
    · exact (mem_bitPulses hp).1
  -- the start pulse
  have hcons : ∀ ps, (widths ((260, 2730) :: ps)).sum = 2990 + (widths ps).sum := by
    intro ps
    have hwidths : widths ((260, 2730) :: ps) = 260 :: 2730 :: widths ps := rfl
    rw [hwidths, List.sum_cons, List.sum_cons]
    omega
  -- 27 bits, the switch type, and 4 or 8 bits more
  have hbits : ∀ y : Telegram, (widths (bitPulses y)).sum =
      2080 * 27 + ((widths (symbolPulses 260 y.switchType.symbol)).sum +
        2080 * (4 + (dimBits y.dim).length)) := by
    intro y
    rw [bitPulses, Telegram.symbols, List.flatMap_append, widths_append, List.sum_append, sum_bits,
      List.flatMap_cons, widths_append, List.sum_append, sum_bits, List.length_append,
      List.length_append, BigEndian.length_bits, BigEndian.length_bits, List.length_singleton]
  rw [span, sum_widths_shifted _ hhigh, hcons, hbits]
  rcases telegram_kind address cmd with ⟨hdim, hsum⟩ | ⟨dimLevel, hdim, hsum⟩
  · rw [hdim, hsum]
    rfl
  · rw [hdim, hsum, dimBits, BigEndian.length_bits]
    rfl

/-! ## What the decoder makes of it -/

/-- What a callback with `present` needs besides two frames. -/
structure Prepared (present : Bool) (y : Telegram) (s : Decoder) : Prop where
  minRepeats : s.filter.minRepeats = 2
  inCallback : s.filter.inCallback = false
  present : (s.receivedCode.dimLevelPresent || y.dim.isSome) = present

/-- Only a complete frame changes that. -/
theorem Prepared.decode (h : Prepared present y s) {d : ℕ} (hquiet : (Kaku.decode b s d).2 = none) :
    Prepared present y (Kaku.decode b s d).1 := by
  refine ⟨decode_minRepeats.1.trans h.minRepeats, decode_minRepeats.2.trans h.inCallback, ?_⟩
  have hsame : (Kaku.decode b s d).1.receivedCode.dimLevelPresent =
      s.receivedCode.dimLevelPresent := by
    rw [Bool.eq_iff_iff, decode_dimLevelPresent]
    constructor
    · rintro (hset | ⟨-, hsome⟩)
      · exact hset
      · rw [hquiet] at hsome
        cases hsome
    · exact Or.inl
  rw [hsame]
  exact h.present

theorem Prepared.final (h : Prepared present y s) {ds : List ℕ}
    (hquiet : Mealy.events (Kaku.decode b) s ds = []) :
    Prepared present y (Mealy.final (Kaku.decode b) s ds) := by
  induction ds generalizing s with
  | nil => exact h
  | cons d ds ih =>
      rw [Mealy.events_cons, List.append_eq_nil_iff, Option.toList_eq_nil_iff] at hquiet
      exact ih (h.decode hquiet.1) hquiet.2

theorem Prepared.turn (h : Prepared present y s) (hidle : s.state = -1) (p : ℕ) :
    Turn b p present y 0 s := ⟨hidle, h.minRepeats, h.inCallback, h.present⟩

/-- Two frames call back. -/
theorem mem_callbacks_frames {p : ℕ} {f : List ℕ} (hf : IsFrame b p y f)
    (hs : Turn b p present y 1 s) (rest : List ℕ) :
    transmitted p present y ∈ callbacks (Mealy.events (decode b) s (f ++ (f ++ rest))) := by
  rcases turn_first hf hs with ⟨hsecond, -⟩
  rw [Mealy.events_append, Mealy.events_append, callbacks_append, callbacks_append,
    (turn_second hf hsecond).2]
  simp

/-- A waiting decoder takes the next stop gap, and then two frames. -/
theorem mem_callbacks_waiting (h : Prepared present y s) (hidle : s.state = -1) {v : List ℕ}
    (hv : ∀ d ∈ v, d ≤ 4800) (rest : List ℕ) :
    transmitted 260 present y ∈ callbacks (Mealy.events (decode b) s
      (v ++ 10400 :: (frame y ++ (frame y ++ rest)))) := by
  rcases run_idle (b := b) hidle hv with ⟨hsame, hquiet⟩
  have hperiod : b.uint (10400 / 40) = 260 := b.uint_of_lt (by decide)
  rcases turn_gap (b := b) (by decide) hperiod (h.turn hidle 260) with ⟨hturn, hsilent⟩
  rw [Mealy.events_append, hsame, hquiet, Mealy.events_cons, hsilent]
  exact mem_callbacks_frames (isFrame_pulses (fits_self b (by decide) (by decide)) y) hturn rest

/-- A start pulse whose second part is too short or too long is given up. -/
theorem run_start_fails (hs : s.AtStart b q) (d : ℕ) {e : ℕ} (he : e ≤ 4800)
    (hno : ¬Band b q .start e) :
    (Mealy.final (decode b) s [d, e]).state = -1 ∧ Mealy.events (decode b) s [d, e] = [] := by
  rw [Mealy.final_cons, Mealy.final_cons, Mealy.final_nil, Mealy.events_cons, Mealy.events_cons,
    Mealy.events_nil]
  by_cases hd : Band b q .short d
  · rcases (decode_startPulse hs).1 hd with ⟨s₁, h₁, hin, -⟩
    rcases (decode_startGap hin).2 hno with ⟨s₂, h₂, hidle, -⟩
    rw [h₁, h₂]
    exact ⟨hidle, rfl⟩
  · rcases (decode_startPulse hs).2 hd with ⟨s₁, h₁, hidle, -⟩
    rw [h₁, decode_idle hidle he]
    exact ⟨hidle, rfl⟩

theorem decode_start_quiet (hs : s.AtStart b q) {d : ℕ} : (decode b s d).2 = none := by
  by_cases hshort : Band b q .short d
  · rcases (decode_startPulse hs).1 hshort with ⟨s', hdecode, -⟩
    rw [hdecode]
  · rcases (decode_startPulse hs).2 hshort with ⟨s', hdecode, -⟩
    rw [hdecode]

/-- The thresholds of a period that was taken from the duration `x`. -/
theorem uint_period (hx : x < 2 ^ b.uintBits) {k : ℕ} (hk : k ≤ 40) :
    b.uint (x / 40 * k) = x / 40 * k := by
  refine Nat.mod_eq_of_lt (lt_of_le_of_lt ?_ hx)
  calc x / 40 * k ≤ x / 40 * 40 := Nat.mul_le_mul_left _ hk
    _ ≤ x := Nat.div_mul_le_self x 40

/-- Whatever is taken for a stop gap: the thresholds of its period do not wrap. -/
theorem decode_pause (hidle : s.state = -1) (hsync : 4800 < x) (hx : x < 2 ^ b.uintBits) :
    (decode b s x).2 = none ∧ (decode b s x).1.AtStart b (x / 40) ∧
      (decode b s x).1.min1Period = x / 40 * 3 / 10 ∧ (decode b s x).1.max1Period = x / 40 * 3 := by
  rcases decode_sync (b := b) hidle hsync with ⟨s', hdecode, hstart, -, -⟩
  have hperiod : b.uint (x / 40) = x / 40 := by
    have hone := uint_period (k := 1) hx (by decide)
    rwa [Nat.mul_one] at hone
  rw [hperiod] at hstart
  rw [hdecode]
  refine ⟨rfl, hstart, ?_, ?_⟩
  · rw [hstart.tuned.min1Period, uint_period hx (by decide)]
  · rw [hstart.tuned.max1Period, uint_period hx (by decide)]

/-- What follows the first pulse of a frame that was given up. -/
theorem tail_le (y : Telegram) : ∀ d ∈ widths (bitPulses y) ++ [260], d ≤ 4800 := by
  intro d hd
  rcases List.mem_append.1 hd with hd | hd
  · rcases List.mem_flatMap.1 hd with ⟨p, hp, hd⟩
    have hmem := mem_bitPulses hp
    simp only [List.mem_cons, List.not_mem_nil, or_false] at hd
    omega
  · rw [List.mem_singleton.1 hd]
    decide

/-- With a pause below 34800 µs, a waiting decoder gets two frames: those that follow the pause, if
it comes close enough to a stop gap, or else those that follow the first stop gap. -/
theorem mem_callbacks_pause (h : Prepared present y s) (hidle : s.state = -1) (hx : x < 34800)
    (rest : List ℕ) :
    ∃ p, transmitted p present y ∈ callbacks (Mealy.events (decode b) s
      (x :: (frame y ++ (frame y ++ (frame y ++ rest))))) := by
  -- a pause above 4800 is taken for a sync gap, with the period it stands for
  by_cases hsync : 4800 < x
  · have hu : ∀ n, n < 65536 → b.uint n = n := fun _ h => b.uint_of_lt h
    rcases turn_gap (b := b) hsync (hu _ (by omega)) (h.turn hidle (x / 40)) with
      ⟨hturn, hquiet⟩
    rw [Mealy.events_cons, hquiet]
    by_cases hfit : 182 ≤ x / 40 ∧ x / 40 ≤ 390
    · -- the pause passes for a stop gap
      have hfits : Fits b (x / 40) 260 := by
        constructor <;> unfold Band
        · rw [hu (x / 40 * 3) (by omega)]
          omega
        · rw [hu (x / 40 * 3) (by omega), hu (x / 40 * 8) (by omega)]
          omega
        · rw [hu (7 * (x / 40)) (by omega), hu (15 * (x / 40)) (by omega)]
          omega
        · rw [hu (x / 40 * 3) (by omega), hu (x / 40 * 8) (by omega),
            hu (20 * (x / 40)) (by omega), hu (80 * (x / 40)) (by omega)]
          omega
      exact ⟨_, mem_callbacks_frames (isFrame_pulses hfits y) hturn _⟩
    · -- the second part of the start pulse does not fit the pause
      have hno : ¬Band b (x / 40) .start 2730 := by
        unfold Band
        rw [hu (7 * (x / 40)) (by omega), hu (15 * (x / 40)) (by omega)]
        omega
      rcases run_start_fails hturn.1 260 (by decide) hno with ⟨hgiven, hsilent⟩
      have hprepared : Prepared present y (decode b s x).1 := h.decode hquiet
      have hsplit : frame y ++ (frame y ++ (frame y ++ rest)) = [260, 2730] ++
          ((widths (bitPulses y) ++ [260]) ++ 10400 :: (frame y ++ (frame y ++ rest))) := by
        rw [frame_eq, dataWidths_eq]
        simp
      rw [hsplit, Mealy.events_append, hsilent]
      exact ⟨260, mem_callbacks_waiting (hprepared.final hsilent) hgiven (tail_le y) rest⟩
  -- a short pause is skipped, and the first frame synchronises the decoder
  · have hsplit : x :: (frame y ++ (frame y ++ (frame y ++ rest))) =
        (x :: 260 :: 2730 :: (widths (bitPulses y) ++ [260])) ++
          10400 :: (frame y ++ (frame y ++ rest)) := by
      rw [frame_eq, dataWidths_eq]
      simp
    have hv : ∀ d ∈ x :: 260 :: 2730 :: (widths (bitPulses y) ++ [260]), d ≤ 4800 := by
      intro d hd
      simp only [List.mem_cons] at hd
      rcases hd with rfl | rfl | rfl | hd
      · omega
      · decide
      · decide
      · exact tail_le y d hd
    rw [hsplit]
    exact ⟨260, mem_callbacks_waiting h hidle hv rest⟩

/-! ## What the filter makes of it -/

/-- A transmission of `n + 1` frames, begun at `t`, is called back with its content. -/
def Receives (b : Board) (s : State) (t n : ℕ) (y : Telegram) : Prop :=
  ∃ c ∈ callbacks (Mealy.events (interruptHandler b) s (stamps t (delays n y))), Encodes c y

variable {t n : ℕ} {r : State}

theorem not_receives (h : Mealy.events (interruptHandler b) r (stamps t (delays n y)) = []) :
    ¬Receives b r t n y := by
  rintro ⟨c, hc, -⟩
  rw [h] at hc
  cases hc

/-- An edge that the filter lets pass. -/
theorem step_pass {d : ℕ} (h : r.Pending b t x) (hd : d < 65536)
    (hpass : 0 ≤ r.decoder.state → r.decoder.min1Period ≤ d) :
    ∃ r', interruptHandler b r (t + d) = (r', (decode b r.decoder x).2) ∧
      r'.Pending b (t + d) d ∧ r'.decoder = (decode b r.decoder x).1 := by
  rcases h.pass (D := pulseDecoder b) (d := d) (by omega)
    (fun hactive => hpass (of_decide_eq_true hactive)) with ⟨hpending, hdecoder, hout⟩
  rw [b.uint_of_lt hd] at hpending
  exact ⟨_, Prod.ext rfl hout, hpending, hdecoder⟩

/-- As long as no pulse is shorter than the threshold, the decoder gets all intervals. -/
theorem events_open {ds : List ℕ} (h : r.Pending b t x) (hopen : Open 260 r.decoder)
    (hx : x < 34800) (hds : ∀ d ∈ ds, 260 ≤ d ∧ d ≤ 10400) :
    Mealy.events (interruptHandler b) r (stamps t ds) =
      Mealy.events (decode b) r.decoder (x :: ds).dropLast := by
  -- an open filter lets every pulse of 260 through
  have hpass : ∀ dec, Open 260 dec → (pulseDecoder b).active dec = true →
      dec.min1Period ≤ 260 := by
    intro dec hdec hactive
    have hnonneg : 0 ≤ dec.state := of_decide_eq_true hactive
    exact hdec (by omega)
  -- and no interval of the transmission closes it
  have hstep : ∀ dec, ∀ d ∈ x :: ds, Open 260 dec → Open 260 (decode b dec d).1 := by
    intro dec d hd hdec
    refine open_decode ?_ hdec
    intro _
    rcases List.mem_cons.1 hd with rfl | hd
    · omega
    · have hle := hds d hd
      omega
  have hlong : ∀ d ∈ ds, 260 ≤ d ∧ d < 65536 := by
    intro d hd
    have hle := hds d hd
    omega
  have hprocessed := h.processed (D := pulseDecoder b) hpass hopen hstep hlong
  rw [interruptHandler, Filtered.events_eq, hprocessed]
  rfl

theorem encodes_transmitted {p : ℕ} (h : Prepared present y s) :
    Encodes (transmitted p present y) y := by
  refine ⟨rfl, rfl, rfl, rfl, rfl, fun hdim => ?_⟩
  rw [transmitted, ← h.present, hdim, Bool.or_true]

theorem mem_delays {d : ℕ} (hd : d ∈ delays n y) : 260 ≤ d ∧ d ≤ 10400 := by
  rw [delays_eq] at hd
  rcases List.mem_append.1 hd with hd | hd
  · rcases List.mem_flatMap.1 hd with ⟨p, hp, hd⟩
    have hmem := mem_restPulses hp
    simp only [List.mem_cons, List.not_mem_nil, or_false] at hd
    omega
  · rw [List.mem_singleton.1 hd]
    decide

/-- After a pause below 34800 µs. -/
theorem receives_of_lt (h : r.Pending b t x) (hprepared : Prepared present y r.decoder)
    (hidle : r.decoder.state = -1) (hx : x < 34800) (n : ℕ) : Receives b r t (n + 3) y := by
  have hevents := events_open h (fun hs => absurd hidle hs) hx (fun d hd => mem_delays (n := n + 3)
    (y := y) hd)
  have hsplit : (x :: delays (n + 3) y).dropLast =
      x :: (frame y ++ (frame y ++ (frame y ++ intervals n y))) := by
    rw [delays, ← List.cons_append, List.dropLast_concat, intervals_succ, intervals_succ,
      intervals_succ]
  rcases mem_callbacks_pause (b := b) hprepared hidle hx (intervals n y) with ⟨p, hmem⟩
  rw [← hsplit, ← hevents] at hmem
  exact ⟨_, hmem, encodes_transmitted hprepared⟩

/-- After a wrong gap that leaves the filter open: whatever the pause is, the start pulse that it
makes with the first pulse is given up. -/
theorem receives_of_start (h : r.Pending b t x) (hprepared : Prepared present y r.decoder)
    (hs : r.decoder.AtStart b q) (hq : 120 ≤ q) (hq' : q ≤ 869) (n : ℕ) :
    Receives b r t (n + 3) y := by
  -- the first pulse is no start gap: the decoder gives the frame up
  have hno : ¬Band b q .start 260 := by
    unfold Band
    rw [b.uint_of_lt (n := 7 * q) (by omega)]
    omega
  have hmin : r.decoder.min1Period ≤ 260 := by
    rw [hs.tuned.min1Period, b.uint_of_lt (by omega)]
    omega
  rcases run_start_fails hs x (by decide) hno with ⟨hgiven, hsilent⟩
  have hprepared' := hprepared.final hsilent
  rcases step_pass (d := 260) h (by decide) (fun _ => hmin) with ⟨r', hstep, hpending, hdecoder⟩
  -- from then on the filter is open
  have hopen : Open 260 r'.decoder := by
    intro _
    rw [hdecoder, decode_min1Period (by rw [hs.state]; decide)]
    exact hmin
  have hsplit : intervals (n + 3) y = [260] ++ ((2730 :: (widths (bitPulses y) ++ [260])) ++
      10400 :: (frame y ++ (frame y ++ intervals n y))) := by
    rw [intervals_succ, intervals_succ, intervals_succ]
    nth_rewrite 1 [frame_eq]
    rw [dataWidths_eq]
    simp
  have htail : delays (n + 3) y = 260 :: ((2730 :: (widths (bitPulses y) ++ [260])) ++
      10400 :: (frame y ++ (frame y ++ intervals n y)) ++ [260]) := by
    rw [delays, hsplit]
    rfl
  have hevents := events_open hpending hopen (by decide) (fun d hd =>
    mem_delays (n := n + 3) (y := y) (by rw [htail]; exact List.mem_cons_of_mem _ hd))
  have hv : ∀ d ∈ 2730 :: (widths (bitPulses y) ++ [260]), d ≤ 4800 := by
    intro d hd
    rcases List.mem_cons.1 hd with rfl | hd
    · decide
    · exact tail_le y d hd
  have hrun : Mealy.events (interruptHandler b) r (stamps t (delays (n + 3) y)) =
      Mealy.events (decode b) r.decoder ([x, 260] ++ ((2730 :: (widths (bitPulses y) ++ [260])) ++
        10400 :: (frame y ++ (frame y ++ intervals n y)))) := by
    rw [htail, stamps_cons, Mealy.events_cons, hstep, hevents, ← List.cons_append,
      List.dropLast_concat, hdecoder]
    rfl
  -- the gap behind the first frame synchronises, and two frames follow it
  have hmem := mem_callbacks_waiting (b := b) hprepared' hgiven hv (intervals n y)
  refine ⟨transmitted 260 present y, ?_, encodes_transmitted hprepared⟩
  rw [hrun, Mealy.events_append, hsilent]
  exact hmem

/-- With a threshold above 260 µs every falling edge is dropped, and the rising edge after it. -/
theorem quiet_of_start (h : r.Pending b t x) (hactive : 0 ≤ r.decoder.state)
    (hmin : 260 < r.decoder.min1Period) (n : ℕ) (y : Telegram) :
    Mealy.events (interruptHandler b) r (stamps t (delays n y)) = [] := by
  rw [delays_eq]
  refine h.drop_broken_train (D := pulseDecoder b) (decide_eq_true hactive) ?_ hmin (by decide)
  intro p hp
  have hmem := mem_restPulses hp
  exact ⟨lt_of_le_of_lt hmem.1.le hmin, by omega⟩

/-! ## A wrong gap that closes the filter -/

/-- The delays after the first falling edge of a transmission. -/
def falling (n : ℕ) (y : Telegram) : List ℕ := widths (shifted (restPulses n y))

theorem delays_falling (n : ℕ) (y : Telegram) : delays n y = 260 :: falling n y := by
  rw [delays_eq, widths_shifted (fun p hp => (mem_restPulses hp).1), falling]

theorem falling_start (n : ℕ) (y : Telegram) :
    ∃ ps, falling n y = 2730 :: (widths ps ++ [260]) ∧ ∀ p ∈ ps, p.1 = 260 := by
  have hsplit : ∃ ps, restPulses n y = (260, 2730) :: ps := by
    cases n with
    | zero => exact ⟨_, rfl⟩
    | succ n => exact ⟨_, rfl⟩
  rcases hsplit with ⟨ps, hps⟩
  have hhigh : ∀ p ∈ ps, p.1 = 260 := by
    intro p hp
    have hmem : p ∈ restPulses n y := by
      rw [hps]
      exact List.mem_cons_of_mem _ hp
    exact (mem_restPulses hmem).1
  refine ⟨ps, ?_, hhigh⟩
  rw [falling, hps, widths_shifted hhigh]
  rfl

/-- The low parts of the first frame come first. -/
theorem falling_succ (n : ℕ) (y : Telegram) :
    falling (n + 1) y =
      widths (shifted ((260, 2730) :: bitPulses y)) ++ 10400 :: delays n y := by
  have hsplit : restPulses (n + 1) y =
      ((260, 2730) :: bitPulses y) ++ (260, 10400) :: restPulses n y := by
    rw [restPulses, List.replicate_succ, List.flatten_cons, List.append_assoc, pulses]
    simp [bitPulses, restPulses, pulses]
  rw [delays_falling, falling, hsplit, shifted, List.map_append, widths_append]
  rfl

section Closed

variable (h : r.Pending b t 260) (hs : r.decoder.AtStart b q)
  (hmin : r.decoder.min1Period = q * 3 / 10)

include h hs hmin

/-- Even the stop gaps are too short: every rising edge is dropped. -/
theorem quiet_of_long (hq : 10400 < q * 3 / 10) (n : ℕ) (y : Telegram) :
    Mealy.events (interruptHandler b) r (stamps t (falling n y)) = [] := by
  have hactive : 0 ≤ r.decoder.state := hs.state.ge
  refine (h.drop_train (D := pulseDecoder b) (decide_eq_true hactive) ?_).2.2
  intro p hp
  rcases List.mem_map.1 hp with ⟨p', hp', rfl⟩
  have hmem := mem_restPulses hp'
  refine ⟨?_, by omega⟩
  change p'.2 < r.decoder.min1Period
  omega

/-- Every rising edge is dropped up to the first stop gap, so that the decoder gets the whole first
frame as one interval. -/
theorem drop_frame (hq : 9104 ≤ q) (hq' : q * 3 / 10 ≤ 10400) {y : Telegram}
    (hspan : b.uint (span y) = span y) (n : ℕ) :
    ∃ r' t', r'.Pending b t' 10400 ∧ r'.decoder = (decode b r.decoder (span y)).1 ∧
      Mealy.events (interruptHandler b) r (stamps t (falling (n + 1) y)) =
        Mealy.events (interruptHandler b) r' (stamps t' (delays n y)) := by
  have hactive : 0 ≤ r.decoder.state := hs.state.ge
  have hdropped : ∀ p ∈ shifted ((260, 2730) :: bitPulses y),
      p.1 < r.decoder.min1Period ∧ p.1 < 2 ^ 32 := by
    intro p hp
    rcases List.mem_map.1 hp with ⟨p', hp', rfl⟩
    rcases List.mem_cons.1 hp' with rfl | hp'
    · exact ⟨by rw [hmin]; omega, by decide⟩
    · have hmem := mem_bitPulses hp'
      refine ⟨?_, by omega⟩
      change p'.2 < r.decoder.min1Period
      omega
  rcases h.drop_train (D := pulseDecoder b) (decide_eq_true hactive) hdropped with
    ⟨hpending, hsame, hquiet⟩
  have hwhole : b.uint (260 + (widths (shifted ((260, 2730) :: bitPulses y))).sum) = span y :=
    hspan
  rw [hwhole] at hpending
  -- the stop gap is long enough to pass
  rcases step_pass (d := 10400) hpending (by decide)
    (fun _ => by rw [hsame, hmin]; exact hq') with ⟨r', hstep, hpending', hdecoder⟩
  rw [hsame] at hstep hdecoder
  have hsilent : Mealy.events (interruptHandler b) r
      (stamps t (widths (shifted ((260, 2730) :: bitPulses y)))) = [] := hquiet
  have hedge : interruptHandler b (Mealy.final (interruptHandler b) r
      (stamps t (widths (shifted ((260, 2730) :: bitPulses y)))))
      (t + (widths (shifted ((260, 2730) :: bitPulses y))).sum + 10400) =
        (r', (decode b r.decoder (span y)).2) := hstep
  refine ⟨r', _, hpending', hdecoder, ?_⟩
  rw [falling_succ, stamps_append, Mealy.events_append, stamps_cons, Mealy.events_cons, hsilent,
    hedge, decode_start_quiet hs, List.nil_append, Option.toList_none, List.nil_append]

variable (hmax : r.decoder.max1Period = q * 3)

include hmax

/-- The start pulse passes, and then every falling edge is dropped. -/
theorem quiet_of_falling (hq : 870 ≤ q) (hq' : q ≤ 9103) (n : ℕ) (y : Telegram) :
    Mealy.events (interruptHandler b) r (stamps t (falling n y)) = [] := by
  rcases falling_start n y with ⟨ps, hfalling, hhigh⟩
  -- the high half of the start pulse is still short enough for the start
  have hshort : Band b q .short 260 := by
    rw [Band, ← hs.tuned.max1Period, hmax]
    omega
  rcases step_pass (d := 2730) h (by decide) (fun _ => by rw [hmin]; omega) with
    ⟨r', hstep, hpending, hdecoder⟩
  rcases (decode_startPulse hs).1 hshort with ⟨s', hdecode, hin, -⟩
  have hsame := decode_min1Period (b := b) (s := r.decoder) (by rw [hs.state]; decide) 260
  rw [hdecode] at hstep hdecoder hsame
  -- the filter stays closed, for the period has not changed
  have hclosed : 260 < r'.decoder.min1Period := by
    rw [hdecoder, hsame, hmin]
    omega
  have hactive : 0 ≤ r'.decoder.state := by
    rw [hdecoder, hin.state]
    decide
  rw [hfalling, stamps_cons, Mealy.events_cons, hstep]
  -- and drops the transmission pulse by pulse
  refine hpending.drop_broken_train (D := pulseDecoder b) (decide_eq_true hactive) ?_ hclosed
    (by decide)
  intro p hp
  rw [hhigh p hp]
  exact ⟨hclosed, by decide⟩

/-- The decoder takes the whole first frame for the first part of a start pulse. -/
theorem receives_falling_iff {y : Telegram} (hprepared : Prepared present y r.decoder)
    (hq : 9104 ≤ q) (hq' : q * 3 / 10 ≤ 10400) (hspan : b.uint (span y) = span y) (n : ℕ) :
    (∃ c ∈ callbacks (Mealy.events (interruptHandler b) r (stamps t (falling (n + 4) y))),
      Encodes c y) ↔ q * 3 < span y := by
  -- the filter adds the first frame up to one interval, `span y`
  rcases drop_frame h hs hmin hq hq' hspan (n + 3) with ⟨r', t', hpending, hdecoder, hevents⟩
  rw [hevents]
  change Receives b r' t' (n + 3) y ↔ _
  have hband : Band b q .short (span y) ↔ span y ≤ q * 3 := by
    rw [Band, ← hs.tuned.max1Period, hmax]
  by_cases hlong : span y ≤ q * 3
  · -- short enough for it: the filter stays closed
    rcases (decode_startPulse hs).1 (hband.2 hlong) with ⟨s', hdecode, hin, -⟩
    have hkeep := decode_min1Period (b := b) (s := r.decoder) (by rw [hs.state]; decide) (span y)
    rw [hdecode] at hdecoder hkeep
    have hactive : 0 ≤ r'.decoder.state := by
      rw [hdecoder, hin.state]
      decide
    have hclosed : 260 < r'.decoder.min1Period := by
      rw [hdecoder, hkeep, hmin]
      omega
    have hquiet := quiet_of_start hpending hactive hclosed (n + 3) y
    exact iff_of_false (not_receives hquiet) (by omega)
  · -- too long for it: the decoder waits again, and the filter opens
    rcases (decode_startPulse hs).2 (fun hshort => hlong (hband.1 hshort)) with
      ⟨s', hdecode, hidle, -⟩
    have hprepared' : Prepared present y r'.decoder := by
      rw [hdecoder]
      exact hprepared.decode (decode_start_quiet hs)
    have hidle' : r'.decoder.state = -1 := by
      rw [hdecoder, hdecode]
      exact hidle
    exact iff_of_true (receives_of_lt hpending hprepared' hidle' (by decide) n) (by omega)

end Closed

/-! ## Which pauses do -/

/-- What a waiting decoder does with a pause that it measures as `x`. -/
theorem receives_iff_of_idle (h : r.Pending b t x) (hprepared : Prepared present y r.decoder)
    (hidle : r.decoder.state = -1) (hspan : span y < 100000) (n : ℕ) :
    Receives b r t (n + 4) y ↔ x < 34800 ∨ (9104 ≤ x / 40 ∧ x / 40 * 3 < span y) := by
  by_cases hx : x < 34800
  · constructor
    · exact fun _ => Or.inl hx
    · exact fun _ => receives_of_lt h hprepared hidle hx (n + 1)
  · have hbits : x < 2 ^ b.uintBits := by
      rw [← h.duration]
      exact Nat.mod_lt _ (Nat.two_pow_pos _)
    rcases step_pass (d := 260) h (by decide) (fun hactive => by omega) with
      ⟨r', hstep, hpending, hdecoder⟩
    rcases decode_pause (b := b) hidle (by omega) hbits with ⟨hnone, hstart, hmin, hmax⟩
    have hprepared' := hprepared.decode hnone
    rw [← hdecoder] at hstart hmin hmax hprepared'
    rw [hnone] at hstep
    have hevents : Mealy.events (interruptHandler b) r (stamps t (delays (n + 4) y)) =
        Mealy.events (interruptHandler b) r' (stamps (t + 260) (falling (n + 4) y)) := by
      rw [delays_falling, stamps_cons, Mealy.events_cons, hstep, Option.toList_none,
        List.nil_append]
    rw [Receives, hevents]
    have hnot : ¬∃ c ∈ callbacks ([] : List (Completion Code)), Encodes c y := by
      rintro ⟨c, hc, -⟩
      cases hc
    -- the first low part may pass the filter, or the stop gaps only, or not even these
    by_cases hlow : x / 40 ≤ 9103
    · rw [quiet_of_falling hpending hstart hmin hmax (by omega) hlow]
      exact iff_of_false hnot (by omega)
    · by_cases hlong : 10400 < x / 40 * 3 / 10
      · rw [quiet_of_long hpending hstart hmin hlong]
        exact iff_of_false hnot (by omega)
      · have huint : b.uint (span y) = span y := Nat.mod_eq_of_lt (by omega)
        rw [receives_falling_iff hpending hstart hmin hmax hprepared' (by omega) (by omega) huint]
        omega

/-- The pauses before a transmission, as the receiver measures them, that it can stand. -/
def Audible (dim : Bool) (pause : ℕ) : Prop :=
  pause < 34800 ∨ 364160 ≤ pause ∧ pause < if dim then 1027880 else 930800

/-- The condition on the receiver and the begin of the transmission: the interval that the decoder
takes for its first gap is the pause, unless the one before it is already long enough. -/
def Hearing (b : Board) (s : State) (t : ℕ) (dim : Bool) : Prop :=
  if s.lowPass.skip then Audible dim (b.uint (micros t - s.lowPass.edge0).toNat)
  else if b.uint (s.lowPass.edge2 - s.lowPass.edge0).toNat ≤ 4800 then
    Audible dim (b.uint (micros t - s.lowPass.edge2).toNat)
  else b.uint (s.lowPass.edge2 - s.lowPass.edge0).toNat < 34800

theorem receives_iff_audible {address : ℕ} {cmd : Command} (h : r.Pending b t x)
    (hprepared : Prepared present (cmd.telegram address) r.decoder)
    (hidle : r.decoder.state = -1) :
    Receives b r t 7 (cmd.telegram address) ↔
      Audible (cmd.telegram address).dim.isSome x := by
  have hspan := span_telegram address cmd
  rw [receives_iff_of_idle h hprepared hidle (by rw [hspan]; split <;> decide) 3, hspan, Audible]
  cases (cmd.telegram address).dim.isSome with
  | true =>
      rw [if_pos rfl, if_pos rfl]
      omega
  | false =>
      rw [if_neg (by decide), if_neg (by decide)]
      omega

/-- After the first edge of the transmission, at which the decoder got the interval `d`. -/
theorem receives_iff_of_first {address d : ℕ} {cmd : Command} (h : r.Pending b t x)
    (hdecoder : r.decoder = (decode b s d).1)
    (hprepared : Prepared present (cmd.telegram address) s) (hidle : s.state = -1)
    (hd : d < 2 ^ b.uintBits) :
    Receives b r t 7 (cmd.telegram address) ↔
      if d ≤ 4800 then Audible (cmd.telegram address).dim.isSome x else d < 34800 := by
  -- either the first interval is no sync gap and the decoder still waits
  by_cases hgap : d ≤ 4800
  · rw [decode_idle hidle hgap] at hdecoder
    change r.decoder = s at hdecoder
    rw [if_pos hgap]
    rw [← hdecoder] at hprepared hidle
    exact receives_iff_audible h hprepared hidle
  · rcases decode_pause (b := b) hidle (by omega) hd with ⟨hnone, hstart, hmin, -⟩
    have hprepared' := hprepared.decode hnone
    rw [← hdecoder] at hstart hmin hprepared'
    rw [if_neg hgap]
    -- or it sets the period, which opens the filter for 260 or closes it
    by_cases hopen : d < 34800
    · have hreceives := receives_of_start h hprepared' hstart (by omega) (by omega) 4
      exact iff_of_true hreceives hopen
    · have hactive : 0 ≤ r.decoder.state := hstart.state.ge
      have hclosed : 260 < r.decoder.min1Period := by
        rw [hmin]
        omega
      have hquiet := quiet_of_start h hactive hclosed 7 (cmd.telegram address)
      exact iff_of_false (not_receives hquiet) hopen

theorem decode_idle_quiet (hidle : s.state = -1) {d : ℕ} : (decode b s d).2 = none := by
  by_cases hgap : d ≤ 4800
  · rw [decode_idle hidle hgap]
  · rcases decode_sync (b := b) (d := d) hidle (by omega) with ⟨s', hdecode, -⟩
    rw [hdecode]

/-- A transmission of eight frames with the period 260 µs is called back at least once, unless the
pause before it, or the interval before the pause, closes the filter. -/
theorem send_received_iff (b : Board) (address : ℕ) (cmd : Command) (s : State) (t : ℕ)
    (henabled : s.enabled = true) (hstate : s.decoder.state = -1)
    (hrepeats : s.decoder.filter.minRepeats = 2)
    (hcallback : s.decoder.filter.inCallback = false) :
    (∃ c ∈ callbacks (Mealy.events (interruptHandler b) s
        (edges ⟨LOW, t⟩ (cmd.send b (Transmitter.new 260 3) address))),
      Encodes c (cmd.telegram address)) ↔
      Hearing b s t (cmd.telegram address).dim.isSome := by
  have hprepared : Prepared _ (cmd.telegram address) s.decoder := ⟨hrepeats, hcallback, rfl⟩
  have hedges : edges ⟨LOW, t⟩ (cmd.send b (Transmitter.new 260 3) address) =
      t :: stamps t (delays 7 (cmd.telegram address)) := by
    rw [edges_send b (by decide) (by decide), stamps_cons, Nat.add_zero, delays, intervals,
      List.append_assoc]
    rfl
  rw [hedges, Mealy.events_cons, Hearing]
  -- the first edge either ends a glitch or hands its interval to the decoder
  cases hskip : s.lowPass.skip with
  | true =>
      have hstep := Filtered.onEdge_skip (b := b) (D := pulseDecoder b) henabled hskip t
      have hpending : Filtered.Pending b
          { s with lowPass := { s.lowPass with edge2 := micros t, skip := false } } t
          (b.uint (micros t - s.lowPass.edge0).toNat) := ⟨henabled, rfl, rfl, rfl⟩
      rw [interruptHandler, hstep, if_pos rfl]
      exact receives_iff_audible hpending hprepared hstate
  | false =>
      have hinactive : (pulseDecoder b).active s.decoder = false := by
        refine decide_eq_false ?_
        rw [hstate]
        decide
      rcases Filtered.pass_inactive (b := b) henabled hskip hinactive t with
        ⟨hpending, -, hdecoder, hout⟩
      have hbits : b.uint (s.lowPass.edge2 - s.lowPass.edge0).toNat < 2 ^ b.uintBits :=
        Nat.mod_lt _ (Nat.two_pow_pos _)
      have hquiet : (interruptHandler b s t).2 = none := by
        rw [← decode_idle_quiet (b := b) hstate]
        exact hout
      rw [if_neg (by decide), hquiet, Option.toList_none, List.nil_append]
      exact receives_iff_of_first hpending hdecoder hprepared hstate hbits

/-- The lamp of unit 15 switched on after 30 ms of silence. -/
theorem send_received_iff_example :
    (∃ c ∈ callbacks (Mealy.events (interruptHandler .avr) (init 2 0 0)
        (edges ⟨LOW, 30000⟩ ((Command.unit 15 true).send .avr (Transmitter.new 260 3) 1000))),
      Encodes c ((Command.unit 15 true).telegram 1000)) ↔
      Hearing .avr (init 2 0 0) 30000 ((Command.unit 15 true).telegram 1000).dim.isSome :=
  send_received_iff .avr 1000 (.unit 15 true) (init 2 0 0) 30000 rfl rfl rfl rfl

/-- After 40 ms of silence the receiver does not hear it. -/
theorem send_unheard :
    ¬∃ c ∈ callbacks (Mealy.events (interruptHandler .avr) (init 2 0 0)
        (edges ⟨LOW, 40000⟩ ((Command.unit 15 true).send .avr (Transmitter.new 260 3) 1000))),
      Encodes c ((Command.unit 15 true).telegram 1000) := by
  have hsilent : callbacks (Mealy.events (interruptHandler .avr) (init 2 0 0)
      (edges ⟨LOW, 40000⟩ ((Command.unit 15 true).send .avr (Transmitter.new 260 3) 1000))) =
      [] := by decide +kernel
  rintro ⟨c, hc, -⟩
  rw [hsilent] at hc
  cases hc

end Kaku
end LamPI
