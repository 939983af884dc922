import LamPI.Kaku.Transmitter

/-!
# KlikAanKlikUit round trip

The receiver takes the stop gap of the first copy for its synchronisation, reads the next two
copies, calls back, and waits for the next gap: one callback for every three gaps.
-/

namespace LamPI
namespace Kaku

open PulseLine BigEndian

variable {b : Board} {p q : ℕ} {y : Telegram} {s : Decoder}

/-! ## A frame without errors -/

/-- The intervals of a frame before its stop pulse. -/
def dataWidths (p : ℕ) (y : Telegram) : List ℕ :=
  [p, p * 10 + p / 2] ++ widths (y.symbols.flatMap (symbolPulses p))

theorem widths_pulses (p : ℕ) (y : Telegram) :
    widths (pulses p y) = dataWidths p y ++ [p, p * 40] := by
  rw [pulses, widths_append, widths_append]
  rfl

/-- A transmission with the period `p` lies in the bands for the period `q`. -/
structure Fits (b : Board) (q p : ℕ) : Prop where
  short : Band b q .short p
  long : Band b q .long (p * 5)
  start : Band b q .start (p * 10 + p / 2)
  stop : Band b q .stop (p * 40)

/-- The nominal durations lie in the bands of their own period. -/
theorem fits_self (b : Board) (hp : 121 ≤ p) (hp' : p ≤ 409) : Fits b p p := by
  have hu : ∀ n : ℕ, n < 65536 → b.uint n = n := fun _ h => b.uint_of_lt h
  constructor <;> unfold Band
  · rw [hu (p * 3) (by omega)]
    omega
  · rw [hu (p * 3) (by omega), hu (p * 8) (by omega)]
    omega
  · rw [hu (7 * p) (by omega), hu (15 * p) (by omega)]
    omega
  · rw [hu (p * 3) (by omega), hu (p * 8) (by omega), hu (20 * p) (by omega),
      hu (80 * p) (by omega)]
    omega

theorem forall₂_symbols (h : Fits b q p) (ys : List Symbol) :
    List.Forall₂ (Band b q) ((ys.flatMap parts).map part)
      (widths (ys.flatMap (symbolPulses p))) := by
  have hshort := h.short
  have hlong := h.long
  induction ys with
  | nil => exact List.Forall₂.nil
  | cons x ys ih =>
      have hsymbol : List.Forall₂ (Band b q) ((parts x).map part) (widths (symbolPulses p x)) := by
        cases x with
        | zero => simp [parts, part, symbolPulses, widths, hshort, hlong]
        | one => simp [parts, part, symbolPulses, widths, hshort, hlong]
        | dim => simp [parts, part, symbolPulses, widths, hshort]
      rw [List.flatMap_cons, List.flatMap_cons, List.map_append, widths_append]
      exact List.rel_append hsymbol ih

theorem forall₂_dataWidths (h : Fits b q p) (y : Telegram) :
    List.Forall₂ (Band b q) ([.short, .start] ++ (y.symbols.flatMap parts).map part)
      (dataWidths p y) :=
  List.Forall₂.cons h.short (List.Forall₂.cons h.start (forall₂_symbols h y.symbols))

theorem isFrame_pulses (h : Fits b q p) (y : Telegram) : IsFrame b q y (widths (pulses p y)) := by
  rw [IsFrame, layout, widths_pulses, ← List.append_assoc]
  exact List.rel_append (forall₂_dataWidths h y)
    (List.Forall₂.cons h.short (List.Forall₂.cons h.stop List.Forall₂.nil))

theorem mem_dataWidths {d : ℕ} (hd : d ∈ dataWidths p y) : p ≤ d ∧ d ≤ p * 10 + p / 2 := by
  rcases List.mem_append.1 hd with hd | hd
  · simp only [List.mem_cons, List.not_mem_nil, or_false] at hd
    rcases hd with rfl | rfl <;> omega
  · rcases List.mem_flatMap.1 hd with ⟨w, hw, hd⟩
    rcases List.mem_flatMap.1 hw with ⟨x, -, hw⟩
    cases x with
    | zero =>
        simp [symbolPulses] at hw
        rcases hw with rfl | rfl <;> simp at hd <;> omega
    | one =>
        simp [symbolPulses] at hw
        rcases hw with rfl | rfl <;> simp at hd <;> omega
    | dim =>
        simp [symbolPulses] at hw
        subst hw
        simp at hd
        omega

/-! ## The copies of a transmission -/

/-- The code that every callback of a transmission gets; `present` tells whether `dimLevelPresent`
is set, which the frame alone does not decide. -/
def transmitted (p : ℕ) (present : Bool) (y : Telegram) : Code :=
  { period := p
    address := y.address
    groupBit := y.groupBit
    switchType := y.switchType
    unit := y.unit
    dimLevelPresent := present
    dimLevel := dimValue y.dim }

theorem sameCode_self (c : Code) : sameCode c c = true := by
  simp [sameCode]

/-- The code of a frame read with the thresholds of the transmission. -/
theorem delivered_eq {c : Code} {present : Bool} (hperiod : c.period = p)
    (hpresent : (c.dimLevelPresent || y.dim.isSome) = present) :
    delivered c y = transmitted p present y := by
  rw [delivered, hperiod, hpresent]
  rfl

theorem transmitted_present {present : Bool} (h : y.dim.isSome = true → present = true) :
    ((transmitted p present y).dimLevelPresent || y.dim.isSome) = present := by
  rw [transmitted]
  cases hdim : y.dim.isSome with
  | false => simp
  | true => simp [h hdim]

/-- The states that the copies of a frame go through: idle, and the decoder about to read a frame
of the same transmission for the first or the second time. -/
def Turn (b : Board) (p : ℕ) (present : Bool) (y : Telegram) : ℕ → Decoder → Prop
  | 0, s => s.state = -1 ∧ s.filter.minRepeats = 2 ∧ s.filter.inCallback = false ∧
      (s.receivedCode.dimLevelPresent || y.dim.isSome) = present
  | 1, s => s.AtStart b p ∧ s.filter.minRepeats = 2 ∧ s.filter.inCallback = false ∧
      (s.receivedCode.dimLevelPresent || y.dim.isSome) = present ∧ s.filter.repeats = 0
  | _, s => s.AtStart b p ∧ s.filter.minRepeats = 2 ∧ s.filter.inCallback = false ∧
      (s.receivedCode.dimLevelPresent || y.dim.isSome) = present ∧ s.filter.repeats = 1 ∧
      sameCode (transmitted p present y) s.filter.previousCode = true

/-- Nothing but a gap ends the waiting. -/
theorem run_idle (hs : s.state = -1) {w : List ℕ} (hw : ∀ d ∈ w, d ≤ 4800) :
    Mealy.final (decode b) s w = s ∧ Mealy.events (decode b) s w = [] := by
  induction w with
  | nil => exact ⟨rfl, rfl⟩
  | cons d w ih =>
      have hidle := decode_idle (b := b) hs (hw d (by simp))
      rw [Mealy.final_cons, Mealy.events_cons, hidle]
      exact ih (fun x hx => hw x (by simp [hx]))

variable {present : Bool}

/-- A gap that is 40 periods long. -/
theorem turn_gap {gap : ℕ} (hgap : 4800 < gap) (hp : b.uint (gap / 40) = p)
    (hs : Turn b p present y 0 s) :
    Turn b p present y 1 (decode b s gap).1 ∧ (decode b s gap).2 = none := by
  rcases hs with ⟨hstate, hrepeats, hcallback, hpresent⟩
  rcases decode_sync (b := b) hstate hgap with ⟨s', hsync, hstart, hfilter, hcode⟩
  rw [hp] at hstart
  rw [hsync]
  refine ⟨⟨hstart, ?_, ?_, ?_, ?_⟩, rfl⟩
  · rw [hfilter]
    exact hrepeats
  · rw [hfilter]
    exact hcallback
  · rw [hcode]
    exact hpresent
  · rw [hfilter]

theorem turn_sync (hp : 121 ≤ p) (hp' : p ≤ 409) (hs : Turn b p present y 0 s) :
    Turn b p present y 1 (Mealy.final (decode b) s (widths (pulses p y))) ∧
      callbacks (Mealy.events (decode b) s (widths (pulses p y))) = [] := by
  have hdata : ∀ d ∈ dataWidths p y ++ [p], d ≤ 4800 := by
    intro d hd
    rcases List.mem_append.1 hd with hd | hd
    · have hle := (mem_dataWidths hd).2
      omega
    · rw [List.mem_singleton.1 hd]
      omega
  rcases run_idle (b := b) hs.1 hdata with ⟨hsame, hquiet⟩
  have hperiod : b.uint (p * 40 / 40) = p := by
    rw [Nat.mul_div_cancel _ (by decide)]
    exact b.uint_of_lt (by omega)
  rcases turn_gap (b := b) (by omega) hperiod hs with ⟨hturn, hsilent⟩
  have hsplit : widths (pulses p y) = (dataWidths p y ++ [p]) ++ [p * 40] := by
    rw [widths_pulses, List.append_assoc]
    rfl
  rw [hsplit, Mealy.final_append, Mealy.events_append, hsame, hquiet, Mealy.final_cons,
    Mealy.events_cons, hsilent]
  exact ⟨hturn, rfl⟩

theorem turn_first {f : List ℕ} (hf : IsFrame b p y f) (hs : Turn b p present y 1 s) :
    Turn b p present y 2 (Mealy.final (decode b) s f) ∧
      callbacks (Mealy.events (decode b) s f) = [] := by
  rcases hs with ⟨hstart, hrepeats, hcallback, hpresent, hzero⟩
  rcases run_frame hstart hf with ⟨hbetween, hevents⟩
  have hcode := delivered_eq hstart.tuned.period hpresent
  rw [counted, hcode] at hbetween hevents
  have hmore : (s.filter.count sameCode (transmitted p present y)).reached = false :=
    RepeatFilter.not_reached_count hrepeats hzero
  have hfilter := hbetween.filter
  constructor
  · refine ⟨hbetween.reading hmore, ?_, ?_, ?_, ?_, ?_⟩
    · rw [hfilter, RepeatFilter.count_minRepeats, hrepeats]
    · rw [hfilter, RepeatFilter.count_inCallback, hcallback]
    · rw [hbetween.code]
      exact transmitted_present fun hdim => by rw [← hpresent, hdim, Bool.or_true]
    · rw [hfilter, RepeatFilter.repeats_count hzero]
    · rw [hfilter]
      exact RepeatFilter.same_previousCode_count (sameCode_self _)
  · rw [hevents]
    simp [callbacks, RepeatFilter.completion, hmore]

theorem turn_second {f : List ℕ} (hf : IsFrame b p y f) (hs : Turn b p present y 2 s) :
    Turn b p present y 0 (Mealy.final (decode b) s f) ∧
      callbacks (Mealy.events (decode b) s f) = [transmitted p present y] := by
  rcases hs with ⟨hstart, hrepeats, hcallback, hpresent, hone, hsame⟩
  rcases run_frame hstart hf with ⟨hbetween, hevents⟩
  have hcode := delivered_eq hstart.tuned.period hpresent
  rw [counted, hcode] at hbetween hevents
  have hreached : (s.filter.count sameCode (transmitted p present y)).reached = true :=
    RepeatFilter.reached_count hrepeats hone hsame
  have hfilter := hbetween.filter
  constructor
  · refine ⟨hbetween.idle hreached, ?_, ?_, ?_⟩
    · rw [hfilter, RepeatFilter.count_minRepeats, hrepeats]
    · rw [hfilter, RepeatFilter.count_inCallback, hcallback]
    · rw [hbetween.code]
      exact transmitted_present fun hdim => by rw [← hpresent, hdim, Bool.or_true]
  · rw [hevents]
    simp [callbacks, codes, RepeatFilter.completion, hreached, hcallback]

/-- A frame that breaks off before its stop pulse calls nobody. -/
theorem turn_broken (hp : 121 ≤ p) (hp' : p ≤ 409) (n : ℕ) (hs : Turn b p present y n s) :
    Mealy.events (decode b) s (dataWidths p y) = [] := by
  have hquiet : s.AtStart b p → Mealy.events (decode b) s (dataWidths p y) = [] :=
    fun hstart => (run_symbols hstart (forall₂_dataWidths (fits_self b hp hp') y)).2.1
  match n, hs with
  | 0, hs =>
      refine (run_idle hs.1 ?_).2
      intro d hd
      have hle := (mem_dataWidths hd).2
      omega
  | 1, hs => exact hquiet hs.1
  | n + 2, hs => exact hquiet hs.1

theorem callbacks_transmission (hp : 121 ≤ p) (hp' : p ≤ 409) (hs : Turn b p present y 0 s)
    (n : ℕ) :
    callbacks (Mealy.events (decode b) s
        ((List.replicate n (widths (pulses p y))).flatten ++ dataWidths p y)) =
      List.replicate (n / 3) (transmitted p present y) := by
  rcases callbacks_copies (A := Turn b p present y) (w := widths (pulses p y))
    (c := transmitted p present y) (fun s h => turn_sync hp hp' h)
    (fun s h => turn_first (isFrame_pulses (fits_self b hp hp') y) h)
    (fun s h => turn_second (isFrame_pulses (fits_self b hp hp') y) h) hs n with ⟨hturn, hcalls⟩
  rw [Mealy.events_append, callbacks_append, hcalls, turn_broken hp hp' _ hturn]
  simp

/-! ## Through the low-pass filter -/

/-- Once it is synchronised, the decoder leaves the filter's threshold alone. -/
theorem decode_min1Period (hne : s.state ≠ -1) (d : ℕ) :
    (decode b s d).1.min1Period = s.min1Period := by
  have houtcome := decode_outcome b s d
  generalize decode b s d = r at houtcome ⊢
  cases houtcome with
  | idle hs => rfl
  | sync hs => exact absurd hs hne
  | reset => rfl
  | advance => rfl
  | complete => rfl

/-- No pulse of the transmission is shorter than the filter's threshold. -/
def Open (p : ℕ) (s : Decoder) : Prop := s.state ≠ -1 → s.min1Period ≤ p

/-- Only an accepted gap can raise the threshold. -/
theorem open_decode {d : ℕ} (hd : 4800 < d → d < 65536 ∧ d / 40 * 3 / 10 ≤ p) (h : Open p s) :
    Open p (decode b s d).1 := by
  by_cases hs : s.state = -1
  · by_cases hsync : 4800 < d
    · rcases hd hsync with ⟨hlt, hle⟩
      rcases decode_sync (b := b) (d := d) hs hsync with ⟨s', hdecode, hstart, -, -⟩
      rw [hdecode]
      intro _
      rw [hstart.tuned.min1Period, b.uint_of_lt (n := d / 40) (by omega), b.uint_of_lt (by omega)]
      exact hle
    · rw [decode_idle hs (Nat.le_of_not_lt hsync)]
      exact h
  · intro _
    rw [decode_min1Period hs]
    exact h hs

/-- The delays between the edges of a transmission of `n + 1` copies. -/
theorem edges_send (b : Board) {r : ℕ} (hp : p ≤ 409) (hr : r ≤ 7) (address : ℕ) (cmd : Command)
    (t : ℕ) :
    edges ⟨LOW, t⟩ (cmd.send b (Transmitter.new p r) address) =
      stamps t (0 :: ((List.replicate (2 ^ r - 1)
        (widths (pulses p (cmd.telegram address)))).flatten ++
          (dataWidths p (cmd.telegram address) ++ [p]))) := by
  have hcopies : 2 ^ r = (2 ^ r - 1) + 1 := by
    have := Nat.one_le_two_pow (n := r)
    omega
  have hlast : (List.replicate (2 ^ r) (widths (pulses p (cmd.telegram address)))).flatten =
      ((List.replicate (2 ^ r - 1) (widths (pulses p (cmd.telegram address)))).flatten ++
        (dataWidths p (cmd.telegram address) ++ [p])) ++ [p * 40] := by
    rw [hcopies, List.replicate_succ', List.flatten_append, Nat.add_sub_cancel, List.append_assoc]
    congr 1
    rw [List.flatten_singleton, widths_pulses, List.append_assoc]
    rfl
  rw [send_eq b hp hr, edges_train, widths_replicate, hlast, ← List.cons_append,
    List.dropLast_concat]

/-- The intervals of a transmission without its last gap. -/
theorem mem_transmission (hp' : p ≤ 409) {n d : ℕ}
    (hd : d ∈ (List.replicate n (widths (pulses p y))).flatten ++ dataWidths p y ++ [p]) :
    p ≤ d ∧ (d ≤ 4800 ∨ d = p * 40) := by
  have hdata : d ∈ dataWidths p y → p ≤ d ∧ (d ≤ 4800 ∨ d = p * 40) := by
    intro hd
    have hle := mem_dataWidths hd
    omega
  rcases List.mem_append.1 hd with hd | hd
  · rcases List.mem_append.1 hd with hd | hd
    · rcases List.mem_flatten.1 hd with ⟨w, hw, hd⟩
      rw [List.eq_of_mem_replicate hw, widths_pulses, List.mem_append] at hd
      rcases hd with hd | hd
      · exact hdata hd
      · simp only [List.mem_cons, List.not_mem_nil, or_false] at hd
        omega
    · exact hdata hd
  · rw [List.mem_singleton.1 hd]
    omega

/-- No pulse is shorter than a period, so that the filter lets every edge of a transmission pass. -/
theorem events_transmission {s : State} {t n : ℕ} (hp' : p ≤ 409)
    (henabled : s.enabled = true) (hstate : s.decoder.state = -1) (hskip : s.lowPass.skip = false)
    (hpending : b.uint (s.lowPass.edge2 - s.lowPass.edge0).toNat ≤ 4800)
    (hpause : b.uint (micros t - s.lowPass.edge2).toNat ≤ 4800) :
    Mealy.events (interruptHandler b) s (stamps t
        (0 :: ((List.replicate n (widths (pulses p y))).flatten ++ dataWidths p y ++ [p]))) =
      Mealy.events (decode b) s.decoder
        ((List.replicate n (widths (pulses p y))).flatten ++ dataWidths p y) := by
  -- the first edge only starts the clock; after that the filter lets every edge through
  refine Filtered.events_first (D := pulseDecoder b) (I := Open p) (m := p) henabled hskip
    (decide_eq_false (by rw [hstate]; decide)) (fun h => absurd hstate h) ?_
    (decode_idle hstate hpending) (decode_idle hstate hpause) ?_ ?_
  · intro dec h hactive
    have hnonneg : 0 ≤ dec.state := of_decide_eq_true hactive
    exact h (by omega)
  · intro dec d hd h
    refine open_decode ?_ h
    intro hgap
    rcases List.mem_cons.1 hd with rfl | hd
    · omega
    · rcases (mem_transmission hp' hd).2 with hle | rfl <;> omega
  -- no interval is shorter than a pulse
  · intro d hd
    have hle := mem_transmission hp' hd
    omega

/-- Every transmission is received: one callback for every three of its gaps, each with what was
sent; `dimLevelPresent` is set for dim commands, and left as it was for the others. -/
theorem send_received (b : Board) (p r t : ℕ) (hp : 121 ≤ p) (hp' : p ≤ 409) (hr : r ≤ 7)
    (address : ℕ) (cmd : Command) (s : State) (henabled : s.enabled = true)
    (hstate : s.decoder.state = -1) (hskip : s.lowPass.skip = false)
    (hrepeats : s.decoder.filter.minRepeats = 2) (hcallback : s.decoder.filter.inCallback = false)
    (hpending : b.uint (s.lowPass.edge2 - s.lowPass.edge0).toNat ≤ 4800)
    (hpause : b.uint (micros t - s.lowPass.edge2).toNat ≤ 4800) :
    callbacks (Mealy.events (interruptHandler b) s
        (edges ⟨LOW, t⟩ (cmd.send b (Transmitter.new p r) address))) =
      List.replicate ((2 ^ r - 1) / 3)
        (transmitted p
          (s.decoder.receivedCode.dimLevelPresent || (cmd.telegram address).dim.isSome)
          (cmd.telegram address)) := by
  rw [edges_send b hp' hr, ← List.append_assoc,
    events_transmission hp' henabled hstate hskip hpending hpause]
  exact callbacks_transmission hp hp' ⟨hstate, hrepeats, hcallback, rfl⟩ _

/-- Unit 3 of address 1000 dimmed to level 9, with a period of 260 µs and 8 copies, 1 ms after an
edge. -/
theorem send_received_example :
    callbacks (Mealy.events (interruptHandler .avr) (init 2 0 0)
        (edges ⟨LOW, 1000⟩ ((Command.dim 3 9).send .avr (Transmitter.new 260 3) 1000))) =
      List.replicate ((2 ^ 3 - 1) / 3)
        (transmitted 260
          ((init 2 0 0).decoder.receivedCode.dimLevelPresent ||
            ((Command.dim 3 9).telegram 1000).dim.isSome)
          ((Command.dim 3 9).telegram 1000)) :=
  send_received .avr 260 3 1000 (by decide) (by decide) (by decide) 1000 (.dim 3 9) (init 2 0 0)
    rfl rfl rfl rfl rfl (by decide) (by decide)

end Kaku
end LamPI
