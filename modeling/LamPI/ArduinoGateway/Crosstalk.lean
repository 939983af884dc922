import LamPI.ArduinoGateway.Waiting
import LamPI.Bystanders.Quhwa
import LamPI.Kaku.RoundTrip
import LamPI.Livolo.RoundTrip
import LamPI.Quhwa.RoundTrip
import LamPI.Remote.RoundTrip
import LamPI.Wt440.Transmitter

/-!
# Crosstalk

What a transmitter sends is heard by the receivers of all protocols.  A receiver of another protocol
that waits completes no frame: most of them find no start pulse, and the others begin frames that soon
break off.
-/

namespace LamPI

open PulseLine Bystander

variable {γ δ ε : Type}

/-! ## Handlers that decode at once -/

/-- A transmission as the decoder sees it: behind the pause, every interval as it was sent. -/
theorem Sampled.events_send {decode : δ → ℕ → δ × Option ε} {s : Sampled δ} {t : ℕ} {ws : List ℕ}
    (henabled : s.enabled = true) (hws : ∀ d ∈ ws, d < 65536) :
    Mealy.events (onEdge decode) s (stamps t (0 :: ws)) =
      Mealy.events decode s.decoder ((micros t - s.edge2).toNat :: ws) := by
  rw [events_eq henabled, measured_stamps_cons (fun d hd => by have hlt := hws d hd; omega)]
  rfl

/-- A train of pulses each of which has a half that breaks off a frame. -/
theorem Sampled.silent_of_broken {decode : δ → ℕ → δ × Option ε} {inv : δ → Prop} {depth : δ → ℕ}
    {bad : ℕ → Prop} {N t p : ℕ} {s : Sampled δ} {ps : List (ℕ × ℕ)}
    (h : Broken decode inv depth (fun _ => True) bad N) (hN : 4 ≤ N) (henabled : s.enabled = true)
    (hinv : inv s.decoder) (hdepth : depth s.decoder = 0) (hps : ∀ q ∈ ps, bad q.1 ∨ bad q.2)
    (hws : ∀ d ∈ widths ps ++ [p], d < 65536) :
    Mealy.events (onEdge decode) s (stamps t (0 :: (widths ps ++ [p]))) = [] := by
  rw [events_send henabled hws]
  -- the pause, the pulses, and the last half pulse
  rcases h.run_short hinv (w := [(micros t - s.edge2).toNat]) (fun _ _ => trivial)
    (by rw [hdepth, List.length_singleton]; omega) with ⟨hfirst, hfirstdepth, hfirstquiet⟩
  rw [hdepth, List.length_singleton] at hfirstdepth
  have hblocks : ∀ w ∈ ps.map fun q => [q.1, q.2],
      (∀ i ∈ w, True) ∧ (∃ i ∈ w, bad i) ∧ w.length ≤ 2 := by
    intro w hw
    rcases List.mem_map.1 hw with ⟨q, hq, rfl⟩
    refine ⟨fun _ _ => trivial, ?_, le_rfl⟩
    rcases hps q hq with hbad | hbad
    · exact ⟨q.1, List.mem_cons_self, hbad⟩
    · exact ⟨q.2, List.mem_cons_of_mem _ List.mem_cons_self, hbad⟩
  rcases h.run_blocks (L := 2) hN hfirst (by omega) hblocks with
    ⟨htrain, htraindepth, htrainquiet⟩
  rw [flatten_widths] at htrain htraindepth htrainquiet
  rcases h.run_short htrain (w := [p]) (fun _ _ => trivial)
    (by rw [List.length_singleton]; omega) with ⟨-, -, hlastquiet⟩
  rw [← List.singleton_append, Mealy.events_append, Mealy.events_append, hfirstquiet, htrainquiet,
    hlastquiet]
  rfl

/-! ## Handlers with the low-pass filter -/

theorem Kaku.exists_listening {b : Board} {s : State} {t : ℕ} (henabled : s.enabled = true)
    (hstate : s.decoder.state = -1) (hquiet : ∀ d ∈ s.untilPulse b t, d ≤ 4800) :
    ∃ s', Listening b s' t ∧ s'.decoder = s.decoder ∧ ∀ ts,
      Mealy.events (interruptHandler b) s (t :: ts) =
        Mealy.events (interruptHandler b) s' (t :: ts) := by
  rcases Filtered.exists_passing (D := pulseDecoder b) henabled
    (decide_eq_false (by rw [hstate]; decide)) (decode_idle hstate (Nat.zero_le _)) hquiet with
    ⟨s', henabled', hdecoder, hskip, hpending, hpause, hevents⟩
  exact ⟨s', ⟨henabled', by rw [hdecoder]; exact hstate, hskip, hpending, hpause⟩, hdecoder, hevents⟩

theorem Remote.exists_listening {b : Board} {s : State} {t : ℕ} (henabled : s.enabled = true)
    (hstate : s.decoder.state = -1) (hquiet : ∀ d ∈ s.untilPulse b t, d ≤ 3720) :
    ∃ s', Listening b s' t ∧ s'.decoder = s.decoder ∧ ∀ ts,
      Mealy.events (interruptHandler b) s (t :: ts) =
        Mealy.events (interruptHandler b) s' (t :: ts) := by
  rcases Filtered.exists_passing (D := pulseDecoder b) henabled
    (decide_eq_false (by rw [hstate]; decide)) (decode_idle hstate (Nat.zero_le _)) hquiet with
    ⟨s', henabled', hdecoder, hskip, hpending, hpause, hevents⟩
  exact ⟨s', ⟨henabled', by rw [hdecoder]; exact hstate, hskip, hpending, hpause⟩, hdecoder, hevents⟩

/-- A transmission of pulses that are too short for a gap. -/
theorem Kaku.Listening.silent_of_short {b : Board} {s : State} {t : ℕ} {ws : List ℕ}
    (h : Listening b s t) (hws : ∀ d ∈ ws, d ≤ 4800) :
    Mealy.events (interruptHandler b) s (stamps t (0 :: ws)) = [] :=
  Filtered.events_waiting h.enabled h.skip (decide_eq_false (by rw [h.state]; decide))
    (decode_idle h.state h.pending) (decode_idle h.state h.pause)
    (fun d hd => decode_idle h.state (hws d hd)) (fun d hd => (hws d hd).trans_lt (by decide))

theorem Remote.Listening.silent_of_short {b : Board} {s : State} {t : ℕ} {ws : List ℕ}
    (h : Listening b s t) (hws : ∀ d ∈ ws, d ≤ 3720) :
    Mealy.events (interruptHandler b) s (stamps t (0 :: ws)) = [] :=
  Filtered.events_waiting h.enabled h.skip (decide_eq_false (by rw [h.state]; decide))
    (decode_idle h.state h.pending) (decode_idle h.state h.pause)
    (fun d hd => decode_idle h.state (hws d hd)) (fun d hd => (hws d hd).trans_lt (by decide))

/-! ## WT440 -/

/-- Whatever the pause was, it is at most the beginning of a leader. -/
theorem Wt440.silent_of_waiting {s : State} {t : ℕ} {ws : List ℕ} (henabled : s.enabled = true)
    (hrun : s.decoder.Running) (hstate : s.decoder.state = -1)
    (hws : ∀ d ∈ ws, d < 65536 ∧ ¬(1500 ≤ d ∧ d ≤ 2400)) :
    Mealy.events interruptHandler s (stamps t (0 :: ws)) = [] := by
  have hlong : ∀ d ∈ ws, ¬SyncPulse d := by
    intro d hd
    have hlt := (hws d hd).1
    rw [SyncPulse, Nat.mod_eq_of_lt hlt]
    exact (hws d hd).2
  rw [interruptHandler, Sampled.events_send henabled fun d hd => (hws d hd).1, Mealy.events_cons]
  generalize (micros t - s.edge2).toNat = pause
  have hnext : (decode s.decoder pause).1.state < 8 ∧ (decode s.decoder pause).2 = none := by
    rw [decode, if_neg (by simp [hrun.1]), if_neg (by omega)]
    simp only [if_pos hstate]
    split_ifs
    · exact ⟨by simp [Decoder.reset], rfl⟩
    · rw [advance, close_of_lt (by simp [hstate])]
      exact ⟨by simp [hstate], rfl⟩
    · exact ⟨by simp [hstate], rfl⟩
  rw [hnext.2, silent_of_no_long (tracks_decode.step_inv _ _ hrun) hnext.1 hlong]
  rfl

namespace ArduinoGateway

/-- The bounds of a start pulse, for the protocols of which it has fixed ones. -/
def Handler.start : Handler → Option (ℕ × ℕ)
  | .auriol => some (8500, 10000)
  | .livolo => some (440, 600)
  | .kopou => some (500, 750)
  | .quhwa => some (2000, 7000)
  | _ => none

variable {b : Board} {h : Handler} {s : h.State} {t : ℕ}

/-- Without a start pulse there is no frame. -/
theorem silent_of_no_start {lo hi : ℕ} {ws : List ℕ} (hstart : h.start = some (lo, hi))
    (hready : h.Ready s) (hwaits : h.Waits b s t)
    (hws : ∀ d ∈ ws, d < 65536 ∧ ¬(lo < d ∧ d < hi)) :
    Mealy.events (h.interruptHandler b) s (stamps t (0 :: ws)) = [] := by
  have hu : ∀ d ∈ ws, ¬(lo < b.uint d ∧ b.uint d < hi) := by
    intro d hd
    rw [b.uint_of_lt (hws d hd).1]
    exact (hws d hd).2
  have hlt : ∀ d ∈ ws, d < 65536 := fun d hd => (hws d hd).1
  cases h <;> cases hstart
  all_goals refine (Sampled.events_send hready.1 hlt).trans ?_
  · exact Auriol.silent_of_no_start hwaits.1 (List.forall_mem_cons.2 ⟨hwaits.2, hu⟩)
  · exact Livolo.silent_of_no_start hwaits.1 (List.forall_mem_cons.2 ⟨hwaits.2, hu⟩)
  · exact Kopou.silent_of_no_start hwaits.1 (List.forall_mem_cons.2 ⟨hwaits.2, hu⟩)
  · exact Quhwa.silent_of_no_start hwaits.1 (List.forall_mem_cons.2 ⟨hwaits.2, hu⟩)

/-! ## KlikAanKlikUit -/

/-- The pulses of a transmission of the gateway: all of them begin with one period. -/
theorem exists_kaku_train (b : Board) {r : ℕ} (hr : r ≤ 7) (address : ℕ) (cmd : Kaku.Command)
    (t : ℕ) :
    ∃ ps, edges ⟨LOW, t⟩ (cmd.send b (Kaku.Transmitter.new 260 r) address) =
        stamps t (0 :: (widths ps ++ [260])) ∧
      (∀ q ∈ ps, q.1 = 260) ∧
      ∀ d ∈ widths ps ++ [260], d = 260 ∨ d = 1300 ∨ d = 2730 ∨ d = 10400 := by
  have hsymbol : ∀ x : Kaku.Symbol, ∀ q ∈ Kaku.symbolPulses 260 x,
      q.1 = 260 ∧ (q.2 = 260 ∨ q.2 = 1300) := by
    intro x
    cases x <;> simp [Kaku.symbolPulses]
  have hpulses : ∀ q ∈ Kaku.pulses 260 (cmd.telegram address),
      q.1 = 260 ∧ (q.2 = 260 ∨ q.2 = 1300 ∨ q.2 = 2730 ∨ q.2 = 10400) := by
    intro q hq
    rw [Kaku.pulses, List.mem_append, List.mem_append, List.mem_singleton, List.mem_singleton] at hq
    rcases hq with (rfl | hq) | rfl
    · simp
    · rcases List.mem_flatMap.1 hq with ⟨x, -, hx⟩
      have hx' := hsymbol x q hx
      omega
    · simp
  -- the last copy lacks its gap
  refine ⟨(List.replicate (2 ^ r - 1) (Kaku.pulses 260 (cmd.telegram address))).flatten ++
    ((260, 2730) :: (cmd.telegram address).symbols.flatMap (Kaku.symbolPulses 260)), ?_, ?_, ?_⟩
  · rw [Kaku.edges_send b (by decide) hr, widths_append, widths_replicate, List.append_assoc]
    rfl
  all_goals
    have hall : ∀ q ∈ (List.replicate (2 ^ r - 1)
        (Kaku.pulses 260 (cmd.telegram address))).flatten ++
          ((260, 2730) :: (cmd.telegram address).symbols.flatMap (Kaku.symbolPulses 260)),
        q.1 = 260 ∧ (q.2 = 260 ∨ q.2 = 1300 ∨ q.2 = 2730 ∨ q.2 = 10400) := by
      intro q hq
      rcases List.mem_append.1 hq with hq | hq
      · rcases List.mem_flatten.1 hq with ⟨w, hw, hq⟩
        exact hpulses q (List.eq_of_mem_replicate hw ▸ hq)
      · refine hpulses q ?_
        rw [Kaku.pulses, List.singleton_append]
        exact List.mem_append_left _ hq
  · exact fun q hq => (hall q hq).1
  · intro d hd
    rcases List.mem_append.1 hd with hd | hd
    · rcases mem_widths.1 hd with ⟨q, hq, rfl | rfl⟩
      · have hq' := (hall q hq).1
        omega
      · exact (hall q hq).2
    · exact Or.inl (List.mem_singleton.1 hd)

/-- At the period that the gap sets, one of the four widths is a short part and the others are none. -/
theorem heard_kaku {d : ℕ} (hd : d = 260 ∨ d = 1300 ∨ d = 2730 ∨ d = 10400) :
    Remote.Heard b 10400 10400 d := by
  refine ⟨by omega, fun q hq hq' => ?_⟩
  obtain rfl : q = 335 := by omega
  have hu : ∀ {n : ℕ}, n < 65536 → b.uint n = n := fun h => b.uint_of_lt h
  by_cases hshort : d = 260
  · left
    rw [Remote.Band, hu (by decide)]
    omega
  · right
    intro p
    cases p <;> simp only [Remote.part, Remote.Band, Bool.false_eq_true, if_false, if_true]
    · rw [hu (by decide)]
      omega
    · rw [hu (by decide), hu (by decide), hu (by decide)]
      omega

/-- No other receiver that waits makes anything of a transmission for KlikAanKlikUit. -/
theorem silent_of_kaku (hne : h ≠ .kaku) (hready : h.Ready s) (hwaits : h.Waits b s t)
    {ps : List (ℕ × ℕ)} (hps : ∀ q ∈ ps, q.1 = 260)
    (hws : ∀ d ∈ widths ps ++ [260], d = 260 ∨ d = 1300 ∨ d = 2730 ∨ d = 10400) :
    Mealy.events (h.interruptHandler b) s (stamps t (0 :: (widths ps ++ [260]))) = [] := by
  cases h with
  | auriol =>
      refine silent_of_no_start (h := .auriol) rfl hready hwaits fun d hd => ?_
      have hd' := hws d hd
      omega
  | remote =>
      rcases Remote.exists_listening hready.1 hwaits.1 hwaits.2 with ⟨s', hlisten, -, hsame⟩
      have hwidths : ∀ d ∈ widths ps ++ [260], 260 ≤ d ∧ d ≤ 10400 := by
        intro d hd
        have hd' := hws d hd
        omega
      have hevents := hlisten.events_eq (by decide) (by decide) hwidths
      rw [Remote.silent_of_short hlisten.state (by decide) fun d hd =>
        heard_kaku (hws d (List.mem_append_left _ hd))] at hevents
      exact (hsame _).trans hevents
  | kaku => exact absurd rfl hne
  | livolo =>
      refine silent_of_no_start (h := .livolo) rfl hready hwaits fun d hd => ?_
      have hd' := hws d hd
      omega
  | kopou =>
      refine silent_of_no_start (h := .kopou) rfl hready hwaits fun d hd => ?_
      have hd' := hws d hd
      omega
  | quhwa =>
      refine Sampled.silent_of_broken (Quhwa.broken_decode b) (by decide) hready.1
        hwaits.1.ge (by rw [Quhwa.depth, hwaits.1]; rfl) (fun q hq => Or.inl (Or.inl ?_))
        fun d hd => ?_
      · rw [hps q hq]
        decide
      · have hd' := hws d hd
        omega
  | wt440 =>
      refine Wt440.silent_of_waiting hready.1 hready.2.2 hwaits.1 fun d hd => ?_
      have hd' := hws d hd
      omega

/-! ## Action -/

theorem exists_remote_train (b : Board) {ts : List Remote.Trit} {r : ℕ} (hr : r ≤ 7)
    (hts : ts.length = 12) (t : ℕ) :
    ∃ ps, edges ⟨LOW, t⟩ (Remote.sendTelegram b (Remote.encodeTelegram ⟨195, r⟩ (ts.map Fin.val))) =
        stamps t (0 :: (widths ps ++ [195])) ∧
      (∀ q ∈ ps, (q.1 = 195 ∨ q.2 = 195) ∧ (195 < q.1 ∨ 195 < q.2)) ∧
      ∀ d ∈ widths ps ++ [195], d = 195 ∨ d = 585 ∨ d = 6045 := by
  have htrit : ∀ x : Remote.Trit, ∀ q ∈ Remote.tritPulses 195 x, q = (195, 585) ∨ q = (585, 195) := by
    intro x q hq
    match x with
    | 0 => simp [Remote.tritPulses] at hq; simp [hq]
    | 1 => simp [Remote.tritPulses] at hq; simp [hq]
    | 2 => simpa [Remote.tritPulses] using hq
  have hpulses : ∀ q ∈ Remote.pulses 195 ts,
      q = (195, 585) ∨ q = (585, 195) ∨ q = (195, 6045) := by
    intro q hq
    rw [Remote.pulses, List.mem_append, List.mem_singleton] at hq
    rcases hq with hq | rfl
    · rcases List.mem_flatMap.1 hq with ⟨x, -, hx⟩
      rcases htrit x q hx with h | h
      · exact Or.inl h
      · exact Or.inr (Or.inl h)
    · exact Or.inr (Or.inr rfl)
  refine ⟨(List.replicate (2 ^ r - 1) (Remote.pulses 195 ts)).flatten ++
    ts.flatMap (Remote.tritPulses 195), ?_, ?_, ?_⟩
  · rw [Remote.edges_sendTelegram b (by decide) (by omega) hts, widths_append, widths_replicate,
      List.append_assoc]
    rfl
  all_goals
    have hall : ∀ q ∈ (List.replicate (2 ^ r - 1) (Remote.pulses 195 ts)).flatten ++
        ts.flatMap (Remote.tritPulses 195),
        q = (195, 585) ∨ q = (585, 195) ∨ q = (195, 6045) := by
      intro q hq
      rcases List.mem_append.1 hq with hq | hq
      · rcases List.mem_flatten.1 hq with ⟨w, hw, hq⟩
        exact hpulses q (List.eq_of_mem_replicate hw ▸ hq)
      · exact hpulses q (List.mem_append_left _ hq)
  · intro q hq
    rcases hall q hq with rfl | rfl | rfl <;> decide
  · intro d hd
    rcases List.mem_append.1 hd with hd | hd
    · rcases mem_widths.1 hd with ⟨q, hq, hd⟩
      rcases hall q hq with rfl | rfl | rfl <;> simp only at hd <;> omega
    · exact Or.inl (List.mem_singleton.1 hd)

/-- The Action remotes. -/
theorem silent_of_remote (hne : h ≠ .remote) (hready : h.Ready s) (hwaits : h.Waits b s t)
    {ps : List (ℕ × ℕ)} (hps : ∀ q ∈ ps, (q.1 = 195 ∨ q.2 = 195) ∧ (195 < q.1 ∨ 195 < q.2))
    (hws : ∀ d ∈ widths ps ++ [195], d = 195 ∨ d = 585 ∨ d = 6045) :
    Mealy.events (h.interruptHandler b) s (stamps t (0 :: (widths ps ++ [195]))) = [] := by
  -- each pulse has a long half and, but for the gap, no other
  have hlong : ∀ q ∈ ps, (q.1 = 585 ∨ q.1 = 6045) ∨ q.2 = 585 ∨ q.2 = 6045 := by
    intro q hq
    have hq' := (hps q hq).2
    have h1 := hws q.1 (List.mem_append_left _ (mem_widths.2 ⟨q, hq, Or.inl rfl⟩))
    have h2 := hws q.2 (List.mem_append_left _ (mem_widths.2 ⟨q, hq, Or.inr rfl⟩))
    omega
  have hlt : ∀ d ∈ widths ps ++ [195], d < 65536 := by
    intro d hd
    have hd' := hws d hd
    omega
  cases h with
  | auriol =>
      refine silent_of_no_start (h := .auriol) rfl hready hwaits fun d hd => ?_
      have hd' := hws d hd
      omega
  | remote => exact absurd rfl hne
  | kaku =>
      rcases Kaku.exists_listening hready.1 hwaits.1 hwaits.2 with ⟨s', hlisten, -, hsame⟩
      have hwidths : ∀ d ∈ widths ps ++ [195], 195 ≤ d ∧ d ≤ 6045 := by
        intro d hd
        have hd' := hws d hd
        omega
      have hevents := hlisten.events_eq (by decide) (by decide) hwidths
      have hheard : ∀ d ∈ widths ps, Kaku.Heard 6045 6045 d ∧ (d < 7 * (6045 / 40) ∨ 6045 ≤ d) := by
        intro d hd
        have hd' := hws d (List.mem_append_left _ hd)
        unfold Kaku.Heard
        omega
      rw [Kaku.silent_of_narrow hlisten.state (by decide) (by decide) (by decide) hheard] at hevents
      exact (hsame _).trans hevents
  | livolo =>
      refine Sampled.silent_of_broken (Livolo.broken_decode b) (by decide) hready.1
        hwaits.1.ge (by rw [Livolo.depth, hwaits.1]; rfl) (fun q hq => ?_) hlt
      have hq' := hlong q hq
      unfold Livolo.max3Period
      omega
  | kopou =>
      refine Sampled.silent_of_broken (Kopou.broken_decode b) (by decide) hready.1
        hwaits.1.ge (by rw [Kopou.depth, hwaits.1]; rfl) (fun q hq => ?_) hlt
      have hq' := hlong q hq
      unfold Kopou.min1Period Kopou.max2Period
      omega
  | quhwa =>
      refine Sampled.silent_of_broken (Quhwa.broken_decode b) (by decide) hready.1
        hwaits.1.ge (by rw [Quhwa.depth, hwaits.1]; rfl) (fun q hq => ?_) hlt
      have hq' := (hps q hq).1
      unfold Quhwa.min1Period Quhwa.max3Period
      omega
  | wt440 =>
      refine Wt440.silent_of_waiting hready.1 hready.2.2 hwaits.1 fun d hd => ?_
      have hd' := hws d hd
      omega

/-! ## Livolo -/

theorem exists_livolo_widths (remoteID keycode t : ℕ) :
    ∃ ws last, (last = [] ∨ last = [0]) ∧
      Livolo.framesWidths remoteID keycode 181 LOW ++ last = 0 :: ws ∧
      edges ⟨LOW, t⟩ (Livolo.sendButton remoteID keycode) = stamps t (0 :: ws) ∧
      ∀ d ∈ ws, d = 0 ∨ d = 100 ∨ d = 300 ∨ d = 500 := by
  rcases Livolo.edges_sendButton remoteID keycode t with ⟨last, hlast, hedges⟩
  have hframe : ∀ l, ∀ d ∈ Livolo.startEdge l ++ Livolo.frameWidths remoteID keycode,
      d = 0 ∨ d = 100 ∨ d = 300 ∨ d = 500 := by
    intro l d hd
    rw [Livolo.frameWidths, List.mem_append, List.mem_cons] at hd
    rcases hd with hd | rfl | hd
    · cases l <;> simp [Livolo.startEdge] at hd
      exact Or.inl hd
    · simp
    · rcases Livolo.mem_payloadWidths hd with rfl | rfl <;> simp
  have hall : ∀ d ∈ Livolo.framesWidths remoteID keycode 181 LOW ++ last,
      d = 0 ∨ d = 100 ∨ d = 300 ∨ d = 500 := by
    intro d hd
    rcases List.mem_append.1 hd with hd | hd
    · rw [Livolo.framesWidths_eq] at hd
      rcases mem_copies hd with ⟨l, hl⟩
      exact hframe l d hl
    · rcases hlast with rfl | rfl
      · cases hd
      · exact Or.inl (List.mem_singleton.1 hd)
  -- the first frame starts with an edge of its own
  have hfirst : Livolo.framesWidths remoteID keycode 181 LOW ++ last =
      0 :: (Livolo.frameWidths remoteID keycode ++
        (Livolo.framesWidths remoteID keycode 180 (Livolo.endLevel remoteID keycode) ++ last)) := by
    rw [Livolo.framesWidths, List.append_assoc]
    rfl
  rw [hfirst] at hedges hall
  exact ⟨_, last, hlast, hfirst, hedges, (List.forall_mem_cons.1 hall).2⟩

/-- The Livolo switches. -/
theorem silent_of_livolo (hne : h ≠ .livolo) (hready : h.Ready s) (hwaits : h.Waits b s t) {ws : List ℕ}
    (hws : ∀ d ∈ ws, d = 0 ∨ d = 100 ∨ d = 300 ∨ d = 500) :
    Mealy.events (h.interruptHandler b) s (stamps t (0 :: ws)) = [] := by
  cases h with
  | auriol =>
      refine silent_of_no_start (h := .auriol) rfl hready hwaits fun d hd => ?_
      have hd' := hws d hd
      omega
  | remote =>
      rcases Remote.exists_listening hready.1 hwaits.1 hwaits.2 with ⟨s', hlisten, -, hsame⟩
      refine (hsame _).trans (hlisten.silent_of_short fun d hd => ?_)
      have hd' := hws d hd
      omega
  | kaku =>
      rcases Kaku.exists_listening hready.1 hwaits.1 hwaits.2 with ⟨s', hlisten, -, hsame⟩
      refine (hsame _).trans (hlisten.silent_of_short fun d hd => ?_)
      have hd' := hws d hd
      omega
  | livolo => exact absurd rfl hne
  | kopou =>
      refine silent_of_no_start (h := .kopou) rfl hready hwaits fun d hd => ?_
      have hd' := hws d hd
      omega
  | quhwa =>
      refine silent_of_no_start (h := .quhwa) rfl hready hwaits fun d hd => ?_
      have hd' := hws d hd
      omega
  | wt440 =>
      refine Wt440.silent_of_waiting hready.1 hready.2.2 hwaits.1 fun d hd => ?_
      have hd' := hws d hd
      omega

/-! ## Quhwa -/

theorem mem_quhwa_widths {remoteID keycode n d : ℕ}
    (hd : d ∈ Quhwa.framesWidths remoteID keycode n) :
    d = 0 ∨ d = 350 ∨ d = 1050 ∨ d = 6000 := by
  rcases List.mem_flatten.1 hd with ⟨w, hw, hd⟩
  rw [List.eq_of_mem_replicate hw, Quhwa.frameWidths, List.mem_cons, List.mem_cons,
    List.mem_cons] at hd
  rcases hd with rfl | rfl | rfl | hd
  · simp
  · simp
  · simp
  · rcases Quhwa.mem_payloadWidths hd with rfl | rfl <;> simp

/-- The Quhwa bells. -/
theorem silent_of_quhwa (hne : h ≠ .quhwa) (hready : h.Ready s) (hwaits : h.Waits b s t)
    (remoteID keycode : ℕ) :
    Mealy.events (h.interruptHandler b) s (edges ⟨LOW, t⟩ (Quhwa.sendButton remoteID keycode)) =
      [] := by
  obtain ⟨ws, hws⟩ : ∃ ws, Quhwa.framesWidths remoteID keycode 26 = 0 :: ws := ⟨_, rfl⟩
  have hmem : ∀ d ∈ ws, d = 0 ∨ d = 350 ∨ d = 1050 ∨ d = 6000 := fun d hd =>
    mem_quhwa_widths (n := 26) (by rw [hws]; exact List.mem_cons_of_mem 0 hd)
  rw [Quhwa.edges_sendButton]
  cases h with
  | auriol =>
      rw [hws]
      refine silent_of_no_start (h := .auriol) rfl hready hwaits fun d hd => ?_
      have hd' := hmem d hd
      omega
  | remote =>
      rcases Remote.exists_listening hready.1 hwaits.1 hwaits.2 with ⟨s', hlisten, -, hsame⟩
      have hquiet := hlisten.silent_of_quhwa remoteID keycode 26
      rw [hws, stamps_cons] at hquiet ⊢
      exact (hsame _).trans hquiet
  | kaku =>
      rcases Kaku.exists_listening hready.1 hwaits.1 hwaits.2 with ⟨s', hlisten, -, hsame⟩
      have hquiet := hlisten.silent_of_quhwa remoteID keycode 26
      rw [hws, stamps_cons] at hquiet ⊢
      exact (hsame _).trans hquiet
  | livolo =>
      rw [hws]
      refine silent_of_no_start (h := .livolo) rfl hready hwaits fun d hd => ?_
      have hd' := hmem d hd
      omega
  | kopou =>
      rw [hws]
      refine silent_of_no_start (h := .kopou) rfl hready hwaits fun d hd => ?_
      have hd' := hmem d hd
      omega
  | quhwa => exact absurd rfl hne
  | wt440 =>
      rw [hws]
      refine Wt440.silent_of_waiting hready.1 hready.2.2 hwaits.1 fun d hd => ?_
      have hd' := hmem d hd
      omega

/-! ## WT440 -/

theorem mem_wt440_widths {m : Wt440.TxCode} {d : ℕ} (hd : d ∈ Wt440.msgWidths m) :
    d = 1050 ∨ d = 2000 ∨ d = 50000 ∨ d = 51050 := by
  have hframe : ∀ d ∈ Wt440.frameWidths m, d = 1050 ∨ d = 2000 := by
    intro d hd
    rcases List.mem_flatMap.1 hd with ⟨bit, -, hd⟩
    cases bit
    · exact Or.inr (List.mem_singleton.1 hd)
    · simp [Wt440.widths, Wt440.PULSE1] at hd
      exact Or.inl hd
  rw [Wt440.msgWidths, List.mem_append, List.mem_append, List.mem_singleton] at hd
  rcases hd with hd | hd | rfl
  · have hd' := hframe d hd
    omega
  · rcases List.mem_flatten.1 hd with ⟨w, hw, hd⟩
    rw [List.eq_of_mem_replicate hw, Wt440.laterWidths, List.mem_cons] at hd
    rcases hd with rfl | hd
    · simp [Wt440.PULSE1]
    · have hd' := hframe d (List.mem_of_mem_tail hd)
      omega
  · simp

/-- A gap of 50 ms sets a period that makes short parts of all pulses. -/
theorem heard_wt440 {d : ℕ} (hd : d = 1050 ∨ d = 2000 ∨ d = 50000 ∨ d = 51050) :
    Remote.Heard b 50000 51050 d := by
  refine ⟨by omega, fun q hq hq' => ?_⟩
  have hu : ∀ {n : ℕ}, n < 65536 → b.uint n = n := fun h => b.uint_of_lt h
  by_cases hshort : d ≤ 2000
  · left
    rw [Remote.Band, hu (by omega)]
    omega
  · right
    intro p
    cases p <;> simp only [Remote.part, Remote.Band, Bool.false_eq_true, if_false, if_true]
    · rw [hu (by omega)]
      omega
    · rw [hu (by omega), hu (by omega), hu (by omega)]
      omega

/-- The temperature sensors. -/
theorem silent_of_wt440 (hne : h ≠ .wt440) (hready : h.Ready s) (hwaits : h.Waits b s t)
    (m : Wt440.TxCode) :
    Mealy.events (h.interruptHandler b) s (edges ⟨LOW, t⟩ (Wt440.sendMsg m)) = [] := by
  obtain ⟨ds, hds⟩ : ∃ ds, Wt440.msgWidths m = ds ++ [50000] :=
    ⟨_, by rw [Wt440.msgWidths, ← List.append_assoc]⟩
  have hmem : ∀ d ∈ ds ++ [50000], d = 1050 ∨ d = 2000 ∨ d = 50000 ∨ d = 51050 := fun d hd =>
    mem_wt440_widths (hds ▸ hd)
  have hwidths : ∀ d ∈ ds ++ [50000], 1050 ≤ d ∧ d ≤ 51050 := by
    intro d hd
    have hd' := hmem d hd
    omega
  rw [Wt440.edges_sendMsg, hds]
  cases h with
  | auriol =>
      refine silent_of_no_start (h := .auriol) rfl hready hwaits fun d hd => ?_
      have hd' := hmem d hd
      omega
  | remote =>
      rcases Remote.exists_listening hready.1 hwaits.1 hwaits.2 with ⟨s', hlisten, -, hsame⟩
      have hevents := hlisten.events_eq (by decide) (by decide) hwidths
      rw [Remote.silent_of_short hlisten.state (by decide) fun d hd =>
        heard_wt440 (hmem d (List.mem_append_left _ hd))] at hevents
      exact (hsame _).trans hevents
  | kaku =>
      rcases Kaku.exists_listening hready.1 hwaits.1 hwaits.2 with ⟨s', hlisten, -, hsame⟩
      have hevents := hlisten.events_eq (by decide) (by decide) hwidths
      have hheard : ∀ d ∈ ds,
          Kaku.Heard 50000 51050 d ∧ (d < 7 * (50000 / 40) ∨ 50000 ≤ d) := by
        intro d hd
        have hd' := hmem d (List.mem_append_left _ hd)
        unfold Kaku.Heard
        omega
      rw [Kaku.silent_of_narrow hlisten.state (by decide) (by decide) (by decide) hheard] at hevents
      exact (hsame _).trans hevents
  | livolo =>
      refine silent_of_no_start (h := .livolo) rfl hready hwaits fun d hd => ?_
      have hd' := hmem d hd
      omega
  | kopou =>
      refine silent_of_no_start (h := .kopou) rfl hready hwaits fun d hd => ?_
      have hd' := hmem d hd
      omega
  | quhwa =>
      refine silent_of_no_start (h := .quhwa) rfl hready hwaits fun d hd => ?_
      have hd' := hmem d hd
      omega
  | wt440 => exact absurd rfl hne

end ArduinoGateway
end LamPI
