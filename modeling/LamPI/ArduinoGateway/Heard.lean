import LamPI.ArduinoGateway.Crosstalk
import LamPI.Wt440.RoundTrip

/-!
# What the gateway prints of a transmission

All receivers of a gateway hear a transmission.  If they wait, only the one for the protocol of the
transmission calls back, and how often follows from the repetitions.
-/

namespace LamPI

open PulseLine

variable {γ δ ε : Type}

/-- A pause that the decoder takes for nothing is no more than the edge that the transmission begins
with. -/
theorem Sampled.events_first {decode : δ → ℕ → δ × Option ε} {s : Sampled δ} {t : ℕ} {ws : List ℕ}
    (henabled : s.enabled = true)
    (hpause : decode s.decoder (micros t - s.edge2).toNat = (s.decoder, none))
    (hzero : decode s.decoder 0 = (s.decoder, none)) (hws : ∀ d ∈ ws, d < 65536) :
    Mealy.events (onEdge decode) s (stamps t (0 :: ws)) =
      Mealy.events decode s.decoder (0 :: ws) := by
  rw [events_send henabled hws, Mealy.events_cons, Mealy.events_cons, hpause, hzero]

namespace ArduinoGateway

/-! ## Receivers in a chain -/

/-- The receivers of a chain work as `setup` has told them to, and wait. -/
structure Listening (b : Board) (hs : List Handler) (receivers : (h : Handler) → h.State) (t : ℕ) :
    Prop where
  nodup : hs.Nodup
  ready : ∀ h ∈ hs, h.Ready (receivers h)
  waits : ∀ h ∈ hs, h.Waits b (receivers h) t

variable {b : Board} {hs : List Handler} {receivers : (h : Handler) → h.State} {t n : ℕ}

/-- Only one of the receivers calls back, always with the same code. -/
theorem Listening.callsOf_eq {h : Handler} {code : h.Code} {times : List ℕ}
    (hl : Listening b hs receivers t) (hmem : h ∈ hs)
    (hsilent : ∀ j ≠ h, j.Ready (receivers j) → j.Waits b (receivers j) t →
      Mealy.events (j.interruptHandler b) (receivers j) times = [])
    (hcalls : callbacks (Mealy.events (h.interruptHandler b) (receivers h) times) =
      List.replicate n code) :
    callsOf b hs receivers times = List.replicate n ⟨h, code⟩ := by
  rw [callsOf, calls_of_silent hl.nodup hmem fun j hj hne => hsilent j hne (hl.ready j hj)
    (hl.waits j hj), hcalls, List.map_replicate]

/-! ## The gateway after `setup` -/

/-- The sketch after `setup`. -/
def System.started (layout : Layout) (edge0 edge2 : ULong) (g : Gateway) : System :=
  { receivers := initReceivers edge0 edge2, gateway := g, layout := layout, called := 0 }

def Gateway.heard (g : Gateway) (n : ℕ) (c : Call) : Gateway := g.shown (List.replicate n c)

theorem System.layout_edges (s : System) (times : List ℕ) : (s.edges times).layout = s.layout := by
  rw [edges_eq]
  rfl

variable {s : System}

theorem System.gateway_edges (hcnt : s.gateway.msgCnt < 65536) (times : List ℕ) :
    (s.edges times).gateway =
      s.gateway.shown (s.layout.reads s.called (callsOf .avr chain s.receivers times)) := by
  rw [edges_eq]
  exact System.gateway_told hcnt _

theorem System.msgCnt_edges (hcnt : s.gateway.msgCnt < 65536) (times : List ℕ) :
    (s.edges times).gateway.msgCnt < 65536 := by
  rw [gateway_edges hcnt]
  exact Nat.mod_lt _ (by decide)

/-- The lines are those of the callbacks. -/
theorem System.heard_of_calls {c : Call} {times : List ℕ} (hcnt : s.gateway.msgCnt < 65536)
    (hcalls : callsOf .avr chain s.receivers times = List.replicate n c)
    (hintact : s.layout.Intact c.1) : (s.edges times).gateway = s.gateway.heard n c := by
  rw [gateway_edges hcnt, hcalls, Layout.reads_eq_self, Gateway.heard]
  intro c' hc'
  rw [List.eq_of_mem_replicate hc']
  exact hintact

/-- The gateway has been started, some edges have come, and its receivers wait. -/
structure System.Listens (s : System) (t : ℕ) : Prop where
  ready : ∀ h : Handler, h.Ready (s.receivers h)
  msgCnt : s.gateway.msgCnt < 65536
  waits : s.Waits t

theorem System.Listens.listening (hs : s.Listens t) : Listening .avr chain s.receivers t :=
  ⟨chain_nodup, fun h _ => hs.ready h, fun h _ => hs.waits h⟩

theorem System.started_listens {layout : Layout} {edge0 edge2 : ULong} {g : Gateway}
    (hcnt : g.msgCnt < 65536) {times : List ℕ}
    (hwaits : ((started layout edge0 edge2 g).edges times).Waits t) :
    ((started layout edge0 edge2 g).edges times).Listens t :=
  ⟨ready_edges (ready_initReceivers edge0 edge2) times, msgCnt_edges hcnt times, hwaits⟩

/-! ## Livolo -/

theorem Listening.livolo (hl : Listening b hs receivers t) (hmem : .livolo ∈ hs) {remoteID keycode : ℕ}
    (hid : remoteID < 2 ^ 16) (hkey : keycode < 2 ^ 7) :
    ∃ n, 178 ≤ n ∧ n ≤ 181 ∧
      callsOf b hs receivers (edges ⟨LOW, t⟩ (Livolo.sendButton remoteID keycode)) =
        List.replicate n ⟨.livolo, Livolo.sentCode remoteID keycode⟩ := by
  rcases exists_livolo_widths remoteID keycode t with ⟨ws, last, hlast, hwidths, hedges, hws⟩
  rcases hl.ready .livolo hmem with ⟨henabled, hmin, hcallback⟩
  rcases hl.waits .livolo hmem with ⟨hstate, hpause⟩
  rcases Livolo.run_framesWidths (b := b) hid hkey 181 hstate LOW with ⟨hend, hframes⟩
  -- the edge at the very end, if there is one, is nothing to a decoder that waits
  have htail : ∀ s' : Livolo.Decoder, s'.state = -1 → Mealy.events (Livolo.decode b) s' last = [] := by
    intro s' hs'
    rcases hlast with rfl | rfl
    · rfl
    · exact (Livolo.decode_startEdge hs' false).2
  have hevents : Mealy.events (Handler.interruptHandler b .livolo) (receivers .livolo)
      (edges ⟨LOW, t⟩ (Livolo.sendButton remoteID keycode)) =
        RepeatFilter.completions Livolo.sameCode (Livolo.sentCode remoteID keycode) 181
          (receivers .livolo).decoder.filter := by
    have hfirst : Mealy.events (Handler.interruptHandler b .livolo) (receivers .livolo)
        (stamps t (0 :: ws)) = Mealy.events (Livolo.decode b) (receivers .livolo).decoder
          (0 :: ws) :=
      Sampled.events_first henabled (Livolo.decode_idle hstate hpause)
        (Livolo.decode_idle hstate (by rw [b.uint_of_lt (by decide)]; decide))
        (fun d hd => by have hd' := hws d hd; omega)
    rw [hedges]
    refine hfirst.trans ?_
    rw [← hwidths, Mealy.events_append, hframes, htail _ hend, List.append_nil]
  have hsame : Livolo.sameCode (Livolo.sentCode remoteID keycode)
      (Livolo.sentCode remoteID keycode) = true := by simp [Livolo.sameCode]
  rcases RepeatFilter.callbacks_completions hsame hcallback (n := 181) (by decide) with
    ⟨n, hlo, hhi, hcalls⟩
  rw [hmin] at hlo
  refine ⟨n, by omega, hhi, hl.callsOf_eq hmem (fun j hj hready hwaits => ?_) (hevents ▸ hcalls)⟩
  rw [hedges]
  exact silent_of_livolo hj hready hwaits hws

/-- Whatever the gateway has heard since `setup`: while its receivers wait, a press of a Livolo button
makes it print between 178 and 181 lines and nothing else, each for a callback that is passed the code
that was sent.  The lines are those of this code if the sketch has the struct in the same layout. -/
theorem livolo_heard (layout : Layout) (edge0 edge2 : ULong) (g : Gateway) (times : List ℕ)
    (t remoteID keycode : ℕ) (hcnt : g.msgCnt < 65536) (hid : remoteID < 2 ^ 16)
    (hkey : keycode < 2 ^ 7) :
    let s := (System.started layout edge0 edge2 g).edges times
    let code : Call := ⟨.livolo, Livolo.sentCode remoteID keycode⟩
    s.Waits t →
      ∃ n, 178 ≤ n ∧ n ≤ 181 ∧
        let s' := s.edges (edges ⟨LOW, t⟩ (Livolo.sendButton remoteID keycode))
        s'.gateway = s.gateway.shown (layout.reads s.called (List.replicate n code)) ∧
          (layout.Intact .livolo → s'.gateway = s.gateway.heard n code) :=
  fun hwaits => by
  have hs := System.started_listens hcnt hwaits
  rcases hs.listening.livolo (mem_chain _) hid hkey with ⟨n, hlo, hhi, hcalls⟩
  have hlayout := System.layout_edges (System.started layout edge0 edge2 g) times
  refine ⟨n, hlo, hhi, ?_, fun hintact => ?_⟩
  · have hgateway := System.gateway_edges hs.msgCnt
      (edges ⟨LOW, t⟩ (Livolo.sendButton remoteID keycode))
    rwa [hcalls, hlayout] at hgateway
  · exact System.heard_of_calls hs.msgCnt hcalls (hlayout ▸ hintact)

/-- 1.8 ms after the last edge before `setup`. -/
theorem livolo_heard_example :
    let s := (System.started .same 0 0 ⟨1, 0, 0, [], []⟩).edges []
    let code : Call := ⟨.livolo, Livolo.sentCode 6400 120⟩
    ∃ n, 178 ≤ n ∧ n ≤ 181 ∧
      let s' := s.edges (edges ⟨LOW, 1800⟩ (Livolo.sendButton 6400 120))
      s'.gateway = s.gateway.shown (Layout.same.reads s.called (List.replicate n code)) ∧
        (Layout.same.Intact .livolo → s'.gateway = s.gateway.heard n code) :=
  livolo_heard .same 0 0 ⟨1, 0, 0, [], []⟩ [] 1800 6400 120 (by decide) (by decide) (by decide)
    (waits_initReceivers .avr)

/-! ## Quhwa -/

theorem Listening.quhwa (hl : Listening b hs receivers t) (hmem : .quhwa ∈ hs) {remoteID keycode : ℕ}
    (hid : remoteID < 2 ^ 27) (hkey : keycode < 2 ^ 8) :
    ∃ n, 23 ≤ n ∧ n ≤ 26 ∧
      callsOf b hs receivers (edges ⟨LOW, t⟩ (Quhwa.sendButton remoteID keycode)) =
        List.replicate n ⟨.quhwa, Quhwa.sentCode remoteID keycode⟩ := by
  obtain ⟨ws, hwidths⟩ : ∃ ws, Quhwa.framesWidths remoteID keycode 26 = 0 :: ws := ⟨_, rfl⟩
  have hws : ∀ d ∈ ws, d < 65536 := by
    intro d hd
    have hd' := mem_quhwa_widths (n := 26) (hwidths ▸ List.mem_cons_of_mem 0 hd)
    omega
  rcases hl.ready .quhwa hmem with ⟨henabled, hmin, hcallback⟩
  rcases hl.waits .quhwa hmem with ⟨hstate, hpause⟩
  have hevents : Mealy.events (Handler.interruptHandler b .quhwa) (receivers .quhwa)
      (edges ⟨LOW, t⟩ (Quhwa.sendButton remoteID keycode)) =
        RepeatFilter.completions Quhwa.sameCode (Quhwa.sentCode remoteID keycode) 26
          (receivers .quhwa).decoder.filter := by
    have hfirst : Mealy.events (Handler.interruptHandler b .quhwa) (receivers .quhwa)
        (stamps t (0 :: ws)) = Mealy.events (Quhwa.decode b) (receivers .quhwa).decoder
          (0 :: ws) :=
      Sampled.events_first henabled (Quhwa.decode_idle hstate hpause)
        (Quhwa.decode_short hstate (Nat.zero_le _)) hws
    rw [Quhwa.edges_sendButton, ← Quhwa.run_framesWidths (b := b) hid hkey 26 hstate, hwidths]
    exact hfirst
  have hsame : Quhwa.sameCode (Quhwa.sentCode remoteID keycode)
      (Quhwa.sentCode remoteID keycode) = true := by simp [Quhwa.sameCode]
  rcases RepeatFilter.callbacks_completions hsame hcallback (n := 26) (by decide) with
    ⟨n, hlo, hhi, hcalls⟩
  rw [hmin] at hlo
  exact ⟨n, by omega, hhi, hl.callsOf_eq hmem
    (fun j hj hready hwaits => silent_of_quhwa hj hready hwaits remoteID keycode)
    (hevents ▸ hcalls)⟩

/-- A press of a Quhwa button makes it print between 23 and 26 lines. -/
theorem quhwa_heard (layout : Layout) (edge0 edge2 : ULong) (g : Gateway) (times : List ℕ)
    (t remoteID keycode : ℕ) (hcnt : g.msgCnt < 65536) (hid : remoteID < 2 ^ 27) (hkey : keycode < 2 ^ 8) :
    let s := (System.started layout edge0 edge2 g).edges times
    s.Waits t →
      ∃ n, 23 ≤ n ∧ n ≤ 26 ∧
        (s.edges (edges ⟨LOW, t⟩ (Quhwa.sendButton remoteID keycode))).gateway =
          s.gateway.heard n ⟨.quhwa, Quhwa.sentCode remoteID keycode⟩ :=
  fun hwaits => by
  have hs := System.started_listens hcnt hwaits
  rcases hs.listening.quhwa (mem_chain _) hid hkey with ⟨n, hlo, hhi, hcalls⟩
  exact ⟨n, hlo, hhi, System.heard_of_calls hs.msgCnt hcalls fun _ _ => rfl⟩

theorem quhwa_heard_example :
    let s := (System.started .same 0 0 ⟨1, 0, 0, [], []⟩).edges []
    ∃ n, 23 ≤ n ∧ n ≤ 26 ∧
      (s.edges (edges ⟨LOW, 1800⟩ (Quhwa.sendButton 87654321 16))).gateway =
        s.gateway.heard n ⟨.quhwa, Quhwa.sentCode 87654321 16⟩ :=
  quhwa_heard .same 0 0 ⟨1, 0, 0, [], []⟩ [] 1800 87654321 16 (by decide) (by decide) (by decide)
    (waits_initReceivers .avr)

/-! ## KlikAanKlikUit -/

/-- The board that transmits need not be the one that hears. -/
theorem Listening.kaku (hl : Listening b hs receivers t) (hmem : .kaku ∈ hs) (b' : Board) {r : ℕ}
    (hr : r ≤ 7) (address : ℕ) (cmd : Kaku.Command) :
    callsOf b hs receivers
        (edges ⟨LOW, t⟩ (cmd.send b' (Kaku.Transmitter.new 260 r) address)) =
      List.replicate ((2 ^ r - 1) / 3) ⟨.kaku, Kaku.transmitted 260
        ((receivers .kaku).decoder.receivedCode.dimLevelPresent ||
          (cmd.telegram address).dim.isSome) (cmd.telegram address)⟩ := by
  rcases hl.ready .kaku hmem with ⟨henabled, hmin, hcallback⟩
  rcases hl.waits .kaku hmem with ⟨hstate, hquiet⟩
  rcases Kaku.exists_listening henabled hstate hquiet with ⟨s', hlisten, hdecoder, hsame⟩
  -- the transmission as the decoder gets it
  have hevents : Mealy.events (Handler.interruptHandler b .kaku) (receivers .kaku)
      (edges ⟨LOW, t⟩ (cmd.send b' (Kaku.Transmitter.new 260 r) address)) =
        Mealy.events (Kaku.decode b) s'.decoder
          ((List.replicate (2 ^ r - 1) (widths (Kaku.pulses 260 (cmd.telegram address)))).flatten ++
            Kaku.dataWidths 260 (cmd.telegram address)) := by
    rw [Kaku.edges_send b' (by decide) hr, ← List.append_assoc]
    exact (hsame _).trans (Kaku.events_transmission (by decide) hlisten.enabled hlisten.state
      hlisten.skip hlisten.pending hlisten.pause)
  have hcalls := Kaku.callbacks_transmission (b := b) (p := 260) (by decide) (by decide)
    (y := cmd.telegram address) ⟨hlisten.state, by rw [hdecoder]; exact hmin,
      by rw [hdecoder]; exact hcallback, rfl⟩ (2 ^ r - 1)
  rw [← hevents, hdecoder] at hcalls
  refine hl.callsOf_eq hmem (fun j hj hready hwaits => ?_) hcalls
  rcases exists_kaku_train b' hr address cmd t with ⟨ps, hedges, hps, hws⟩
  rw [hedges]
  exact silent_of_kaku hj hready hwaits hps hws

/-- Of `2 ^ r` copies of a KlikAanKlikUit frame the gateway prints a third, less the one that sets the
period. -/
theorem kaku_heard (layout : Layout) (edge0 edge2 : ULong) (g : Gateway) (times : List ℕ)
    (t r address : ℕ) (cmd : Kaku.Command) (hcnt : g.msgCnt < 65536) (hr : r ≤ 7) :
    let s := (System.started layout edge0 edge2 g).edges times
    let present := (s.receivers .kaku).decoder.receivedCode.dimLevelPresent
    s.Waits t →
      (s.edges (edges ⟨LOW, t⟩ (cmd.send .avr (Kaku.Transmitter.new 260 r) address))).gateway =
        s.gateway.heard ((2 ^ r - 1) / 3) ⟨.kaku, Kaku.transmitted 260
          (present || (cmd.telegram address).dim.isSome) (cmd.telegram address)⟩ :=
  fun hwaits =>
  have hs := System.started_listens hcnt hwaits
  System.heard_of_calls hs.msgCnt (hs.listening.kaku (mem_chain _) .avr hr address cmd)
    fun _ _ => rfl

theorem kaku_heard_example :
    let s := (System.started .same 0 0 ⟨1, 0, 0, [], []⟩).edges []
    let present := (s.receivers .kaku).decoder.receivedCode.dimLevelPresent
    (s.edges (edges ⟨LOW, 1800⟩
        ((Kaku.Command.dim 3 9).send .avr (Kaku.Transmitter.new 260 3) 1000))).gateway =
      s.gateway.heard ((2 ^ 3 - 1) / 3) ⟨.kaku, Kaku.transmitted 260
        (present || ((Kaku.Command.dim 3 9).telegram 1000).dim.isSome)
        ((Kaku.Command.dim 3 9).telegram 1000)⟩ :=
  kaku_heard .same 0 0 ⟨1, 0, 0, [], []⟩ [] 1800 3 1000 (.dim 3 9) (by decide) (by decide)
    (waits_initReceivers .avr)

/-! ## Action -/

theorem Listening.remote (hl : Listening b hs receivers t) (hmem : .remote ∈ hs) (b' : Board)
    {r : ℕ} (hr : r ≤ 7) {ts : List Remote.Trit} (hts : ts.length = 12) :
    callsOf b hs receivers (edges ⟨LOW, t⟩
        (Remote.sendTelegram b' (Remote.encodeTelegram ⟨195, r⟩ (ts.map Fin.val)))) =
      List.replicate ((2 ^ r - 1) / 3) ⟨.remote, ⟨Remote.value ts, 195⟩⟩ := by
  rcases hl.ready .remote hmem with ⟨henabled, hmin, hcallback⟩
  rcases hl.waits .remote hmem with ⟨hstate, hquiet⟩
  have hedges : edges ⟨LOW, t⟩
      (Remote.sendTelegram b' (Remote.encodeTelegram ⟨195, r⟩ (ts.map Fin.val))) =
        edges ⟨LOW, t⟩ (Remote.sendTelegram b (Remote.encodeTelegram ⟨195, r⟩ (ts.map Fin.val))) := by
    rw [Remote.edges_sendTelegram b' (by decide) (by omega) hts,
      Remote.edges_sendTelegram b (by decide) (by omega) hts]
  have hcalls := Remote.callbacks_sendTelegram_quiet (b := b) (p := 195) (t := t) (by decide)
    (by decide) hr hts henabled hstate hmin hcallback hquiet
  rw [hedges]
  refine hl.callsOf_eq hmem (fun j hj hready hwaits => ?_) hcalls
  rcases exists_remote_train b hr hts t with ⟨ps, hedges, hps, hws⟩
  rw [hedges]
  exact silent_of_remote hj hready hwaits hps hws

/-- The same for the telegrams of 12 trits. -/
theorem remote_heard (layout : Layout) (edge0 edge2 : ULong) (g : Gateway) (times : List ℕ)
    (t r : ℕ) (ts : List Remote.Trit) (hcnt : g.msgCnt < 65536) (hr : r ≤ 7) (hts : ts.length = 12) :
    let s := (System.started layout edge0 edge2 g).edges times
    s.Waits t →
      (s.edges (edges ⟨LOW, t⟩
          (Remote.sendTelegram .avr (Remote.encodeTelegram ⟨195, r⟩ (ts.map Fin.val))))).gateway =
        s.gateway.heard ((2 ^ r - 1) / 3) ⟨.remote, ⟨Remote.value ts, 195⟩⟩ :=
  fun hwaits =>
  have hs := System.started_listens hcnt hwaits
  System.heard_of_calls hs.msgCnt (hs.listening.remote (mem_chain _) .avr hr hts)
    fun _ _ => rfl

theorem remote_heard_example :
    let s := (System.started .same 0 0 ⟨1, 0, 0, [], []⟩).edges []
    (s.edges (edges ⟨LOW, 1800⟩ (Remote.sendTelegram .avr
        (Remote.encodeTelegram ⟨195, 3⟩ ((Remote.actionTrits 5 3 true).map Fin.val))))).gateway =
      s.gateway.heard ((2 ^ 3 - 1) / 3) ⟨.remote, ⟨Remote.value (Remote.actionTrits 5 3 true), 195⟩⟩ :=
  remote_heard .same 0 0 ⟨1, 0, 0, [], []⟩ [] 1800 3 (Remote.actionTrits 5 3 true) (by decide)
    (by decide) rfl (waits_initReceivers .avr)

/-! ## WT440 -/

/-- The message counts as one more in a row of 256, of which the last one is lost to the byte that
counts them. -/
def Uncounted (f : RepeatFilter Wt440.Code) (c : Wt440.Code) : Prop :=
  Wt440.sameCode c f.previousCode = true ∧ f.repeats % 256 = 255

instance (f : RepeatFilter Wt440.Code) (c : Wt440.Code) : Decidable (Uncounted f c) := by
  unfold Uncounted
  infer_instance

/-- With `_minRepeats` 1 every frame calls back, but for the 256th in a row. -/
theorem callbacks_completion {f : RepeatFilter Wt440.Code} (hf : f.Ready 1) (c : Wt440.Code) :
    callbacks [(f.count Wt440.sameCode c).completion c] =
      List.replicate (if Uncounted f c then 0 else 1) c := by
  have hreached : (f.count Wt440.sameCode c).reached = true ↔ ¬Uncounted f c := by
    rw [RepeatFilter.reached, RepeatFilter.count_minRepeats, hf.1, decide_eq_true_iff, Uncounted]
    cases hsame : Wt440.sameCode c f.previousCode with
    | true =>
        rw [RepeatFilter.count_same hsame]
        simp only [true_and]
        omega
    | false =>
        rw [RepeatFilter.count_other hsame]
        simp
  have hcompletion : (f.count Wt440.sameCode c).completion c = ⟨c, decide (¬Uncounted f c)⟩ := by
    rw [RepeatFilter.completion, RepeatFilter.count_inCallback, hf.2, Bool.not_false, Bool.and_true,
      Bool.eq_iff_iff.2 (hreached.trans decide_eq_true_iff.symm)]
  rw [hcompletion]
  by_cases huncounted : Uncounted f c
  · simp [callbacks, huncounted]
  · simp [callbacks, codes, huncounted]

theorem Listening.wt440 (hl : Listening b hs receivers t) (hmem : .wt440 ∈ hs) (m : Wt440.TxCode) :
    callsOf b hs receivers (edges ⟨LOW, t⟩ (Wt440.sendMsg m)) =
      List.replicate
        (if Uncounted (receivers .wt440).decoder.filter (Wt440.sentCode m) then 0 else 1)
        ⟨.wt440, Wt440.sentCode m⟩ := by
  rcases hl.ready .wt440 hmem with ⟨henabled, hfilter, hrun⟩
  rcases hl.waits .wt440 hmem with ⟨hstate, hpause⟩
  have hskip := hrun.1
  rcases Wt440.run_repetition (m := m) hstate hskip Wt440.first_PULSE1 with ⟨-, hframe⟩
  -- of the four repetitions only the first is read
  have hevents : Mealy.events (Handler.interruptHandler b .wt440) (receivers .wt440)
      (edges ⟨LOW, t⟩ (Wt440.sendMsg m)) =
        [((receivers .wt440).decoder.filter.count Wt440.sameCode (Wt440.sentCode m)).completion
          (Wt440.sentCode m)] := by
    have hlater := Wt440.run_laterMsgWidths (m := m)
      (Wt440.run_running hrun (Wt440.frameWidths m)) 3
    have hall : Mealy.events (Handler.interruptHandler b .wt440) (receivers .wt440)
        (edges ⟨LOW, t⟩ (Wt440.sendMsg m)) = Mealy.events Wt440.decode
          (receivers .wt440).decoder _ := Sampled.events_eq henabled _
    refine hall.trans ?_
    rw [Wt440.measured_sendMsg, Mealy.events_cons, Wt440.decode_idle hstate hskip hpause,
      Wt440.msgWidths_eq, Mealy.events_append, hlater, Wt440.frameWidths_eq, hframe]
    rfl
  refine hl.callsOf_eq hmem
    (fun j hj hready hwaits => silent_of_wt440 hj hready hwaits m) ?_
  rw [hevents]
  exact callbacks_completion hfilter _

/-- A message of a temperature sensor makes the gateway print one line, unless its byte counter is at
255 with the same message. -/
theorem wt440_heard (layout : Layout) (edge0 edge2 : ULong) (g : Gateway) (times : List ℕ) (t : ℕ)
    (m : Wt440.TxCode) (hcnt : g.msgCnt < 65536) :
    let s := (System.started layout edge0 edge2 g).edges times
    s.Waits t →
      (s.edges (edges ⟨LOW, t⟩ (Wt440.sendMsg m))).gateway =
        s.gateway.heard
          (if Uncounted (s.receivers .wt440).decoder.filter (Wt440.sentCode m) then 0 else 1)
          ⟨.wt440, Wt440.sentCode m⟩ :=
  fun hwaits =>
  have hs := System.started_listens hcnt hwaits
  System.heard_of_calls hs.msgCnt (hs.listening.wt440 (mem_chain _) m)
    fun _ _ => rfl

theorem wt440_heard_example :
    let s := (System.started .same 0 0 ⟨1, 0, 0, [], []⟩).edges []
    (s.edges (edges ⟨LOW, 1800⟩ (Wt440.sendMsg ⟨10, 2, 50, 6, 9000⟩))).gateway =
      s.gateway.heard
        (if Uncounted (s.receivers .wt440).decoder.filter (Wt440.sentCode ⟨10, 2, 50, 6, 9000⟩) then 0
          else 1)
        ⟨.wt440, Wt440.sentCode ⟨10, 2, 50, 6, 9000⟩⟩ :=
  wt440_heard .same 0 0 ⟨1, 0, 0, [], []⟩ [] 1800 ⟨10, 2, 50, 6, 9000⟩ (by decide)
    (waits_initReceivers .avr)

end ArduinoGateway
end LamPI
