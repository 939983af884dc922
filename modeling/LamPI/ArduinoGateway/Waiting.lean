import LamPI.ArduinoGateway.Receivers
import LamPI.Bystanders
import LamPI.Bystanders.Kaku
import LamPI.Bystanders.LowPass
import LamPI.Bystanders.Remote
import LamPI.Repeats

/-!
# Receivers that wait

What `setup` has set stays as it is, whatever edges come.  When all receivers wait, the next edge
begins a transmission for all of them.
-/

namespace LamPI

open PulseLine Bystander

variable {γ δ ε : Type}

/-! ## What stays as it is -/

/-- The callback comes with the `m`-th repeat and is not being run. -/
def RepeatFilter.Ready (m : ℕ) (f : RepeatFilter γ) : Prop :=
  f.minRepeats = m ∧ f.inCallback = false

theorem RepeatFilter.Ready.count {m : ℕ} {f : RepeatFilter γ} (h : f.Ready m) (same : γ → γ → Bool)
    (c : γ) : (f.count same c).Ready m := by
  rw [Ready, count_minRepeats, count_inCallback]
  exact h

theorem RepeatFilter.Ready.step {m : ℕ} {same : γ → γ → Bool} {f f' : RepeatFilter γ}
    {e : Option (Completion γ)} (h : f.Ready m) (hstep : Step same f f' e) : f'.Ready m := by
  cases hstep with
  | silent => exact h
  | complete c => exact h.count same c

theorem Sampled.onEdge_keeps {decode : δ → ℕ → δ × Option ε} {P : δ → Prop}
    (hP : ∀ s d, P s → P (decode s d).1) {s : Sampled δ} (h : s.enabled = true ∧ P s.decoder)
    (now : ℕ) : (s.onEdge decode now).1.enabled = true ∧ P (s.onEdge decode now).1.decoder := by
  rw [onEdge, if_pos h.1]
  exact ⟨h.1, hP _ _ h.2⟩

theorem Sampled.onEdge_ready {decode : δ → ℕ → δ × Option (Completion γ)} {same : γ → γ → Bool}
    {filter : δ → RepeatFilter γ} (hcounts : Counts decode same filter) {m : ℕ} {s : Sampled δ}
    (h : s.enabled = true ∧ (filter s.decoder).Ready m) (now : ℕ) :
    (s.onEdge decode now).1.enabled = true ∧ (filter (s.onEdge decode now).1.decoder).Ready m :=
  onEdge_keeps (P := fun s => (filter s).Ready m) (fun s d h => h.step (hcounts s d)) h now

theorem Filtered.onEdge_keeps {b : Board} {D : PulseDecoder δ ε} {P : δ → Prop}
    (hP : ∀ s d, P s → P (D.decode s d).1) {s : Filtered δ} (h : s.enabled = true ∧ P s.decoder)
    (now : ℕ) : (s.onEdge b D now).1.enabled = true ∧ P (s.onEdge b D now).1.decoder := by
  rw [onEdge, if_pos h.1]
  rcases s.filter b D now with ⟨f, _ | duration⟩
  · exact h
  · exact ⟨h.1, hP _ _ h.2⟩

theorem Auriol.counts_decode (b : Board) : Counts (decode b) sameCode Decoder.filter := by
  intro s gap
  have hadvance : ∀ c, RepeatFilter.Step sameCode s.filter
      (advance { s with receivedCode := c }).1.filter (advance { s with receivedCode := c }).2 := by
    intro c
    unfold advance
    split
    · exact RepeatFilter.Step.complete _
    · exact RepeatFilter.Step.silent
  unfold decode
  simp only
  split_ifs
  all_goals first
    | exact hadvance _
    | exact RepeatFilter.Step.silent

theorem Wt440.ready_decode {m : ℕ} {s : Decoder} (h : s.filter.Ready m ∧ s.Running) (gap : ℕ) :
    (decode s gap).1.filter.Ready m ∧ (decode s gap).1.Running := by
  refine ⟨?_, tracks_decode.step_inv s gap h.2⟩
  have hstep := stepTo_decode gap h.2
  generalize next s.state gap = move, decode s gap = r at hstep ⊢
  cases hstep with
  | abort _ hfilter _ => exact hfilter ▸ h.1
  | go _ hfilter => exact hfilter ▸ h.1
  | done c _ hfilter _ => exact hfilter ▸ h.1.count sameCode c

theorem Kaku.ready_decode {b : Board} {m : ℕ} {s : Decoder} (h : s.filter.Ready m) (d : ℕ) :
    (decode b s d).1.filter.Ready m := by
  have houtcome := decode_outcome b s d
  generalize decode b s d = r at houtcome ⊢
  cases houtcome with
  | idle _ _ => exact h
  | sync _ _ => exact h
  | reset _ _ _ _ _ => exact h
  | advance _ _ _ _ _ _ => exact h
  | complete _ _ => exact h.count _ _

theorem Remote.ready_decode {b : Board} {m : ℕ} {s : Decoder} (h : s.filter.Ready m) (d : ℕ) :
    (decode b s d).1.filter.Ready m := by
  have houtcome := decode_outcome b s d
  generalize decode b s d = r at houtcome ⊢
  cases houtcome with
  | idle _ _ => exact h
  | sync _ _ => exact h
  | reset _ _ _ => exact h
  | advance _ _ _ => exact h
  | complete _ =>
      unfold complete
      simp only
      split
      · exact h.count _ _
      · exact h.count _ _

namespace ArduinoGateway

/-- A receiver that is enabled and calls back as `setup` has told it to. -/
def Handler.Ready : (h : Handler) → h.State → Prop
  | .auriol => fun s => s.enabled = true ∧ s.decoder.filter.Ready 2
  | .remote => fun s => s.enabled = true ∧ s.decoder.filter.Ready 2
  | .kaku => fun s => s.enabled = true ∧ s.decoder.filter.Ready 2
  | .livolo => fun s => s.enabled = true ∧ s.decoder.filter.Ready 3
  | .kopou => fun s => s.enabled = true ∧ s.decoder.filter.Ready 3
  | .quhwa => fun s => s.enabled = true ∧ s.decoder.filter.Ready 3
  | .wt440 => fun s => s.enabled = true ∧ s.decoder.filter.Ready 1 ∧ s.decoder.Running

theorem ready_initReceivers (edge0 edge2 : ULong) (h : Handler) :
    h.Ready (initReceivers edge0 edge2 h) := by
  cases h with
  | wt440 => exact ⟨rfl, ⟨rfl, rfl⟩, Wt440.init_running 1 edge2⟩
  | _ => exact ⟨rfl, rfl, rfl⟩

theorem Handler.Ready.onEdge {h : Handler} {s : h.State} (hs : h.Ready s) (b : Board) (now : ℕ) :
    h.Ready (h.interruptHandler b s now).1 := by
  cases h with
  | auriol => exact Sampled.onEdge_ready (Auriol.counts_decode b) hs now
  | remote =>
      exact Filtered.onEdge_keeps (D := Remote.pulseDecoder b)
        (P := fun s => s.filter.Ready 2) (fun s d h => Remote.ready_decode h d) hs now
  | kaku =>
      exact Filtered.onEdge_keeps (D := Kaku.pulseDecoder b)
        (P := fun s => s.filter.Ready 2) (fun s d h => Kaku.ready_decode h d) hs now
  | livolo => exact Sampled.onEdge_ready (Livolo.counts_decode b) hs now
  | kopou => exact Sampled.onEdge_ready (Kopou.counts_decode b) hs now
  | quhwa => exact Sampled.onEdge_ready (Quhwa.counts_decode b) hs now
  | wt440 =>
      exact Sampled.onEdge_keeps (P := fun s : Wt440.Decoder => s.filter.Ready 1 ∧ s.Running)
        (fun s d h => Wt440.ready_decode h d) hs now

/-- Whatever edges come, the receivers of a chain stay ready. -/
theorem ready_final {b : Board} {hs : List Handler} {receivers : (h : Handler) → h.State}
    (hnodup : hs.Nodup) (hready : ∀ h ∈ hs, h.Ready (receivers h)) (times : List ℕ) :
    ∀ h ∈ hs, h.Ready (Listeners.final (Handler.interruptHandler b) hs receivers times h) := by
  intro h hmem
  rw [(Listeners.run_of_mem hnodup hmem times).1]
  exact Mealy.final_invariant (I := h.Ready) (fun s now hs => hs.onEdge b now) (hready h hmem) times

theorem System.ready_edges {s : System} (hs : ∀ h : Handler, h.Ready (s.receivers h))
    (times : List ℕ) (h : Handler) : h.Ready ((s.edges times).receivers h) := by
  rw [edges_eq]
  exact ready_final chain_nodup (fun h _ => hs h) times h (mem_chain h)

/-! ## Waiting -/

/-- A receiver that waits, and to which an edge at `t` would not end a start pulse. -/
def Handler.Waits (b : Board) : (h : Handler) → h.State → ℕ → Prop
  | .auriol => fun s t => s.decoder.state = -1 ∧ ¬Auriol.Sync b (micros t - s.edge2).toNat
  | .remote => fun s t => s.decoder.state = -1 ∧ ∀ d ∈ s.untilPulse b t, d ≤ 3720
  | .kaku => fun s t => s.decoder.state = -1 ∧ ∀ d ∈ s.untilPulse b t, d ≤ 4800
  | .livolo => fun s t => s.decoder.state = -1 ∧
      ¬(440 < b.uint (micros t - s.edge2).toNat ∧ b.uint (micros t - s.edge2).toNat < 600)
  | .kopou => fun s t => s.decoder.state = -1 ∧ ¬Kopou.Start b (micros t - s.edge2).toNat
  | .quhwa => fun s t => s.decoder.state = -1 ∧ ¬Quhwa.Start b (micros t - s.edge2).toNat
  | .wt440 => fun s t => s.decoder.state = -1 ∧ ¬Wt440.First (micros t - s.edge2).toNat

def System.Waits (s : System) (t : ℕ) : Prop := ∀ h : Handler, h.Waits .avr (s.receivers h) t

/-- 1.8 ms after the last edge all receivers wait if they have heard nothing yet. -/
theorem waits_initReceivers (b : Board) (h : Handler) : h.Waits b (initReceivers 0 0 h) 1800 := by
  cases b <;> cases h with
  | auriol => exact ⟨rfl, by unfold Auriol.Sync; decide⟩
  | remote => exact ⟨rfl, by decide⟩
  | kaku => exact ⟨rfl, by decide⟩
  | livolo => exact ⟨rfl, by decide⟩
  | kopou => exact ⟨rfl, by unfold Kopou.Start; decide⟩
  | quhwa => exact ⟨rfl, by unfold Quhwa.Start; decide⟩
  | wt440 => exact ⟨rfl, by unfold Wt440.First; decide⟩

/-! ## One receiver only -/

/-- While all receivers of a chain but one are silent, the callbacks are those that it makes. -/
theorem calls_of_silent {b : Board} {hs : List Handler} {receivers : (h : Handler) → h.State}
    {h : Handler} {times : List ℕ} (hnodup : hs.Nodup) (hmem : h ∈ hs)
    (hsilent : ∀ j ∈ hs, j ≠ h → Mealy.events (j.interruptHandler b) (receivers j) times = []) :
    calls (Listeners.events (Handler.interruptHandler b) hs receivers times) =
      (callbacks (Mealy.events (h.interruptHandler b) (receivers h) times)).map (Sigma.mk h) := by
  have hcalls : ∀ es : List (Completion h.Code),
      calls (es.map (Sigma.mk h)) = (callbacks es).map (Sigma.mk h) := by
    intro es
    simp only [calls, callbacks, codes, List.filter_map, List.map_map]
    rfl
  rw [Listeners.events_of_silent hnodup hmem hsilent, hcalls]

end ArduinoGateway
end LamPI
