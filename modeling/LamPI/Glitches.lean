import LamPI.Kaku.Receiver
import LamPI.Remote.Receiver

/-!
# Glitches — what the low-pass filter makes of short pulses between two edges

A glitch is a pair of extra edges.  The filter drops the second edge of a pair and the edge after
it, so that after the next edge of the signal the handler is in the state in which it would be
without the glitches, one interval of the signal having been decoded early.
-/

namespace LamPI

open PulseLine

variable {δ ε : Type}

/-! ## Signals with glitches -/

def glitchEdges (ps : List (ℕ × ℕ)) : List ℕ := ps.flatMap fun p => [p.1, p.2]

/-- The glitches lie one after the other between two edges, and each is narrower than `m`. -/
def Between (m : ℕ) : ℕ → List (ℕ × ℕ) → ℕ → Prop
  | e, [], e' => e < e'
  | e, p :: ps, e' => e < p.1 ∧ p.1 < p.2 ∧ p.2 < p.1 + m ∧ Between m p.2 ps e'

instance (m : ℕ) : ∀ (e : ℕ) (ps : List (ℕ × ℕ)) (e' : ℕ), Decidable (Between m e ps e')
  | _, [], _ => inferInstanceAs (Decidable (_ < _))
  | _, p :: ps, e' =>
      have := instDecidableBetween m p.2 ps e'
      inferInstanceAs (Decidable (_ ∧ _ ∧ _ ∧ _))

theorem Between.lt {m e e' : ℕ} {ps : List (ℕ × ℕ)} (h : Between m e ps e') : e < e' := by
  induction ps generalizing e with
  | nil => exact h
  | cons p ps ih =>
      rcases h with ⟨hp, hwidth, -, hrest⟩
      exact hp.trans (hwidth.trans (ih hrest))

namespace Filtered

/-- Glitches may be put between the edges `e` and `e'`, `s'` being the state after `e'` without
them, when the interval before `e` has been processed: the decoder is within a frame, they are
narrower than its `min1Period`, and the first of them comes so long after `e`. -/
structure Admits (D : PulseDecoder δ ε) (s' : Filtered δ) (e : ℕ) (ps : List (ℕ × ℕ)) (e' : ℕ) :
    Prop where
  active : D.active s'.decoder = true
  late : ∀ p ∈ ps.head?, e + D.min1Period s'.decoder ≤ p.1
  between : Between (D.min1Period s'.decoder) e ps e'

/-- The edges `noisy` are the edges `clean` with glitches in some of the intervals between them, of
a width that `W` allows; the last edge was at `e`, and `s` is the state after it without
glitches. -/
inductive Noisy (b : Board) (D : PulseDecoder δ ε) (W : ℕ → Prop) :
    Filtered δ → ℕ → List ℕ → List ℕ → Prop
  | nil {s : Filtered δ} {e : ℕ} : Noisy b D W s e [] []
  | keep {s : Filtered δ} {e e' : ℕ} {clean noisy : List ℕ}
      (rest : Noisy b D W (s.onEdge b D e').1 e' clean noisy) :
      Noisy b D W s e (e' :: clean) (e' :: noisy)
  | insert {s : Filtered δ} {e e' : ℕ} {ps : List (ℕ × ℕ)} {clean noisy : List ℕ}
      (hadmits : Admits D (s.onEdge b D e').1 e ps e') (hwidth : W (e' - e))
      (rest : Noisy b D W (s.onEdge b D e').1 e' clean noisy) :
      Noisy b D W s e (e' :: clean) (glitchEdges ps ++ e' :: noisy)

/-- The two runs end in the same state and have made the same callbacks. -/
def Agree (b : Board) (D : PulseDecoder δ ε) (s : Filtered δ) (clean noisy : List ℕ) : Prop :=
  Mealy.final (onEdge b D) s noisy = Mealy.final (onEdge b D) s clean ∧
    Mealy.events (onEdge b D) s noisy = Mealy.events (onEdge b D) s clean

variable {b : Board} {D : PulseDecoder δ ε} {s : Filtered δ} {e e' m : ℕ} {ps : List (ℕ × ℕ)}

/-! ## One interval -/

/-- The second edge of a glitch and the edge after it are dropped. -/
theorem final_drop {g h x : ℕ} (hpending : s.Pending b g x) (hactive : D.active s.decoder = true)
    (hgh : g < h) (hnarrow : h < g + D.min1Period s.decoder) (hclock : h < g + 2 ^ 32) (t : ℕ) :
    Mealy.final (onEdge b D) s [h, t] =
        { s with lowPass := { s.lowPass with edge2 := micros t } } ∧
      Mealy.events (onEdge b D) s [h, t] = [] := by
  obtain ⟨a, rfl⟩ : ∃ a, h = g + a := ⟨h - g, by omega⟩
  have hshort := onEdge_short (a := a) hpending hactive (by omega) (by omega)
  have hskip := onEdge_skip (b := b) (D := D)
    (s := { s with lowPass := { s.lowPass with edge2 := micros (g + a), skip := true } })
    hpending.enabled rfl t
  rw [Mealy.final_cons, Mealy.final_cons, Mealy.final_nil, Mealy.events_cons, Mealy.events_cons,
    Mealy.events_nil, hshort, hskip]
  refine ⟨?_, rfl⟩
  rw [← hpending.skip]

/-- From the first edge of a glitch on, everything up to `e'` is dropped. -/
theorem final_drop_all {g h : ℕ} (henabled : s.enabled = true) (hskip : s.lowPass.skip = false)
    (hedge : s.lowPass.edge2 = micros g) (hactive : D.active s.decoder = true) (hgh : g < h)
    (hnarrow : h < g + D.min1Period s.decoder)
    (hps : Between (D.min1Period s.decoder) h ps e') (hclock : e' < g + 2 ^ 32) :
    Mealy.final (onEdge b D) s (h :: (glitchEdges ps ++ [e'])) =
        { s with lowPass := { s.lowPass with edge2 := micros e' } } ∧
      Mealy.events (onEdge b D) s (h :: (glitchEdges ps ++ [e'])) = [] := by
  induction ps generalizing s g h with
  | nil =>
      have hlt : h < e' := hps.lt
      exact final_drop ⟨henabled, hskip, hedge, rfl⟩ hactive hgh hnarrow (by omega) e'
  | cons p ps ih =>
      have hlt : h < e' := hps.lt
      rcases hps with ⟨hnext, hp, hpnarrow, hrest⟩
      -- this glitch and the first edge of the next one
      rcases final_drop ⟨henabled, hskip, hedge, rfl⟩ hactive hgh hnarrow (by omega) p.1 with
        ⟨hfinal, hevents⟩
      have hsplit : h :: (glitchEdges (p :: ps) ++ [e']) =
          [h, p.1] ++ p.2 :: (glitchEdges ps ++ [e']) := rfl
      rw [hsplit, Mealy.final_append, Mealy.events_append, hfinal, hevents]
      exact ih henabled hskip rfl hactive hp hpnarrow hrest (by omega)

/-- An edge that passes hands the pending duration to the decoder, and nothing else changes. -/
theorem Pending.onEdge_eq {t x d : ℕ} (h : s.Pending b t x) (hclock : d < 2 ^ 32)
    (hpass : D.active s.decoder = true → D.min1Period s.decoder ≤ d) :
    s.onEdge b D (t + d) =
      ({ s with
        lowPass := { s.lowPass with edge0 := s.lowPass.edge2, edge2 := micros (t + d) }
        decoder := (D.decode s.decoder x).1 }, (D.decode s.decoder x).2) := by
  rw [onEdge, if_pos h.enabled, h.filter_eq hclock hpass]

def KeepsThreshold (D : PulseDecoder δ ε) : Prop :=
  ∀ s d, D.active s = true → D.active (D.decode s d).1 = true →
    D.min1Period (D.decode s d).1 = D.min1Period s

/-- The first edge of a glitch does what `e'` would do: it has the same interval decoded, or is
dropped like it. -/
theorem onEdge_first (hD : KeepsThreshold D) {g : ℕ} (henabled : s.enabled = true)
    (hedge : s.lowPass.edge2 = micros e) (hactive : D.active (s.onEdge b D e').1.decoder = true)
    (hlate : e + D.min1Period (s.onEdge b D e').1.decoder ≤ g) (heg : e < g) (hge : g < e')
    (hclock : e' < e + 2 ^ 32) :
    let s' := (s.onEdge b D e').1
    s'.enabled = true ∧ s'.lowPass.skip = false ∧ s'.lowPass.edge2 = micros e' ∧
      s.onEdge b D g =
        ({ s' with lowPass := { s'.lowPass with edge2 := micros g } }, (s.onEdge b D e').2) := by
  intro s'
  cases hskip : s.lowPass.skip with
  | true =>
      have hclean := onEdge_skip (b := b) (D := D) henabled hskip e'
      have hfirst := onEdge_skip (b := b) (D := D) henabled hskip g
      simp only [s', hclean, hfirst]
      exact ⟨henabled, trivial, trivial, trivial⟩
  | false =>
      have hpending : s.Pending b e _ := ⟨henabled, hskip, hedge, rfl⟩
      obtain ⟨d, rfl⟩ : ∃ d, e' = e + d := ⟨e' - e, by omega⟩
      obtain ⟨c, rfl⟩ : ∃ c, g = e + c := ⟨g - e, by omega⟩
      -- an edge that comes too soon for the filter would come too soon for a glitch
      have hpass : D.active s.decoder = true → D.min1Period s.decoder ≤ c := by
        intro hbefore
        by_cases hpass : D.min1Period s.decoder ≤ d
        · have hpassed := hpending.onEdge_eq (D := D) (d := d) (by omega) fun _ => hpass
          rw [hpassed] at hactive hlate
          have hkept := hD _ _ hbefore hactive
          simp only [hkept] at hlate
          omega
        · have hshort := onEdge_short (a := d) hpending hbefore (Nat.lt_of_not_le hpass) (by omega)
          rw [hshort] at hlate
          simp only at hlate
          omega
      have hclean := hpending.onEdge_eq (D := D) (d := d) (by omega) fun hbefore =>
        (hpass hbefore).trans (by omega)
      have hfirst := hpending.onEdge_eq (D := D) (d := c) (by omega) hpass
      simp only [s', hclean, hfirst]
      exact ⟨henabled, hskip, trivial, trivial⟩

/-- Glitches between two edges make no difference after the second one. -/
theorem final_insert (hD : KeepsThreshold D) (henabled : s.enabled = true)
    (hedge : s.lowPass.edge2 = micros e) (hadmits : Admits D (s.onEdge b D e').1 e ps e')
    (hclock : e' - e < 2 ^ 32) :
    Mealy.final (onEdge b D) s (glitchEdges ps ++ [e']) = (s.onEdge b D e').1 ∧
      Mealy.events (onEdge b D) s (glitchEdges ps ++ [e']) = (s.onEdge b D e').2.toList := by
  rcases hadmits with ⟨hactive, hlate, hbetween⟩
  cases ps with
  | nil => exact ⟨rfl, List.append_nil _⟩
  | cons p ps =>
      have hlt : e < e' := hbetween.lt
      rcases hbetween with ⟨hp, hwidth, hnarrow, hrest⟩
      have hbefore : p.2 < e' := hrest.lt
      -- the first edge does the work of `e'`, and the others are dropped
      rcases onEdge_first hD henabled hedge hactive (hlate p rfl) hp (by omega) (by omega) with
        ⟨henabled', hskip', hedge', hfirst⟩
      have hsplit : glitchEdges (p :: ps) ++ [e'] = p.1 :: p.2 :: (glitchEdges ps ++ [e']) := rfl
      rw [hsplit, Mealy.final_cons, Mealy.events_cons, hfirst]
      rcases final_drop_all (b := b) (s := { (s.onEdge b D e').1 with
          lowPass := { (s.onEdge b D e').1.lowPass with edge2 := micros p.1 } })
          henabled' hskip' rfl hactive hwidth hnarrow hrest (by omega) with ⟨hfinal, hevents⟩
      rw [hfinal, hevents, List.append_nil]
      refine ⟨?_, rfl⟩
      -- the reference edge is `e'` again
      simp only [← hedge']

/-! ## Whole runs -/

/-- An enabled handler notes the time of every edge. -/
theorem onEdge_edge2 (henabled : s.enabled = true) (t : ℕ) :
    (s.onEdge b D t).1.enabled = true ∧ (s.onEdge b D t).1.lowPass.edge2 = micros t := by
  rw [onEdge, if_pos henabled]
  unfold filter LowPass.onEdge
  dsimp only
  split
  · next f hf =>
    split at hf
    · cases hf
      exact ⟨henabled, rfl⟩
    · split at hf
      · cases hf
        exact ⟨henabled, rfl⟩
      · cases hf
  · next f d hf =>
    split at hf
    · cases hf
    · split at hf
      · cases hf
      · cases hf
        exact ⟨henabled, rfl⟩

/-- Glitches in intervals that the clock can measure are invisible. -/
theorem Noisy.agree (hD : KeepsThreshold D) {clean noisy : List ℕ}
    (h : Noisy b D (· < 2 ^ 32) s e clean noisy)
    (hedge : s.enabled = true → s.lowPass.edge2 = micros e) : Agree b D s clean noisy := by
  cases henabled : s.enabled with
  | false =>
      -- a disabled handler ignores both signals
      have hdisabled : ∀ now, s.onEdge b D now = (s, none) := fun now =>
        if_neg (by rw [henabled]; exact Bool.false_ne_true)
      have hrun : ∀ times : List ℕ, _ := fun times =>
        Mealy.run_ignored fun now (_ : now ∈ times) => hdisabled now
      have hclean := hrun clean
      have hnoisy := hrun noisy
      exact ⟨hnoisy.1.trans hclean.1.symm, hnoisy.2.trans hclean.2.symm⟩
  | true =>
      replace hedge := hedge henabled
      induction h with
      | nil => exact ⟨rfl, rfl⟩
      | @keep s e e' clean noisy rest ih =>
          rcases onEdge_edge2 (b := b) (D := D) henabled e' with ⟨henabled', hedge'⟩
          rcases ih henabled' hedge' with ⟨hfinal, hevents⟩
          rw [Agree, Mealy.final_cons, Mealy.final_cons, Mealy.events_cons, Mealy.events_cons,
            hfinal, hevents]
          exact ⟨rfl, rfl⟩
      | @insert s e e' ps clean noisy hadmits hwidth rest ih =>
          rcases onEdge_edge2 (b := b) (D := D) henabled e' with ⟨henabled', hedge'⟩
          rcases ih henabled' hedge' with ⟨hfinal, hevents⟩
          rcases final_insert hD henabled hedge hadmits hwidth with ⟨hglitch, hquiet⟩
          -- up to `e'` the glitches, and then the rest
          have hsplit : glitchEdges ps ++ e' :: noisy = (glitchEdges ps ++ [e']) ++ noisy := by
            rw [List.append_assoc]
            rfl
          rw [Agree, hsplit, Mealy.final_append, Mealy.events_append, hglitch, hquiet,
            Mealy.final_cons, Mealy.events_cons, hfinal, hevents]
          exact ⟨rfl, rfl⟩

/-- The same from an edge on, before which anything may have happened. -/
theorem Noisy.agree_cons (hD : KeepsThreshold D) {t : ℕ} {clean noisy : List ℕ}
    (h : Noisy b D (· < 2 ^ 32) (s.onEdge b D t).1 t clean noisy) :
    Agree b D s (t :: clean) (t :: noisy) := by
  have hedge : (s.onEdge b D t).1.enabled = true → (s.onEdge b D t).1.lowPass.edge2 = micros t := by
    intro henabled
    refine (onEdge_edge2 ?_ t).2
    -- an edge does not enable the handler
    unfold onEdge at henabled
    by_contra hdisabled
    rw [if_neg hdisabled] at henabled
    exact hdisabled henabled
  rcases h.agree hD hedge with ⟨hfinal, hevents⟩
  rw [Agree, Mealy.final_cons, Mealy.final_cons, Mealy.events_cons, Mealy.events_cons, hfinal,
    hevents]
  exact ⟨rfl, rfl⟩

end Filtered

/-! ## The two receivers -/

open Filtered

/-- Within a frame of a Kaku remote the thresholds stay. -/
theorem Kaku.keepsThreshold (b : Board) : KeepsThreshold (Kaku.pulseDecoder b) := by
  intro s d hactive hafter
  have hne : s.state ≠ -1 := by
    have hge : 0 ≤ s.state := of_decide_eq_true hactive
    omega
  have houtcome := Kaku.decode_outcome b s d
  simp only [Kaku.pulseDecoder]
  generalize Kaku.decode b s d = r at houtcome
  cases houtcome with
  | idle hs => exact absurd hs hne
  | sync hs => exact absurd hs hne
  | reset => rfl
  | advance => rfl
  | complete => rfl

/-- So they do within a telegram of the others. -/
theorem Remote.keepsThreshold (b : Board) : KeepsThreshold (Remote.pulseDecoder b) := by
  intro s d hactive hafter
  have hne : s.state ≠ -1 := by
    have hge : 0 ≤ s.state := of_decide_eq_true hactive
    omega
  have houtcome := Remote.decode_outcome b s d
  simp only [Remote.pulseDecoder]
  generalize Remote.decode b s d = r at houtcome
  cases houtcome with
  | idle hs => exact absurd hs hne
  | sync hs => exact absurd hs hne
  | reset => rfl
  | advance => rfl
  | complete =>
      unfold Remote.complete
      dsimp only
      split <;> rfl

/-- Whatever state the receivers are in: glitches that are put into a signal after its first edge,
where the decoder is within a frame, are not noticed, if the intervals that they are put into are
shorter than one turn of `micros()`. -/
theorem glitches_invisible (b : Board) (t : ℕ) (clean noisy : List ℕ) :
    (∀ s : Kaku.State,
      Noisy b (Kaku.pulseDecoder b) (· < 2 ^ 32) (Kaku.interruptHandler b s t).1 t clean noisy →
        Agree b (Kaku.pulseDecoder b) s (t :: clean) (t :: noisy)) ∧
    (∀ s : Remote.State,
      Noisy b (Remote.pulseDecoder b) (· < 2 ^ 32) (Remote.interruptHandler b s t).1 t clean noisy →
        Agree b (Remote.pulseDecoder b) s (t :: clean) (t :: noisy)) :=
  ⟨fun _ h => h.agree_cons (Kaku.keepsThreshold b),
    fun _ h => h.agree_cons (Remote.keepsThreshold b)⟩

/-- A glitch of 20 µs in the gap of a start pulse. -/
theorem glitches_invisible_example :
    Agree .avr (Kaku.pulseDecoder .avr) (Kaku.init 2 0 0) [0, 10400, 10660, 13260]
        [0, 10400, 10660, 10860, 10880, 13260] ∧
      Agree .avr (Remote.pulseDecoder .avr) (Remote.init 2 0 0) [0, 10400, 10660, 13260]
        [0, 10400, 10660, 10860, 10880, 13260] := by
  have hkaku : Admits (Kaku.pulseDecoder .avr)
      (Mealy.final (Kaku.interruptHandler .avr) (Kaku.init 2 0 0) [0, 10400, 10660, 13260])
      10660 [(10860, 10880)] 13260 :=
    ⟨by decide, by intro p hp; cases hp; decide, by decide⟩
  have hremote : Admits (Remote.pulseDecoder .avr)
      (Mealy.final (Remote.interruptHandler .avr) (Remote.init 2 0 0) [0, 10400, 10660, 13260])
      10660 [(10860, 10880)] 13260 :=
    ⟨by decide, by intro p hp; cases hp; decide, by decide⟩
  have h := glitches_invisible .avr 0 [10400, 10660, 13260] [10400, 10660, 10860, 10880, 13260]
  exact ⟨h.1 _ (.keep (.keep (.insert hkaku (by decide) .nil))),
    h.2 _ (.keep (.keep (.insert hremote (by decide) .nil)))⟩

/-- In an interval of one turn of `micros()` and 10 µs a glitch has a duration decoded that is lost
without it. -/
theorem glitch_noticed :
    ¬∀ (s : Kaku.State) (t : ℕ) (clean noisy : List ℕ),
      Noisy .avr (Kaku.pulseDecoder .avr) (fun _ => True) (Kaku.interruptHandler .avr s t).1 t
          clean noisy →
        Agree .avr (Kaku.pulseDecoder .avr) s (t :: clean) (t :: noisy) := by
  intro hall
  have hadmits : Admits (Kaku.pulseDecoder .avr)
      (Mealy.final (Kaku.interruptHandler .avr) (Kaku.init 2 0 0)
        [0, 10400, 10660, 10670 + 2 ^ 32])
      10660 [(10760, 10770)] (10670 + 2 ^ 32) :=
    ⟨by decide, by intro p hp; cases hp; decide, by decide⟩
  have h := hall (Kaku.init 2 0 0) 0 [10400, 10660, 10670 + 2 ^ 32]
    [10400, 10660, 10760, 10770, 10670 + 2 ^ 32]
    (.keep (.keep (.insert hadmits trivial .nil)))
  have hstate := congrArg (fun s : Kaku.State => s.decoder.state) h.1
  revert hstate
  decide

end LamPI
