import LamPI.Receiver

/-!
# Transmissions through the low-pass filter

The filter hands every interval to the decoder, one edge late, unless an edge comes too soon.
-/

namespace LamPI

open PulseLine

namespace Filtered

variable {δ ε : Type} {b : Board} {D : PulseDecoder δ ε} {s : Filtered δ}

/-- What a train without short pulses leaves: all of it has been decoded but the last width. -/
theorem Pending.run_passing {I : δ → Prop} {m u t last : ℕ} {ds : List ℕ} (h : s.Pending b t u)
    (hpass : ∀ dec, I dec → D.active dec = true → D.min1Period dec ≤ m) (hinv : I s.decoder)
    (hstep : ∀ dec, ∀ d ∈ u :: ds, I dec → I (D.decode dec d).1)
    (hds : ∀ d ∈ ds ++ [last], m ≤ d ∧ d < 65536) :
    (Mealy.final (onEdge b D) s (stamps t (ds ++ [last]))).Pending b (t + (ds ++ [last]).sum) last ∧
      (Mealy.final (onEdge b D) s (stamps t (ds ++ [last]))).decoder =
        Mealy.final D.decode s.decoder (u :: ds) ∧
      Mealy.events (onEdge b D) s (stamps t (ds ++ [last])) =
        Mealy.events D.decode s.decoder (u :: ds) := by
  induction ds generalizing s t u with
  | nil =>
      rcases hds last (by simp) with ⟨hmd, hd⟩
      rcases h.pass (D := D) (d := last) (by omega) (fun ha => (hpass _ hinv ha).trans hmd) with
        ⟨hnext, hdecoder, hout⟩
      rw [b.uint_of_lt hd] at hnext
      rw [List.nil_append, stamps_cons, stamps_nil, List.sum_singleton, Mealy.final_cons,
        Mealy.events_cons, Mealy.final_nil, Mealy.events_nil, hdecoder, hout]
      exact ⟨hnext, rfl, rfl⟩
  | cons d ds ih =>
      rcases hds d (by simp) with ⟨hmd, hd⟩
      rcases h.pass (D := D) (d := d) (by omega) (fun ha => (hpass _ hinv ha).trans hmd) with
        ⟨hnext, hdecoder, hout⟩
      rw [b.uint_of_lt hd] at hnext
      rcases ih hnext (by rw [hdecoder]; exact hstep _ u (by simp) hinv)
        (fun dec x hx => hstep dec x (List.mem_cons_of_mem u hx))
        (fun x hx => hds x (List.mem_cons_of_mem d hx)) with ⟨hpending, hfinal, hevents⟩
      rw [List.cons_append, stamps_cons, List.sum_cons, ← Nat.add_assoc, Mealy.final_cons,
        Mealy.events_cons, hfinal, hevents, hdecoder, hout]
      exact ⟨hpending, rfl, rfl⟩

/-- The first edge of a transmission hands nothing new to a decoder that waits. -/
theorem first_edge (henabled : s.enabled = true) (hskip : s.lowPass.skip = false)
    (hidle : D.active s.decoder = false)
    (hpending : D.decode s.decoder (b.uint (s.lowPass.edge2 - s.lowPass.edge0).toNat) =
      (s.decoder, none)) (t : ℕ) :
    (s.onEdge b D t).1.Pending b t (b.uint (micros t - s.lowPass.edge2).toNat) ∧
      (s.onEdge b D t).1.decoder = s.decoder ∧ (s.onEdge b D t).2 = none := by
  rcases pass_inactive (b := b) (D := D) henabled hskip hidle t with ⟨hfirst, -, hdecoder, hout⟩
  rw [hpending] at hdecoder hout
  exact ⟨hfirst, hdecoder, hout⟩

/-- A decoder that waits is handed every interval, however short it is. -/
theorem events_waiting {t : ℕ} {ws : List ℕ} (henabled : s.enabled = true)
    (hskip : s.lowPass.skip = false) (hidle : D.active s.decoder = false)
    (hpending : D.decode s.decoder (b.uint (s.lowPass.edge2 - s.lowPass.edge0).toNat) =
      (s.decoder, none))
    (hpause : D.decode s.decoder (b.uint (micros t - s.lowPass.edge2).toNat) = (s.decoder, none))
    (hws : ∀ d ∈ ws, D.decode s.decoder d = (s.decoder, none)) (hlt : ∀ d ∈ ws, d < 65536) :
    Mealy.events (onEdge b D) s (stamps t (0 :: ws)) = [] := by
  rcases first_edge (D := D) henabled hskip hidle hpending t with ⟨hfirst, hdecoder, hout⟩
  rw [stamps_cons, Nat.add_zero, Mealy.events_cons, hout]
  rcases List.eq_nil_or_concat ws with rfl | ⟨ds, last, rfl⟩
  · rfl
  rw [List.concat_eq_append] at hws hlt ⊢
  have hall : ∀ d ∈ b.uint (micros t - s.lowPass.edge2).toNat :: ds,
      D.decode s.decoder d = (s.decoder, none) :=
    List.forall_mem_cons.2 ⟨hpause, fun d hd => hws d (List.mem_append_left _ hd)⟩
  have hmin : ∀ d ∈ ds ++ [last], 0 ≤ d ∧ d < 65536 := fun d hd => ⟨Nat.zero_le _, hlt d hd⟩
  rcases hfirst.run_passing (I := fun dec => dec = s.decoder) (m := 0)
    (fun dec hdec hactive => by rw [hdec, hidle] at hactive; cases hactive) hdecoder
    (fun dec d hd hdec => by rw [hdec, hall d hd]) hmin with ⟨-, -, hevents⟩
  rw [hevents, hdecoder, (Mealy.run_ignored hall).2]
  rfl

/-- A handler that is about to drop an edge measures from the edge before. -/
theorem exists_passing {t limit : ℕ} (henabled : s.enabled = true)
    (hidle : D.active s.decoder = false) (hzero : D.decode s.decoder 0 = (s.decoder, none))
    (hquiet : ∀ d ∈ s.untilPulse b t, d ≤ limit) :
    ∃ s' : Filtered δ, s'.enabled = true ∧ s'.decoder = s.decoder ∧ s'.lowPass.skip = false ∧
      b.uint (s'.lowPass.edge2 - s'.lowPass.edge0).toNat ≤ limit ∧
      b.uint (micros t - s'.lowPass.edge2).toNat ≤ limit ∧
      ∀ ts, Mealy.events (onEdge b D) s (t :: ts) = Mealy.events (onEdge b D) s' (t :: ts) := by
  unfold untilPulse at hquiet
  cases hskip : s.lowPass.skip with
  | false =>
      simp only [hskip, Bool.false_eq_true, if_false] at hquiet
      exact ⟨s, henabled, rfl, hskip, hquiet _ List.mem_cons_self,
        hquiet _ (List.mem_cons_of_mem _ List.mem_cons_self), fun _ => rfl⟩
  | true =>
      simp only [hskip, if_true] at hquiet
      refine ⟨s.passing, henabled, rfl, rfl, ?_, hquiet _ List.mem_cons_self,
        events_passing henabled hskip hidle hzero t⟩
      rw [passing, BitVec.sub_self]
      exact (Nat.mod_le 0 _).trans (Nat.zero_le _)

end Filtered

end LamPI
