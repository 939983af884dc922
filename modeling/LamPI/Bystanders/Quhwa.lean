import LamPI.Bystanders.Kaku
import LamPI.Bystanders.LowPass
import LamPI.Bystanders.Remote
import LamPI.Quhwa.RoundTrip

/-!
# Bystanders of Quhwa transmissions

A Quhwa frame begins with an edge at the very moment at which the frame before has ended.  The
low-pass filter drops that edge and the next one if the decoder is reading a frame.  Each frame has
one interval, of 6000 µs, that is long enough for a gap.
-/

namespace LamPI

open PulseLine Bystander

variable {b : Board} {t u x last : ℕ} {mid : List ℕ}

/-- The pulses of the bits of a frame, of which there are 35. -/
structure Quhwa.Payload (x : ℕ) (mid : List ℕ) (last : ℕ) : Prop where
  start : x = 350 ∨ x = 1050
  inner : ∀ d ∈ mid, d = 350 ∨ d = 1050
  stop : last = 350 ∨ last = 1050
  length : mid.length = 33

theorem Quhwa.exists_payload (remoteID keycode : ℕ) :
    ∃ x mid last, payloadWidths remoteID keycode = x :: (mid ++ [last]) ∧ Payload x mid last := by
  have hlen : (payloadWidths remoteID keycode).length = 35 := by simp [payloadWidths]
  have hmem : ∀ d ∈ payloadWidths remoteID keycode, d = 350 ∨ d = 1050 := fun d hd =>
    mem_payloadWidths hd
  generalize payloadWidths remoteID keycode = ws at hlen hmem
  rcases ws with _ | ⟨x, ws⟩
  · cases hlen
  · rcases List.eq_nil_or_concat ws with rfl | ⟨mid, last, rfl⟩
    · cases hlen
    · rw [List.concat_eq_append] at hlen hmem ⊢
      refine ⟨x, mid, last, rfl, hmem x List.mem_cons_self, fun d hd => hmem d (by simp [hd]),
        hmem last (by simp), ?_⟩
      simpa using hlen

/-! ## KlikAanKlikUit -/

namespace Kaku

variable {s : State}

/-- Between two frames the decoder may be reading one that a gap of 6000 µs has begun. -/
def Overheard (b : Board) (s : State) (t x : ℕ) : Prop :=
  s.Pending b t x ∧ s.decoder.Misled b 6000 6000 ∧ depth s.decoder ≤ 66

theorem Decoder.Misled.min1Period {s : Decoder} (h : s.Misled b 6000 6000) (hne : s.state ≠ -1) :
    s.min1Period = 45 := by
  rcases h.2 hne with ⟨q, hq, hq', ht⟩
  obtain rfl : q = 150 := by omega
  rw [ht.min1Period, b.uint_of_lt (by decide)]

/-- To a decoder that waits an edge hands the interval before, which is no gap. -/
theorem Overheard.pass (h : Overheard b s t u) (hidle : s.decoder.state = -1) (hu : u ≤ 4800) {d : ℕ}
    (hd : d < 65536) :
    Overheard b (interruptHandler b s (t + d)).1 (t + d) d ∧
      (interruptHandler b s (t + d)).1.decoder = s.decoder ∧
      (interruptHandler b s (t + d)).2 = none := by
  rcases h with ⟨hpending, hmisled, hdepth⟩
  rcases hpending.pass (D := pulseDecoder b) (d := d) (by omega)
    (fun hactive => absurd (of_decide_eq_true hactive) (by omega)) with ⟨hnext, hdecoder, hout⟩
  have hsame : decode b s.decoder u = (s.decoder, none) := decode_idle hidle hu
  have hdecoder' : (interruptHandler b s (t + d)).1.decoder = s.decoder :=
    hdecoder.trans (congrArg Prod.fst hsame)
  rw [b.uint_of_lt hd] at hnext
  exact ⟨⟨hnext, hdecoder' ▸ hmisled, hdecoder' ▸ hdepth⟩, hdecoder',
    hout.trans (congrArg Prod.snd hsame)⟩

/-- The first two edges of a frame behind another one. -/
theorem Overheard.run_start (h : Overheard b s t u) (hu : u ≤ 1050) :
    ∃ u' ≤ 1400, Overheard b (Mealy.final (interruptHandler b) s [t + 0, t + 0 + 350])
        (t + 0 + 350) u' ∧
      Mealy.events (interruptHandler b) s [t + 0, t + 0 + 350] = [] := by
  by_cases hidle : s.decoder.state = -1
  -- two edges more for a decoder that waits
  · rcases h.pass hidle (by omega) (d := 0) (by decide) with ⟨hzero, hdecoder, hquiet⟩
    rcases hzero.pass (by rw [hdecoder]; exact hidle) (Nat.zero_le _) (d := 350) (by decide) with
      ⟨hhigh, -, hquiet'⟩
    refine ⟨350, by decide, hhigh, ?_⟩
    rw [Mealy.events_cons, Mealy.events_cons, hquiet, hquiet']
    rfl
  -- a glitch for one that reads a frame
  · rcases h with ⟨hpending, hmisled, hdepth⟩
    have hactive : (pulseDecoder b).active s.decoder = true :=
      decide_eq_true (by have hlo := hmisled.1; omega)
    have hmin : 0 < s.decoder.min1Period := by
      rw [hmisled.min1Period hidle]
      decide
    rcases hpending.drop_two (D := pulseDecoder b) (a := 0) (c := 350) hactive hmin (by decide) with
      ⟨hnext, hdecoder, hquiet⟩
    rw [b.uint_of_lt (by omega)] at hnext
    exact ⟨u + 0 + 350, by omega, ⟨hnext, hdecoder ▸ hmisled, hdecoder ▸ hdepth⟩, hquiet⟩

/-- The rest of a frame passes the filter, and the decoder gives up within it. -/
theorem Overheard.run_rest (h : Overheard b s t u) (hu : u ≤ 4800)
    (hpayload : Quhwa.Payload x mid last) :
    Overheard b (Mealy.final (interruptHandler b) s (stamps t (6000 :: x :: (mid ++ [last]))))
        (t + (6000 :: x :: (mid ++ [last])).sum) last ∧
      Mealy.events (interruptHandler b) s (stamps t (6000 :: x :: (mid ++ [last]))) = [] := by
  rcases h with ⟨hpending, hmisled, hdepth⟩
  have hbits : ∀ d ∈ 6000 :: x :: mid, 350 ≤ d ∧ (d ≤ 1050 ∨ d = 6000) := by
    refine List.forall_mem_cons.2 ⟨by decide, List.forall_mem_cons.2 ⟨?_, fun d hd => ?_⟩⟩
    · have hx := hpayload.start
      omega
    · have hd' := hpayload.inner d hd
      omega
  have hheard : ∀ d ∈ u :: 6000 :: x :: mid, Heard 6000 6000 d := by
    refine List.forall_mem_cons.2 ⟨Or.inl hu, fun d hd => ?_⟩
    have hd' := (hbits d hd).2
    unfold Heard
    omega
  have hmin : ∀ d ∈ (6000 :: x :: mid) ++ [last], 350 ≤ d ∧ d < 65536 := by
    intro d hd
    rcases List.mem_append.1 hd with hd | hd
    · have hd' := hbits d hd
      omega
    · have hlast := hpayload.stop
      rw [List.mem_singleton.1 hd]
      omega
  rcases hpending.run_passing (D := pulseDecoder b) (I := Open 350) (m := 350)
    (fun dec hopen hactive => hopen (by
      have hnonneg : 0 ≤ dec.state := of_decide_eq_true hactive
      omega))
    (fun hne => by rw [hmisled.min1Period hne]; decide)
    (fun dec d hd hopen => open_decode (fun hgap => by
      rcases hheard d hd with hle | hle <;> omega) hopen)
    hmin with ⟨hnext, hdecoder, hevents⟩
  -- the block with the gap
  rcases (broken_decode b (by decide) (by decide) (by decide)).run_block (L := 66) (by decide)
    hmisled hdepth (w := u :: 6000 :: x :: mid) hheard
    ⟨6000, List.mem_cons_of_mem u List.mem_cons_self, le_rfl⟩ (by simp [hpayload.length]) with
    ⟨hfinal, hfinaldepth, hquiet⟩
  exact ⟨⟨hnext, hdecoder ▸ hfinal, hdecoder ▸ hfinaldepth⟩, hevents.trans hquiet⟩

/-- A frame behind another one. -/
theorem Overheard.run_frame (h : Overheard b s t u) (hu : u ≤ 1050)
    (hpayload : Quhwa.Payload x mid last) :
    Overheard b
        (Mealy.final (interruptHandler b) s (stamps t (0 :: 350 :: 6000 :: x :: (mid ++ [last]))))
        (t + (0 :: 350 :: 6000 :: x :: (mid ++ [last])).sum) last ∧
      Mealy.events (interruptHandler b) s
        (stamps t (0 :: 350 :: 6000 :: x :: (mid ++ [last]))) = [] := by
  rcases h.run_start hu with ⟨u', hu', hstart, hquiet⟩
  rcases hstart.run_rest (by omega) hpayload with ⟨hnext, hevents⟩
  have hsplit : stamps t (0 :: 350 :: 6000 :: x :: (mid ++ [last])) =
      [t + 0, t + 0 + 350] ++ stamps (t + 0 + 350) (6000 :: x :: (mid ++ [last])) := rfl
  rw [hsplit, Mealy.final_append, Mealy.events_append, hquiet, hevents, List.sum_cons, List.sum_cons,
    ← Nat.add_assoc, ← Nat.add_assoc]
  exact ⟨hnext, rfl⟩

/-- The first frame begins with an edge that ends the pause. -/
theorem Listening.run_frame (h : Listening b s t) (hpayload : Quhwa.Payload x mid last) :
    Overheard b
        (Mealy.final (interruptHandler b) s (stamps t (0 :: 350 :: 6000 :: x :: (mid ++ [last]))))
        (t + (0 :: 350 :: 6000 :: x :: (mid ++ [last])).sum) last ∧
      Mealy.events (interruptHandler b) s
        (stamps t (0 :: 350 :: 6000 :: x :: (mid ++ [last]))) = [] := by
  rcases Filtered.first_edge (D := pulseDecoder b) h.enabled h.skip
    (decide_eq_false (by rw [h.state]; decide)) (decode_idle h.state h.pending) (t + 0) with
    ⟨hpending, hdecoder, hquiet⟩
  have hstate : (interruptHandler b s (t + 0)).1.decoder.state = -1 := by
    rw [interruptHandler, hdecoder]
    exact h.state
  have hzero : Overheard b (interruptHandler b s (t + 0)).1 (t + 0)
      (b.uint (micros t - s.lowPass.edge2).toNat) :=
    ⟨hpending, ⟨hstate.ge, fun hne => absurd hstate hne⟩, by rw [depth, hstate]; decide⟩
  rcases hzero.pass hstate h.pause (d := 350) (by decide) with ⟨hhigh, -, hquiet'⟩
  rcases hhigh.run_rest (by decide) hpayload with ⟨hnext, hevents⟩
  have hout : (interruptHandler b s (t + 0)).2 = none := hquiet
  rw [stamps_cons, stamps_cons, Mealy.final_cons, Mealy.final_cons, Mealy.events_cons,
    Mealy.events_cons, hout, hquiet', hevents, List.sum_cons, List.sum_cons, ← Nat.add_assoc,
    ← Nat.add_assoc]
  exact ⟨hnext, rfl⟩

/-- A receiver that waits hears a whole transmission and completes nothing. -/
theorem Listening.silent_of_quhwa (h : Listening b s t) (remoteID keycode n : ℕ) :
    Mealy.events (interruptHandler b) s (stamps t (Quhwa.framesWidths remoteID keycode n)) = [] := by
  rcases Quhwa.exists_payload remoteID keycode with ⟨x, mid, last, hwidths, hpayload⟩
  have hlast : last ≤ 1050 := by
    have hlast := hpayload.stop
    omega
  rw [Quhwa.framesWidths, Quhwa.frameWidths, hwidths]
  exact events_stamps_copies (K := fun s t => Overheard b s t last)
    (fun s t h => h.run_frame hlast hpayload) n (h.run_frame hpayload)

end Kaku

/-! ## Remote -/

namespace Remote

variable {s : State}

def Overheard (b : Board) (s : State) (t x : ℕ) : Prop :=
  s.Pending b t x ∧ s.decoder.state = -1

theorem Overheard.pass (h : Overheard b s t u) (hu : u ≤ 3720) {d : ℕ} (hd : d < 65536) :
    Overheard b (interruptHandler b s (t + d)).1 (t + d) d ∧
      (interruptHandler b s (t + d)).2 = none := by
  rcases h with ⟨hpending, hidle⟩
  rcases hpending.pass (D := pulseDecoder b) (d := d) (by omega)
    (fun hactive => absurd (of_decide_eq_true hactive) (by omega)) with ⟨hnext, hdecoder, hout⟩
  have hsame : decode b s.decoder u = (s.decoder, none) := decode_idle hidle hu
  have hdecoder' : (interruptHandler b s (t + d)).1.decoder = s.decoder :=
    hdecoder.trans (congrArg Prod.fst hsame)
  rw [b.uint_of_lt hd] at hnext
  exact ⟨⟨hnext, by rw [hdecoder']; exact hidle⟩, hout.trans (congrArg Prod.snd hsame)⟩

/-- No bit of a frame is a part of a telegram with the period that the gap has set. -/
theorem not_band_of_bit {d : ℕ} (hd : d = 350 ∨ d = 1050) (p : Bool) : ¬Band b 193 (part p) d := by
  have hu : ∀ {n : ℕ}, n < 65536 → b.uint n = n := fun h => b.uint_of_lt h
  cases p <;> simp only [part, Band, Bool.false_eq_true, if_false, if_true]
  · rw [hu (by decide)]
    omega
  · rw [hu (by decide), hu (by decide), hu (by decide)]
    omega

/-- The gap begins a telegram, and the first bit ends it. -/
theorem run_gap {s : Decoder} (hs : s.state = -1) (hx : x = 350 ∨ x = 1050)
    (hmid : ∀ d ∈ mid, d = 350 ∨ d = 1050) (hu : u ≤ 3720) :
    (Mealy.final (decode b) s (u :: 6000 :: x :: mid)).state = -1 ∧
      Mealy.events (decode b) s (u :: 6000 :: x :: mid) = [] := by
  rcases decode_sync (b := b) (d := 6000) hs (by decide) with ⟨s', hsync, hreading, -⟩
  rw [b.uint_of_lt (by decide)] at hreading
  rcases decode_no_part hreading (by decide) (fun p => not_band_of_bit hx p) with
    ⟨s'', hbit, hidle, -⟩
  rcases run_idle (b := b) hidle (w := mid) (fun d hd => by
    have hd' := hmid d hd
    omega) with ⟨hsame, hquiet⟩
  rw [Mealy.final_cons, Mealy.events_cons, decode_idle hs hu, Mealy.final_cons, Mealy.events_cons,
    hsync, Mealy.final_cons, Mealy.events_cons, hbit, hsame, hquiet]
  exact ⟨hidle, rfl⟩

theorem Overheard.run_rest (h : Overheard b s t u) (hu : u ≤ 3720)
    (hpayload : Quhwa.Payload x mid last) :
    Overheard b (Mealy.final (interruptHandler b) s (stamps t (6000 :: x :: (mid ++ [last]))))
        (t + (6000 :: x :: (mid ++ [last])).sum) last ∧
      Mealy.events (interruptHandler b) s (stamps t (6000 :: x :: (mid ++ [last]))) = [] := by
  rcases h with ⟨hpending, hidle⟩
  have hbits : ∀ d ∈ 6000 :: x :: mid, 350 ≤ d ∧ (d ≤ 1050 ∨ d = 6000) := by
    refine List.forall_mem_cons.2 ⟨by decide, List.forall_mem_cons.2 ⟨?_, fun d hd => ?_⟩⟩
    · have hx := hpayload.start
      omega
    · have hd' := hpayload.inner d hd
      omega
  have hheard : ∀ d ∈ u :: 6000 :: x :: mid, d ≤ 3720 ∨ d = 6000 := by
    refine List.forall_mem_cons.2 ⟨Or.inl hu, fun d hd => ?_⟩
    have hd' := (hbits d hd).2
    omega
  have hmin : ∀ d ∈ (6000 :: x :: mid) ++ [last], 350 ≤ d ∧ d < 65536 := by
    intro d hd
    rcases List.mem_append.1 hd with hd | hd
    · have hd' := hbits d hd
      omega
    · have hlast := hpayload.stop
      rw [List.mem_singleton.1 hd]
      omega
  rcases hpending.run_passing (D := pulseDecoder b) (I := Open 350) (m := 350)
    (fun dec hopen hactive => hopen (by
      have hnonneg : 0 ≤ dec.state := of_decide_eq_true hactive
      omega))
    (fun hne => absurd hidle hne)
    (fun dec d hd hopen => open_decode_of (fun hgap => by
      rcases hheard d hd with hle | hle <;> omega) hopen)
    hmin with ⟨hnext, hdecoder, hevents⟩
  rcases run_gap (b := b) hidle hpayload.start hpayload.inner hu with ⟨hfinal, hquiet⟩
  exact ⟨⟨hnext, hdecoder ▸ hfinal⟩, hevents.trans hquiet⟩

theorem Overheard.run_frame (h : Overheard b s t u) (hu : u ≤ 3720)
    (hpayload : Quhwa.Payload x mid last) :
    Overheard b
        (Mealy.final (interruptHandler b) s (stamps t (0 :: 350 :: 6000 :: x :: (mid ++ [last]))))
        (t + (0 :: 350 :: 6000 :: x :: (mid ++ [last])).sum) last ∧
      Mealy.events (interruptHandler b) s
        (stamps t (0 :: 350 :: 6000 :: x :: (mid ++ [last]))) = [] := by
  rcases h.pass hu (d := 0) (by decide) with ⟨hzero, hout⟩
  rcases hzero.pass (Nat.zero_le _) (d := 350) (by decide) with ⟨hhigh, hout'⟩
  rcases hhigh.run_rest (by decide) hpayload with ⟨hnext, hevents⟩
  rw [stamps_cons, stamps_cons, Mealy.final_cons, Mealy.final_cons, Mealy.events_cons,
    Mealy.events_cons, hout, hout', hevents, List.sum_cons, List.sum_cons, ← Nat.add_assoc,
    ← Nat.add_assoc]
  exact ⟨hnext, rfl⟩

theorem Listening.run_frame (h : Listening b s t) (hpayload : Quhwa.Payload x mid last) :
    Overheard b
        (Mealy.final (interruptHandler b) s (stamps t (0 :: 350 :: 6000 :: x :: (mid ++ [last]))))
        (t + (0 :: 350 :: 6000 :: x :: (mid ++ [last])).sum) last ∧
      Mealy.events (interruptHandler b) s
        (stamps t (0 :: 350 :: 6000 :: x :: (mid ++ [last]))) = [] := by
  rcases Filtered.first_edge (D := pulseDecoder b) h.enabled h.skip
    (decide_eq_false (by rw [h.state]; decide)) (decode_idle h.state h.pending) (t + 0) with
    ⟨hpending, hdecoder, hquiet⟩
  have hzero : Overheard b (interruptHandler b s (t + 0)).1 (t + 0)
      (b.uint (micros t - s.lowPass.edge2).toNat) :=
    ⟨hpending, by rw [interruptHandler, hdecoder]; exact h.state⟩
  rcases hzero.pass h.pause (d := 350) (by decide) with ⟨hhigh, hout'⟩
  rcases hhigh.run_rest (by decide) hpayload with ⟨hnext, hevents⟩
  have hout : (interruptHandler b s (t + 0)).2 = none := hquiet
  rw [stamps_cons, stamps_cons, Mealy.final_cons, Mealy.final_cons, Mealy.events_cons,
    Mealy.events_cons, hout, hout', hevents, List.sum_cons, List.sum_cons, ← Nat.add_assoc,
    ← Nat.add_assoc]
  exact ⟨hnext, rfl⟩

/-- A receiver that waits hears a whole transmission and completes nothing. -/
theorem Listening.silent_of_quhwa (h : Listening b s t) (remoteID keycode n : ℕ) :
    Mealy.events (interruptHandler b) s (stamps t (Quhwa.framesWidths remoteID keycode n)) = [] := by
  rcases Quhwa.exists_payload remoteID keycode with ⟨x, mid, last, hwidths, hpayload⟩
  have hlast : last ≤ 3720 := by
    have hlast := hpayload.stop
    omega
  rw [Quhwa.framesWidths, Quhwa.frameWidths, hwidths]
  exact events_stamps_copies (K := fun s t => Overheard b s t last)
    (fun s t h => h.run_frame hlast hpayload) n (h.run_frame hpayload)

end Remote
end LamPI
