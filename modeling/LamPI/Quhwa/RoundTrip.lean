import LamPI.Quhwa.Transmitter
import LamPI.Quhwa.Receiver

/-!
# Quhwa round trip

Inside a frame the low part of a start pulse is too long for a bit, so that the receiver is back in
state -1 after the first frame, whatever its state was, and from state -1 it completes every frame.
-/

namespace LamPI
namespace Quhwa

open PulseLine BigEndian

variable {b : Board} {s : Decoder} {remoteID keycode : ℕ}

def sentCode (remoteID keycode : ℕ) : Code :=
  { period := 400, address := remoteID, unit := keycode, level := 1 }

theorem forall₂_bit_width (bs : List Bool) : List.Forall₂ Bit bs (bs.map width) := by
  induction bs with
  | nil => exact List.Forall₂.nil
  | cons b bs ih =>
      refine List.Forall₂.cons ?_ ih
      cases b
      · exact ⟨by decide, by decide, by decide⟩
      · exact ⟨by decide, by decide, by decide⟩

theorem frameCode_bits (hid : remoteID < 2 ^ 27) (hkey : keycode < 2 ^ 8) :
    frameCode 6000 (bits 27 remoteID ++ bits 8 keycode) = sentCode remoteID keycode := by
  have htake : (bits 27 remoteID ++ bits 8 keycode).take 27 = bits 27 remoteID :=
    List.take_left' (length_bits 27 remoteID)
  have hdrop : (bits 27 remoteID ++ bits 8 keycode).drop 27 = bits 8 keycode :=
    List.drop_left' (length_bits 27 remoteID)
  rw [frameCode, htake, hdrop, ofBits_bits_of_lt hid, ofBits_bits_of_lt hkey]
  rfl

/-! ## One frame -/

theorem start_low (b : Board) : Start b 6000 ∧ b.uint 6000 = 6000 := by
  have hu : b.uint 6000 = 6000 := b.uint_of_lt (by decide)
  rw [Start, hu]
  exact ⟨⟨by decide, by decide⟩, rfl⟩

/-- The low part of the start pulse and the bits. -/
theorem run_payload (hid : remoteID < 2 ^ 27) (hkey : keycode < 2 ^ 8) (hs : s.state = -1) :
    Finished s.filter (sentCode remoteID keycode)
        (Mealy.final (decode b) s (6000 :: payloadWidths remoteID keycode)) ∧
      Mealy.events (decode b) s (6000 :: payloadWidths remoteID keycode) =
        [(s.filter.count sameCode (sentCode remoteID keycode)).completion
          (sentCode remoteID keycode)] := by
  rcases start_low b with ⟨hstart, hu⟩
  have hlen : (bits 27 remoteID ++ bits 8 keycode).length = 35 := by simp
  have hrun := run_frame hs hstart hlen (forall₂_bit_width _)
  rwa [hu, frameCode_bits hid hkey] at hrun

theorem mem_payloadWidths {d : ℕ} (hd : d ∈ payloadWidths remoteID keycode) :
    d = 350 ∨ d = 1050 := by
  rcases List.mem_map.1 hd with ⟨bit, -, rfl⟩
  cases bit
  · exact Or.inl rfl
  · exact Or.inr rfl

/-- The high part of the start pulse, and the pulses of the bits, are too short to start a frame. -/
theorem decode_short (hs : s.state = -1) {d : ℕ} (hd : d ≤ 1050) : decode b s d = (s, none) := by
  have hu : b.uint d = d := b.uint_of_lt (by omega)
  refine decode_idle hs ?_
  rw [Start, hu]
  omega

theorem run_idle (hs : s.state = -1) {ds : List ℕ} (hds : ∀ d ∈ ds, d ≤ 1050) :
    Mealy.final (decode b) s ds = s ∧ Mealy.events (decode b) s ds = [] :=
  Mealy.run_ignored fun d hd => decode_short hs (hds d hd)

/-- In state -1 a frame is completed, whatever short interval comes before it. -/
theorem run_frameWidths (hid : remoteID < 2 ^ 27) (hkey : keycode < 2 ^ 8) (hs : s.state = -1)
    {d : ℕ} (hd : decode b s d = (s, none)) :
    Finished s.filter (sentCode remoteID keycode)
        (Mealy.final (decode b) s (d :: 350 :: 6000 :: payloadWidths remoteID keycode)) ∧
      Mealy.events (decode b) s (d :: 350 :: 6000 :: payloadWidths remoteID keycode) =
        [(s.filter.count sameCode (sentCode remoteID keycode)).completion
          (sentCode remoteID keycode)] := by
  have hhigh : decode b s 350 = (s, none) := decode_short hs (by decide)
  have hrun := run_payload (b := b) hid hkey hs
  rw [Mealy.final_cons, Mealy.final_cons, Mealy.events_cons, Mealy.events_cons, hd, hhigh]
  exact hrun

/-- After one frame the decoder waits for a start pulse, whatever its state was and whatever the
interval before the frame. -/
theorem run_first_frame (hid : remoteID < 2 ^ 27) (hkey : keycode < 2 ^ 8) (hs : -1 ≤ s.state)
    (gap : ℕ) :
    (Mealy.final (decode b) s (gap :: 350 :: 6000 :: payloadWidths remoteID keycode)).state =
      -1 := by
  rw [Mealy.final_cons, Mealy.final_cons]
  have hs' : -1 ≤ (decode b (decode b s gap).1 350).1.state :=
    decode_state_ge _ (decode_state_ge _ hs)
  generalize (decode b (decode b s gap).1 350).1 = s' at hs' ⊢
  by_cases hidle : s'.state = -1
  · exact (run_payload hid hkey hidle).1.1
  · -- the start pulse aborts the frame at hand and is lost
    have hreset : decode b s' 6000 = (s'.reset, none) :=
      if_pos ⟨by omega, Or.inr (by decide)⟩
    rw [Mealy.final_cons, hreset, (run_idle (s := s'.reset) rfl ?_).1]
    · rfl
    · intro d hd
      rcases mem_payloadWidths hd with rfl | rfl <;> decide

/-! ## The whole transmission -/

/-- From state -1 every frame is completed. -/
theorem run_framesWidths (hid : remoteID < 2 ^ 27) (hkey : keycode < 2 ^ 8) (n : ℕ)
    (hs : s.state = -1) :
    Mealy.events (decode b) s (framesWidths remoteID keycode n) =
      RepeatFilter.completions sameCode (sentCode remoteID keycode) n s.filter := by
  induction n generalizing s with
  | zero => rfl
  | succ n ih =>
      rcases run_frameWidths (b := b) hid hkey hs (decode_short hs (Nat.zero_le _)) with
        ⟨⟨hstate, hfilter⟩, hframe⟩
      have hsplit : framesWidths remoteID keycode (n + 1) =
          (0 :: 350 :: 6000 :: payloadWidths remoteID keycode) ++
            framesWidths remoteID keycode n := rfl
      rw [hsplit, Mealy.events_append, hframe, ih hstate, hfilter]
      rfl

theorem framesWidths_lt (n : ℕ) : ∀ d ∈ framesWidths remoteID keycode n, d < 2 ^ 32 := by
  intro d hd
  rcases List.mem_flatten.1 hd with ⟨ds, hds, hd⟩
  rw [List.eq_of_mem_replicate hds, frameWidths, List.mem_cons, List.mem_cons,
    List.mem_cons] at hd
  rcases hd with rfl | rfl | rfl | hd
  · decide
  · decide
  · decide
  · rcases mem_payloadWidths hd with rfl | rfl <;> decide

/-- The intervals that a receiver measures during `sendButton`: only the first one depends on
what came before. -/
theorem measured_sendButton (remoteID keycode : ℕ) (e : ULong) (t : ℕ) :
    measured e (edges ⟨LOW, t⟩ (sendButton remoteID keycode)) =
      ((micros t - e).toNat :: 350 :: 6000 :: payloadWidths remoteID keycode) ++
        framesWidths remoteID keycode 25 := by
  have hsplit : framesWidths remoteID keycode 26 =
      0 :: (350 :: 6000 :: payloadWidths remoteID keycode ++ framesWidths remoteID keycode 25) :=
    rfl
  rw [edges_sendButton, hsplit, measured_stamps_cons]
  · rfl
  · intro d hd
    exact framesWidths_lt 26 d (by rw [hsplit]; exact List.mem_cons_of_mem 0 hd)

/-- Whatever state the receiver is in, it completes at least 25 of the 26 frames, and all of them
from state -1 unless the pause before the first edge looks like a start pulse; after 3 repeats the
callback has been called with the code that was sent. -/
theorem sendButton_calledBack (b : Board) (t : ℕ) (hid : remoteID < 2 ^ 27)
    (hkey : keycode < 2 ^ 8) (s : State) (henabled : s.enabled = true)
    (hstate : -1 ≤ s.decoder.state) (hrepeats : s.decoder.filter.minRepeats = 3)
    (hcallback : s.decoder.filter.inCallback = false) :
    let es := Mealy.events (interruptHandler b) s (edges ⟨LOW, t⟩ (sendButton remoteID keycode))
    let pause := (micros t - s.edge2).toNat % 65536
    25 ≤ (codes es).count (sentCode remoteID keycode) ∧
      (s.decoder.state = -1 → ¬(2000 < pause ∧ pause < 7000) →
        codes es = List.replicate 26 (sentCode remoteID keycode)) ∧
      sentCode remoteID keycode ∈ callbacks es := by
  intro es pause
  have hes : es = Mealy.events (decode b) s.decoder
      (((micros t - s.edge2).toNat :: 350 :: 6000 :: payloadWidths remoteID keycode) ++
        framesWidths remoteID keycode 25) := by
    rw [← measured_sendButton]
    exact Sampled.events_eq henabled _
  -- `s₁` is the decoder after the first frame
  obtain ⟨s₁, hs₁⟩ : ∃ s₁, s₁ = Mealy.final (decode b) s.decoder
    ((micros t - s.edge2).toNat :: 350 :: 6000 :: payloadWidths remoteID keycode) := ⟨_, rfl⟩
  have hstate₁ : s₁.state = -1 := hs₁ ▸ run_first_frame hid hkey hstate _
  have hfilter₁ : s₁.filter.minRepeats = 3 ∧ s₁.filter.inCallback = false := by
    rcases (counts_decode b).final_filter s.decoder
      ((micros t - s.edge2).toNat :: 350 :: 6000 :: payloadWidths remoteID keycode) with
      ⟨hmin, hflag⟩
    rw [hs₁, hmin, hflag]
    exact ⟨hrepeats, hcallback⟩
  have htail := run_framesWidths (b := b) hid hkey 25 hstate₁
  rw [Mealy.events_append, ← hs₁, htail] at hes
  refine ⟨?_, ?_, ?_⟩
  · rw [hes, codes_append, RepeatFilter.codes_completions, List.count_append,
      List.count_replicate_self]
    exact Nat.le_add_left _ _
  · intro hidle hpause
    have hfirst : decode b s.decoder (micros t - s.edge2).toNat = (s.decoder, none) := by
      have hmod := b.uint_mod (micros t - s.edge2).toNat
      refine decode_idle hidle ?_
      rw [Start]
      omega
    rw [hes, codes_append, RepeatFilter.codes_completions,
      (run_frameWidths hid hkey hidle hfirst).2]
    rfl
  · rw [hes, callbacks_append, List.mem_append]
    -- the last 25 frames reach `_minRepeats` whatever the counters were
    refine Or.inr (mem_callbacks.2 (RepeatFilter.mem_completions hfilter₁.2 ?_ ?_ ?_))
    · rw [hfilter₁.1]; decide
    · simp [sameCode]
    · rw [hfilter₁.1]; decide

/-- A fresh receiver on an ESP8266 that last saw an edge 10 ms before the first frame. -/
theorem sendButton_calledBack_example :
    let es := Mealy.events (interruptHandler .esp8266) (init 3 0)
      (edges ⟨LOW, 10000⟩ (sendButton 118430720 86))
    let pause := (micros 10000 - (init 3 0).edge2).toNat % 65536
    25 ≤ (codes es).count (sentCode 118430720 86) ∧
      ((init 3 0).decoder.state = -1 → ¬(2000 < pause ∧ pause < 7000) →
        codes es = List.replicate 26 (sentCode 118430720 86)) ∧
      sentCode 118430720 86 ∈ callbacks es :=
  sendButton_calledBack .esp8266 10000 (by decide) (by decide) (init 3 0) rfl (by decide) rfl rfl

end Quhwa
end LamPI
