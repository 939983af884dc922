import LamPI.Livolo.Transmitter
import LamPI.Livolo.Receiver

/-!
# Livolo round trip

The receiver, in whatever state the transmission finds it, is back in state -1 after the first
frame at the latest, and from state -1 it completes every frame.
-/

namespace LamPI
namespace Livolo

open PulseLine BigEndian

variable {b : Board} {s : Decoder} {remoteID keycode : ℕ}

def sentCode (remoteID keycode : ℕ) : Code :=
  { address := remoteID, unit := keycode, level := 1 }

theorem word_widths (bit : Bool) : Word bit (widths bit) := by
  cases bit
  · exact Word.zero (by decide) (by decide) (by decide) (by decide)
  · exact Word.one (by decide) (by decide)

theorem forall₂_word_widths (bs : List Bool) : List.Forall₂ Word bs (bs.map widths) := by
  induction bs with
  | nil => exact List.Forall₂.nil
  | cons b bs ih => exact List.Forall₂.cons (word_widths b) ih

theorem frameCode_bits (hid : remoteID < 2 ^ 16) (hkey : keycode < 2 ^ 7) :
    frameCode (bits 16 remoteID ++ bits 7 keycode) = sentCode remoteID keycode := by
  have htake : (bits 16 remoteID ++ bits 7 keycode).take 16 = bits 16 remoteID :=
    List.take_left' (length_bits 16 remoteID)
  have hdrop : (bits 16 remoteID ++ bits 7 keycode).drop 16 = bits 7 keycode :=
    List.drop_left' (length_bits 16 remoteID)
  rw [frameCode, htake, hdrop, ofBits_bits_of_lt hid, ofBits_bits_of_lt hkey, sentCode]

/-! ## One frame -/

theorem run_frameWidths (hid : remoteID < 2 ^ 16) (hkey : keycode < 2 ^ 7)
    (hs : s.state = -1) :
    Finished s.filter (sentCode remoteID keycode)
        (Mealy.final (decode b) s (frameWidths remoteID keycode)) ∧
      Mealy.events (decode b) s (frameWidths remoteID keycode) =
        [(s.filter.count sameCode (sentCode remoteID keycode)).completion
          (sentCode remoteID keycode)] := by
  have hu : b.uint 500 = 500 := b.uint_of_lt (by decide)
  rw [← frameCode_bits hid hkey, frameWidths, payloadWidths, List.flatMap_def]
  exact run_frame hs (by omega) (by omega) (by simp) (forall₂_word_widths _)

theorem mem_payloadWidths {d : ℕ} (hd : d ∈ payloadWidths remoteID keycode) :
    d = 100 ∨ d = 300 := by
  rcases List.mem_flatMap.1 hd with ⟨bit, -, hmem⟩
  cases bit <;> simp [widths] at hmem <;> omega

/-- No pulse of a payload is mistaken for a start pulse. -/
theorem run_payload_idle (hs : s.state = -1) :
    Mealy.final (decode b) s (payloadWidths remoteID keycode) = s ∧
      Mealy.events (decode b) s (payloadWidths remoteID keycode) = [] := by
  refine Mealy.run_ignored fun d hd => decode_idle hs ?_
  have hd' := mem_payloadWidths hd
  rw [b.uint_of_lt (by omega)]
  omega

/-- After one frame the decoder waits for a start pulse, whatever its state was. -/
theorem run_first_frame (hid : remoteID < 2 ^ 16) (hkey : keycode < 2 ^ 7)
    (hs : -1 ≤ s.state) :
    (Mealy.final (decode b) s (frameWidths remoteID keycode)).state = -1 := by
  by_cases hidle : s.state = -1
  · exact (run_frameWidths hid hkey hidle).1.1
  · -- inside a frame a start pulse is too long for a bit
    have hreset : decode b s 500 = (s.reset, none) :=
      if_pos ⟨by omega, Or.inr (by decide)⟩
    rw [frameWidths, Mealy.final_cons, hreset, (run_payload_idle rfl).1]
    rfl

/-! ## The whole transmission -/

theorem decode_startEdge (hs : s.state = -1) (l : Bool) :
    Mealy.final (decode b) s (startEdge l) = s ∧ Mealy.events (decode b) s (startEdge l) = [] := by
  have hu : b.uint 0 = 0 := b.uint_of_lt (by decide)
  cases l with
  | true => exact ⟨rfl, rfl⟩
  | false =>
      have hidle : decode b s 0 = (s, none) := decode_idle hs (by omega)
      simp [startEdge, hidle]

/-- From state -1 every frame is completed. -/
theorem run_framesWidths (hid : remoteID < 2 ^ 16) (hkey : keycode < 2 ^ 7) (n : ℕ)
    (hs : s.state = -1) (l : Bool) :
    (Mealy.final (decode b) s (framesWidths remoteID keycode n l)).state = -1 ∧
      Mealy.events (decode b) s (framesWidths remoteID keycode n l) =
        RepeatFilter.completions sameCode (sentCode remoteID keycode) n s.filter := by
  induction n generalizing s l with
  | zero => exact ⟨hs, rfl⟩
  | succ n ih =>
      rcases decode_startEdge (b := b) hs l with ⟨hedge, hedge'⟩
      rcases run_frameWidths (b := b) hid hkey hs with ⟨⟨hstate, hfilter⟩, hframe⟩
      rcases ih hstate (endLevel remoteID keycode) with ⟨ihstate, ihevents⟩
      rw [framesWidths, Mealy.final_append, Mealy.events_append, Mealy.final_append,
        Mealy.events_append, hedge, hedge', hframe, ihevents, hfilter]
      exact ⟨ihstate, rfl⟩

theorem framesWidths_lt (n : ℕ) (l : Bool) :
    ∀ d ∈ framesWidths remoteID keycode n l, d < 2 ^ 32 := by
  induction n generalizing l with
  | zero => simp [framesWidths]
  | succ n ih =>
      intro d hd
      rw [framesWidths, frameWidths, List.mem_append, List.mem_append, List.mem_cons] at hd
      -- an edge without a pulse, the start pulse, a bit, or a later frame
      rcases hd with (hd | rfl | hd) | hd
      · cases l <;> simp [startEdge] at hd
        omega
      · decide
      · have := mem_payloadWidths hd
        omega
      · exact ih _ d hd

/-- The intervals that a receiver measures during `sendButton`: only the first one depends on
what came before. -/
theorem measured_sendButton (remoteID keycode : ℕ) (e : ULong) (t : ℕ) :
    ∃ last, (last = [] ∨ last = [0]) ∧
      measured e (edges ⟨LOW, t⟩ (sendButton remoteID keycode)) =
        (micros t - e).toNat :: (frameWidths remoteID keycode ++
          (framesWidths remoteID keycode 180 (endLevel remoteID keycode) ++ last)) := by
  rcases edges_sendButton remoteID keycode t with ⟨last, hlast, hedges⟩
  -- the first of the 181 frames starts with an edge of its own
  have hwidths : framesWidths remoteID keycode 181 LOW ++ last =
      0 :: (frameWidths remoteID keycode ++
        (framesWidths remoteID keycode 180 (endLevel remoteID keycode) ++ last)) := by
    rw [framesWidths, List.append_assoc]
    rfl
  refine ⟨last, hlast, ?_⟩
  rw [hedges, hwidths, measured_stamps_cons]
  · rfl
  · intro d hd
    have hd' : d ∈ framesWidths remoteID keycode 181 LOW ++ last := by
      rw [hwidths]
      exact List.mem_cons_of_mem 0 hd
    rcases List.mem_append.1 hd' with hd' | hd'
    · exact framesWidths_lt _ _ d hd'
    · rcases hlast with rfl | rfl <;> simp at hd'
      omega

/-- Whatever state the receiver is in, it completes at least 180 of the 181 frames, and all of
them from state -1 unless the pause before the first edge looks like a start pulse; after 3
repeats the callback has been called with the code that was sent. -/
theorem sendButton_received (b : Board) (t : ℕ) (hid : remoteID < 2 ^ 16)
    (hkey : keycode < 2 ^ 7) (s : State) (henabled : s.enabled = true)
    (hstate : -1 ≤ s.decoder.state) (hrepeats : s.decoder.filter.minRepeats = 3)
    (hcallback : s.decoder.filter.inCallback = false) :
    let es := Mealy.events (interruptHandler b) s (edges ⟨LOW, t⟩ (sendButton remoteID keycode))
    let pause := (micros t - s.edge2).toNat % 65536
    180 ≤ (codes es).count (sentCode remoteID keycode) ∧
      (s.decoder.state = -1 → ¬(441 ≤ pause ∧ pause ≤ 599) →
        codes es = List.replicate 181 (sentCode remoteID keycode)) ∧
      sentCode remoteID keycode ∈ callbacks es := by
  intro es pause
  rcases measured_sendButton remoteID keycode s.edge2 t with ⟨last, hlast, hmeasured⟩
  have hes : es = Mealy.events (decode b) s.decoder ((micros t - s.edge2).toNat ::
      (frameWidths remoteID keycode ++
        (framesWidths remoteID keycode 180 (endLevel remoteID keycode) ++ last))) := by
    rw [← hmeasured]
    exact Sampled.events_eq henabled _
  -- `s₁` is the decoder at the first edge, `s₂` after the first frame
  obtain ⟨s₁, hs₁⟩ : ∃ s₁, s₁ = (decode b s.decoder (micros t - s.edge2).toNat).1 := ⟨_, rfl⟩
  obtain ⟨s₂, hs₂⟩ : ∃ s₂, s₂ = Mealy.final (decode b) s₁ (frameWidths remoteID keycode) := ⟨_, rfl⟩
  have hstate₁ : -1 ≤ s₁.state := hs₁ ▸ decode_state_ge _ hstate
  have hstate₂ : s₂.state = -1 := hs₂ ▸ run_first_frame hid hkey hstate₁
  have hfilter₂ : s₂.filter.minRepeats = 3 ∧ s₂.filter.inCallback = false := by
    have hfinal : s₂ = Mealy.final (decode b) s.decoder
        ((micros t - s.edge2).toNat :: frameWidths remoteID keycode) := by
      rw [hs₂, hs₁]
      rfl
    rcases (counts_decode b).final_filter s.decoder
      ((micros t - s.edge2).toNat :: frameWidths remoteID keycode) with ⟨hmin, hflag⟩
    rw [hfinal, hmin, hflag]
    exact ⟨hrepeats, hcallback⟩
  rcases run_framesWidths (b := b) hid hkey 180 hstate₂ (endLevel remoteID keycode) with
    ⟨hstate₃, hevents₃⟩
  have htail : Mealy.events (decode b)
      (Mealy.final (decode b) s₂
        (framesWidths remoteID keycode 180 (endLevel remoteID keycode))) last = [] := by
    rcases hlast with rfl | rfl
    · rfl
    · exact (decode_startEdge hstate₃ false).2
  rw [Mealy.events_cons, Mealy.events_append, Mealy.events_append, ← hs₁, ← hs₂, hevents₃, htail,
    List.append_nil] at hes
  refine ⟨?_, ?_, ?_⟩
  · rw [hes, codes_append, codes_append, RepeatFilter.codes_completions, List.count_append,
      List.count_append, List.count_replicate_self]
    omega
  · intro hidle hpause
    have hfirst : decode b s.decoder (micros t - s.edge2).toNat = (s.decoder, none) := by
      have hmod := b.uint_mod (micros t - s.edge2).toNat
      exact decode_idle hidle (by omega)
    rw [hfirst] at hs₁
    subst hs₁
    rw [hes, hfirst, codes_append, codes_append, RepeatFilter.codes_completions,
      (run_frameWidths hid hkey hidle).2]
    rfl
  · rw [hes, callbacks_append, callbacks_append, List.mem_append, List.mem_append]
    -- the last 180 frames reach `_minRepeats` whatever the counters were
    refine Or.inr (Or.inr (mem_callbacks.2 ?_))
    refine RepeatFilter.mem_completions hfilter₂.2 ?_ ?_ ?_
    · rw [hfilter₂.1]; decide
    · simp [sameCode]
    · rw [hfilter₂.1]; decide

/-- A fresh receiver on an AVR board that last saw an edge 10 ms before the first frame. -/
theorem sendButton_received_example :
    let es := Mealy.events (interruptHandler .avr) (init 3 0)
      (edges ⟨LOW, 10000⟩ (sendButton 6400 120))
    let pause := (micros 10000 - (init 3 0).edge2).toNat % 65536
    180 ≤ (codes es).count (sentCode 6400 120) ∧
      ((init 3 0).decoder.state = -1 → ¬(441 ≤ pause ∧ pause ≤ 599) →
        codes es = List.replicate 181 (sentCode 6400 120)) ∧
      sentCode 6400 120 ∈ callbacks es :=
  sendButton_received .avr 10000 (by decide) (by decide) (init 3 0) rfl (by decide) rfl rfl

end Livolo
end LamPI
