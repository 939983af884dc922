import LamPI.Wt440.Alignment

/-!
# The parity of a WT440 reading

Six of the seven branches that accumulate `par` add the bit they have read.  The one of the constant
adds a 1 for each of its three bits, so that `par` is the exclusive or of the frame only if the
constant has an odd number of ones.
-/

namespace LamPI
namespace Wt440

open PulseLine BigEndian

variable {s : Decoder} {x : Message} {m : TxCode} {w : List ℕ}

def Decoder.leftPar (s : Decoder) : Bool := if s.state = -1 then false else s.receivedCode.par

theorem afterLeader_par (s : Decoder) : s.afterLeader.par = s.leftPar := by
  unfold Decoder.afterLeader Decoder.leftPar
  split
  · rfl
  · rw [leaderStores_eq]

/-- What the bits add to `par` is their exclusive or, but for the constant. -/
theorem par_eq (x : Message) :
    x.par = (parity x.frame ^^ !parity (BigEndian.bits 3 x.wconst)) := by
  simp only [Message.par, Message.frame, Message.bits, parity_append, parity_cons, parity_nil]
  generalize parity (BigEndian.bits 3 (x.wconst : ℕ)) = p
  cases p <;> simp

/-- A frame as it is sent is completed, by a decoder that waits or goes on in state 0. -/
theorem codes_sent (hs : s.Running) (hstart : Start s.state) (hw : x.IsSentAs w) :
    codes (Mealy.events decode s w) = [s.afterLeader.shift x] := by
  rcases hw with ⟨h₁, h₂, h₃, h₄, h₅, h₆, hws⟩
  exact code_of_words hs hstart (fun _ => h₁) h₁.short h₂ h₃ h₄ h₅.sync h₆.sync hws

theorem par_sent_iff :
    (s.afterLeader.shift x).par = parity x.frame ↔
      parity (BigEndian.bits 3 x.wconst) = !s.leftPar := by
  simp only [Code.shift, afterLeader_par, par_eq x]
  generalize parity (BigEndian.bits 3 (x.wconst : ℕ)) = p
  cases p <;> cases s.leftPar <;> cases parity x.frame <;> decide

/-- A frame of `sendMsg` has even parity, and its reading that of the complement of the constant. -/
theorem sentCode_par (m : TxCode) :
    (sentCode m).par = false ↔ parity (BigEndian.bits 3 m.wcode) = true := by
  simp only [sentCode, frameCode, payloadBits, parity_append]
  generalize parity (BigEndian.bits 3 m.wcode) = p
  generalize parity (BigEndian.bits 4 m.address) = a
  generalize parity (BigEndian.bits 2 m.channel) = c
  generalize parity (BigEndian.bits 7 m.humi) = h
  generalize parity (BigEndian.bits 15 m.temp) = t
  revert p a c h t
  decide

/-- Every code that a fresh receiver completes on a transmission, from any edge on, is the one
sent. -/
theorem codes_sendMsg (m : TxCode) (minRepeats : ℕ) (edge2 : ULong) (t k : ℕ) :
    ∀ c ∈ codes (Mealy.events interruptHandler (init minRepeats edge2)
      ((edges ⟨LOW, t⟩ (sendMsg m)).drop k)), c = sentCode m := by
  intro c hc
  rw [interruptHandler, Sampled.events_eq (s := init minRepeats edge2) rfl] at hc
  rcases measured_drop (m := m) edge2 t k with h | ⟨d, h⟩
  · simp only [init] at hc
    rw [h] at hc
    cases hc
  · simp only [init] at hc
    rw [h] at hc
    exact codes_join rfl rfl d k c hc

/-- The parity of a reading is that of its frame exactly if the constant has an odd number of ones,
or an even one where the last frame has left a 1; and for a frame of `sendMsg` it is 0 exactly if
the constant has an odd number of ones. -/
theorem par_iff (hs : s.Running) (hstart : Start s.state) (hw : x.IsSentAs w) :
    (∃ c, codes (Mealy.events decode s w) = [c] ∧
      (c.par = parity x.frame ↔ parity (BigEndian.bits 3 x.wconst) = !s.leftPar)) ∧
    ∀ (m : TxCode) (minRepeats : ℕ) (edge2 : ULong) (t k : ℕ),
      ∀ c ∈ codes (Mealy.events interruptHandler (init minRepeats edge2)
        ((edges ⟨LOW, t⟩ (sendMsg m)).drop k)),
        (c.par = false ↔ parity (BigEndian.bits 3 m.wcode) = true) := by
  refine ⟨⟨_, codes_sent hs hstart hw, par_sent_iff⟩, ?_⟩
  intro m minRepeats edge2 t k c hc
  rw [codes_sendMsg m minRepeats edge2 t k c hc]
  exact sentCode_par m

def Message.pulses (x : Message) : List ℕ :=
  [PULSE1, PULSE1, PULSE1, PULSE1, PULSE0, PULSE0] ++ (x.bits.map Wt440.widths).flatten

theorem isSentAs_pulses (x : Message) : x.IsSentAs x.pulses :=
  Message.IsSentAs.intro first_PULSE1 short_PULSE1 short_PULSE1 short_PULSE1 long_PULSE0
    long_PULSE0 (forall₂_word_widths x.bits)

/-- A frame with the constant 4. -/
theorem par_iff_four :
    (∃ c, codes (Mealy.events decode (init 1 0).decoder (Message.pulses ⟨5, 1, 4, 50, 9000, true⟩))
        = [c] ∧
      (c.par = parity (Message.frame ⟨5, 1, 4, 50, 9000, true⟩) ↔
        parity (BigEndian.bits 3 4) = true)) ∧
    ∀ (m : TxCode) (minRepeats : ℕ) (edge2 : ULong) (t k : ℕ),
      ∀ c ∈ codes (Mealy.events interruptHandler (init minRepeats edge2)
        ((edges ⟨LOW, t⟩ (sendMsg m)).drop k)),
        (c.par = false ↔ parity (BigEndian.bits 3 m.wcode) = true) :=
  par_iff (init_running 1 0) (Or.inl rfl) (isSentAs_pulses ⟨5, 1, 4, 50, 9000, true⟩)

/-- With the constant 6 of a sensor reading both fail. -/
theorem not_par_six :
    (¬∀ (s : Decoder) (x : Message) (w : List ℕ), s.Running → Start s.state → x.IsSentAs w →
      ∃ c, codes (Mealy.events decode s w) = [c] ∧ c.par = parity x.frame) ∧
    ¬∀ (m : TxCode) (minRepeats : ℕ) (edge2 : ULong) (t k : ℕ),
      ∀ c ∈ codes (Mealy.events interruptHandler (init minRepeats edge2)
        ((edges ⟨LOW, t⟩ (sendMsg m)).drop k)), c.par = false := by
  constructor
  · intro h
    rcases h (init 1 0).decoder ⟨5, 1, 6, 50, 9000, true⟩ _ (init_running 1 0) (Or.inl rfl)
      (isSentAs_pulses _) with ⟨c, hc, hpar⟩
    rw [codes_sent (init_running 1 0) (Or.inl rfl) (isSentAs_pulses _)] at hc
    rw [← List.singleton_injective hc, par_sent_iff] at hpar
    exact absurd hpar (by decide)
  · intro h
    have hcalled := callbacks_sendMsg_ne_nil ⟨5, 1, 50, 6, 9000⟩ (e := 0) (t := 0)
      (fun hfirst => absurd hfirst.1 (by decide))
    rcases List.exists_mem_of_ne_nil _ hcalled with ⟨c, hc⟩
    have hmem := callbacks_subset_codes hc
    have hpar := h ⟨5, 1, 50, 6, 9000⟩ 1 0 0 0 c hmem
    rw [codes_sendMsg ⟨5, 1, 50, 6, 9000⟩ 1 0 0 0 c hmem, sentCode_par] at hpar
    exact absurd hpar (by decide)

end Wt440
end LamPI
