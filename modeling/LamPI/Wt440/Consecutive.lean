import LamPI.Wt440.RoundTrip
import LamPI.Repeats
import Mathlib.Data.List.Forall2

/-!
# Consecutive WT440 frames

A frame that the decoder takes up in state -1 starts from an empty code.  After a frame that has not
been repeated often enough the decoder goes on in state 0, and the next frame is shifted into what
the last one left.
-/

namespace LamPI
namespace Wt440

open PulseLine BigEndian

/-! ## Frames as they are sent -/

structure Message where
  address : Fin 16
  channel : Fin 4
  wconst : Fin 8
  humidity : Fin 128
  temperature : Fin 32768
  parityBit : Bool
  deriving DecidableEq, Repr

namespace Message

def bits (x : Message) : List Bool :=
  BigEndian.bits 4 x.address ++ (BigEndian.bits 2 x.channel ++ (BigEndian.bits 3 x.wconst ++
    (BigEndian.bits 7 x.humidity ++ (BigEndian.bits 15 x.temperature ++ [x.parityBit]))))

/-- What the bits add to `par`: each bit of the constant counts as 1. -/
def par (x : Message) : Bool :=
  parity (BigEndian.bits 4 x.address) ^^ parity (BigEndian.bits 2 x.channel) ^^ true ^^
    parity (BigEndian.bits 7 x.humidity) ^^ parity (BigEndian.bits 15 x.temperature) ^^ x.parityBit

/-- The code of the frame if `sync` ends up as given. -/
def code (x : Message) (sync : ℕ) : Code :=
  { sync := sync, address := x.address, channel := x.channel, wconst := x.wconst,
    temperature := (x.temperature : ℕ), humidity := x.humidity, par := x.par }

/-- The intervals `w` are a leader `1100` and the code words of the frame's bits. -/
inductive IsSentAs (x : Message) : List ℕ → Prop
  | intro {d₁ d₂ d₃ d₄ d₅ d₆ : ℕ} {ws : List (List ℕ)} (h₁ : First d₁) (h₂ : Short d₂)
      (h₃ : Short d₃) (h₄ : Short d₄) (h₅ : Long d₅) (h₆ : Long d₆)
      (hws : List.Forall₂ Word x.bits ws) : IsSentAs x ([d₁, d₂, d₃, d₄, d₅, d₆] ++ ws.flatten)

@[simp] theorem length_bits (x : Message) : x.bits.length = 32 := by
  simp [bits]

end Message

/-! ## The code of a frame that is shifted into another code -/

/-- What the bits of a frame make of the code that the leader has left. -/
def Code.shift (c : Code) (x : Message) : Code :=
  { sync := c.sync
    address := (c.address * 16 + x.address) % 256
    channel := (c.channel * 4 + x.channel) % 256
    wconst := (c.wconst * 8 + x.wconst) % 256
    temperature := Int.bmod (c.temperature * 32768 + (x.temperature : ℕ)) 65536
    humidity := (c.humidity * 128 + x.humidity) % 256
    par := c.par ^^ x.par }

theorem foldlIdx_bits (x : Message) (c : Code) : x.bits.foldlIdx pushBit c 4 = c.shift x := by
  have hbits : ∀ n v, v < 2 ^ n → ofBits (BigEndian.bits n v) = v := fun n v h =>
    ofBits_bits_of_lt h
  have hne : ∀ n v, BigEndian.bits (n + 1) v ≠ [] := fun n v h => by cases h
  rw [Message.bits, foldlIdx_fields (length_bits _ _) (length_bits _ _) (length_bits _ _)
      (length_bits _ _) (length_bits _ _), foldl_storeAddress, foldl_storeChannel,
    foldl_storeWconst, foldl_storeHumidity, foldl_storeTemperature]
  simp only [foldl_bits_register (hne _ _), foldl_bmod_register (hne _ _), length_bits,
    hbits 4 _ x.address.2, hbits 2 _ x.channel.2, hbits 3 _ x.wconst.2, hbits 7 _ x.humidity.2,
    hbits 15 _ x.temperature.2, List.map_id, List.map_const', foldl_xor]
  simp [storePar, Code.shift, Message.par]

/-- An empty code becomes that of the frame. -/
theorem shift_leaderCode (x : Message) : leaderCode.shift x = x.code 64 := by
  have htemperature : Int.bmod ((x.temperature : ℕ) : ℤ) 65536 = (x.temperature : ℕ) :=
    Int.bmod_eq_of_le (by omega) (by omega)
  simp only [Code.shift, leaderCode, emptyCode, Message.code, zero_mul, zero_add, htemperature,
    Bool.false_xor]
  rw [Nat.mod_eq_of_lt (by omega), Nat.mod_eq_of_lt (by omega), Nat.mod_eq_of_lt (by omega),
    Nat.mod_eq_of_lt (by omega)]

/-! ## One frame -/

variable {f : RepeatFilter Code} {c : Code} {s : Decoder} {x : Message} {w : List ℕ}

theorem First.short {d : ℕ} (h : First d) : Short d := by
  have hle : d % 65536 ≤ d := Nat.mod_le _ _
  exact ⟨h.1.le.trans hle, h.2.le⟩

/-- The marker is shifted out of the byte `sync` again. -/
theorem leaderStores_again (hsync : c.sync = 64 ∨ c.sync = 0) :
    leaderStores c = { c with sync := 0 } := by
  rcases hsync with h | h <;> simp [leaderStores, storeSync, storeStart, h]

/-- A decoder between two frames: it waits in state -1, or goes on in state 0 with what the last
frame has left. -/
inductive Between (f : RepeatFilter Code) : Option Code → Decoder → Prop
  | waiting {s : Decoder} (hs : s.state = -1) (hskip : s.skip = false) (hf : s.filter = f) :
      Between f none s
  | going {s : Decoder} (hs : s.state = 0) (hskip : s.skip = false) (hf : s.filter = f)
      (hsync : s.receivedCode.sync = 64 ∨ s.receivedCode.sync = 0) :
      Between f (some s.receivedCode) s

theorem Between.running {left : Option Code} (h : Between f left s) :
    s.Running ∧ s.filter = f := by
  cases h with
  | waiting hs hskip hf => exact ⟨⟨hskip, hs.ge, by omega⟩, hf⟩
  | going hs hskip hf => exact ⟨⟨hskip, by omega, by omega⟩, hf⟩

def completes (left : Option Code) (x : Message) : Code :=
  match left with
  | none => x.code 64
  | some c => { c with sync := 0 }.shift x

/-- What a frame with the code `c` leaves to the next one, the counters being `f` after it. -/
def leaves (f : RepeatFilter Code) (c : Code) : Option Code := if f.reached then none else some c

theorem completes_sync (left : Option Code) (x : Message) :
    (completes left x).sync = 64 ∨ (completes left x).sync = 0 := by
  cases left with
  | none => exact Or.inl rfl
  | some c => exact Or.inr rfl

/-- Every well-formed frame is completed. -/
theorem run_sent {left : Option Code} (hs : Between f left s) (hw : x.IsSentAs w) :
    Between (f.count sameCode (completes left x))
        (leaves (f.count sameCode (completes left x)) (completes left x))
        (Mealy.final decode s w) ∧
      Mealy.events decode s w =
        [(f.count sameCode (completes left x)).completion (completes left x)] := by
  -- whether the callback resets the state decides how the next frame is read
  have hbetween : ∀ {c : Code} {t : Decoder}, Finished f c t → t.receivedCode = c →
      c.sync = 64 ∨ c.sync = 0 → Between (f.count sameCode c) (leaves (f.count sameCode c) c) t := by
    rintro c t ⟨hstate, hskip, hfilter⟩ rfl hsync
    unfold leaves
    split
    · next hreached =>
      rw [if_pos hreached] at hstate
      exact Between.waiting hstate hskip hfilter
    · next hreached =>
      rw [if_neg hreached] at hstate
      exact Between.going hstate hskip hfilter hsync
  have hsync := completes_sync left x
  rcases hw with ⟨h₁, h₂, h₃, h₄, h₅, h₆, hws⟩
  rw [Mealy.final_append, Mealy.events_append]
  cases hs with
  -- a new leader: the code starts empty
  | waiting hstate hskip hf =>
      subst hf
      rcases run_leader hstate hskip h₁ h₂ h₃ h₄ h₅.sync h₆.sync with ⟨hleader, hquiet⟩
      rcases run_payload hleader x.length_bits hws with ⟨⟨hdone, hcode⟩, hout⟩
      rw [foldlIdx_bits, shift_leaderCode] at hdone hcode hout
      rw [hquiet, hout]
      exact ⟨hbetween hdone hcode hsync, rfl⟩
  -- the state stayed at 0: the code of the last frame is shifted on
  | going hstate hskip hf hleft =>
      subst hf
      rcases run_leader_again hstate hskip h₁.short h₂ h₃ h₄ h₅.sync h₆.sync with
        ⟨hleader, hquiet⟩
      rw [leaderStores_again hleft] at hleader
      rcases run_payload hleader x.length_bits hws with ⟨⟨hdone, hcode⟩, hout⟩
      rw [foldlIdx_bits] at hdone hcode hout
      rw [hquiet, hout]
      exact ⟨hbetween hdone hcode hsync, rfl⟩

/-! ## Frames back to back -/

def Message.Fields (x : Message) (c : Code) : Prop :=
  c.address = x.address ∧ c.channel = x.channel ∧ c.wconst = x.wconst ∧
    c.humidity = x.humidity ∧ c.temperature = (x.temperature : ℕ)

def Message.Own (x : Message) (c : Code) : Prop :=
  c.address = x.address ∧ c.channel = x.channel ∧ c.wconst = x.wconst ∧
    c.humidity = x.humidity ∧ c.temperature = (x.temperature : ℕ) ∧ c.par = x.par

def Code.InRange (c : Code) : Prop :=
  c.address < 16 ∧ c.channel < 4 ∧ c.wconst < 8 ∧ c.humidity < 128 ∧ 0 ≤ c.temperature ∧
    c.temperature < 32768

theorem Message.Own.inRange (h : x.Own c) : c.InRange := by
  rcases h with ⟨ha, hc, hw, hh, ht, -⟩
  rw [Code.InRange, ha, hc, hw, hh, ht]
  omega

/-- Nothing of the frame is left when the next one has been shifted in. -/
def Message.Neutral (x : Message) : Prop :=
  (x.address : ℕ) = 0 ∧ (x.channel : ℕ) = 0 ∧ (x.wconst : ℕ) = 0 ∧ (x.humidity : ℕ) % 2 = 0 ∧
    (x.temperature : ℕ) % 2 = 0 ∧ x.par = false

theorem own_code (x : Message) (sync : ℕ) : x.Own (x.code sync) :=
  ⟨rfl, rfl, rfl, rfl, rfl, rfl⟩

/-- What the fields hold is shifted out of them by the next frame. -/
def Code.Clears (c : Code) : Prop :=
  c.address % 16 = 0 ∧ c.channel % 64 = 0 ∧ c.wconst % 32 = 0 ∧ c.humidity % 2 = 0 ∧
    c.temperature % 2 = 0

/-- A field holds the bits of the frame exactly if it had been empty modulo its width. -/
theorem fields_shift_iff : x.Fields (c.shift x) ↔ c.Clears := by
  have ha : (c.address * 16 + x.address) % 256 = x.address ↔ c.address % 16 = 0 := by
    omega
  have hc : (c.channel * 4 + x.channel) % 256 = x.channel ↔ c.channel % 64 = 0 := by
    omega
  have hw : (c.wconst * 8 + x.wconst) % 256 = x.wconst ↔ c.wconst % 32 = 0 := by
    omega
  have hh : (c.humidity * 128 + x.humidity) % 256 = x.humidity ↔ c.humidity % 2 = 0 := by
    omega
  have ht : Int.bmod (c.temperature * 32768 + (x.temperature : ℕ)) 65536 = (x.temperature : ℕ) ↔
      c.temperature % 2 = 0 := by
    rw [Int.bmod_def]
    omega
  simp only [Message.Fields, Code.shift, ha, hc, hw, hh, ht, Code.Clears]

theorem own_iff_fields : x.Own c ↔ x.Fields c ∧ c.par = x.par := by
  simp only [Message.Own, Message.Fields, and_assoc]

/-- A frame that is shifted into the code of `y` gets its own code exactly if `y` is neutral. -/
theorem own_shift_iff (x y : Message) (sync : ℕ) : x.Own ((y.code sync).shift x) ↔ y.Neutral := by
  have hp : (y.par ^^ x.par) = x.par ↔ y.par = false := by
    cases y.par <;> cases x.par <;> simp
  have hclears : (y.code sync).Clears ↔ (y.address : ℕ) = 0 ∧ (y.channel : ℕ) = 0 ∧
      (y.wconst : ℕ) = 0 ∧ (y.humidity : ℕ) % 2 = 0 ∧ (y.temperature : ℕ) % 2 = 0 := by
    simp only [Code.Clears, Message.code]
    omega
  rw [own_iff_fields, fields_shift_iff, hclears]
  simp only [Code.shift, Message.code, hp, Message.Neutral, and_assoc]

theorem Message.Own.eq_code (h : x.Own c) : c = x.code c.sync := by
  rcases h with ⟨ha, hc, hw, hh, ht, hp⟩
  rw [Message.code, ← ha, ← hc, ← hw, ← hh, ← ht, ← hp]

/-- What the receiver completes for the frames `xs` if every frame gets its own code: the counters,
and whether a frame starts in state -1, depend on the frames before it.  At a frame that has not
been repeated often enough, and that another frame follows, nothing may be left of it. -/
def Clean : RepeatFilter Code → Bool → List Message → Prop
  | _, _, [] => True
  | f, waiting, x :: xs =>
      let f' := f.count sameCode (x.code (if waiting then 64 else 0))
      (f'.reached = false → xs ≠ [] → x.Neutral) ∧ Clean f' f'.reached xs

/-- The frames are completed one by one, each with what the one before has left. -/
theorem Sent.cons_events {xs : List Message} {ws : List ℕ} {left : Option Code}
    (h : Sent (· = []) Message.IsSentAs (x :: xs) ws) (hs : Between f left s) :
    ∃ ws', Sent (· = []) Message.IsSentAs xs ws' ∧ ∃ s',
      Between (f.count sameCode (completes left x))
        (leaves (f.count sameCode (completes left x)) (completes left x)) s' ∧
      Mealy.events decode s ws =
        (f.count sameCode (completes left x)).completion (completes left x) ::
          Mealy.events decode s' ws' := by
  cases h with
  | @cons _ p w _ ws' hp hw hrest =>
      subst hp
      rcases run_sent hs hw with ⟨hbetween, hout⟩
      refine ⟨ws', hrest, _, hbetween, ?_⟩
      rw [List.nil_append, Mealy.events_append, hout]
      rfl

/-- From a decoder that has what a clean start or a neutral frame leaves, the frames get their own
codes exactly if they are clean. -/
theorem own_iff_clean {xs : List Message} {ws : List ℕ} {left : Option Code}
    (h : Sent (· = []) Message.IsSentAs xs ws) (hs : Between f left s)
    (hleft : ∀ c, left = some c → ∃ (y : Message) (sync : ℕ), c = y.code sync ∧ y.Neutral) :
    List.Forall₂ Message.Own xs (codes (Mealy.events decode s ws)) ↔
      Clean f left.isNone xs := by
  induction xs generalizing f s ws left with
  | nil =>
      cases h
      exact iff_of_true List.Forall₂.nil trivial
  | cons x xs ih =>
      -- the first frame gets its own code
      have hcode : completes left x = x.code (if left.isNone then 64 else 0) := by
        cases left with
        | none => rfl
        | some c =>
            rcases hleft c rfl with ⟨y, sync, rfl, hy⟩
            exact ((own_shift_iff x y 0).2 hy).eq_code
      rcases Sent.cons_events h hs with ⟨ws', hrest, s', hs', hevents⟩
      rw [hcode] at hs' hevents
      rw [hevents, Clean]
      simp only [codes, List.map_cons, RepeatFilter.completion, List.forall₂_cons]
      generalize (if left.isNone = true then 64 else 0) = sync at hs' ⊢
      generalize f.count sameCode (x.code sync) = f' at hs' ⊢
      have hown := own_code x sync
      unfold leaves at hs'
      cases hreached : f'.reached with
      | true =>
          rw [hreached, if_pos rfl] at hs'
          have htail := ih hrest hs' (fun c hc => by cases hc)
          simp only [codes, Option.isNone_none] at htail
          simp [hown, htail]
      | false =>
          rw [hreached, if_neg (by decide)] at hs'
          by_cases hneutral : x.Neutral
          · have htail := ih hrest hs'
              (fun c hc => ⟨x, sync, (Option.some.inj hc).symm, hneutral⟩)
            simp only [codes, Option.isNone_some] at htail
            simp [hown, htail, hneutral]
          · -- the next frame, if there is one, does not
            rcases xs with _ | ⟨x', xs⟩
            · cases hrest
              simp [hown, Clean]
            · rcases Sent.cons_events hrest hs' with ⟨_, _, _, _, hnext⟩
              have hspoilt : ¬x'.Own (completes (some (x.code sync)) x') :=
                fun h' => hneutral ((own_shift_iff x' x 0).1 h')
              rw [hnext]
              simp [hspoilt, hneutral, RepeatFilter.completion]

/-- Frames that arrive back to back at a fresh receiver do not mix exactly if they are clean. -/
theorem frames_do_not_mix (m : ℕ) (edge2 : ULong) (xs : List Message) (times : List ℕ)
    (h : Sent (· = []) Message.IsSentAs xs (measured edge2 times)) :
    let es := Mealy.events interruptHandler (init m edge2) times
    (List.Forall₂ Message.Own xs (codes es) ∧ ∀ c ∈ callbacks es, c.InRange) ↔
      Clean (init m edge2).decoder.filter true xs := by
  intro es
  have hes : es = Mealy.events decode (init m edge2).decoder (measured edge2 times) :=
    Sampled.events_eq rfl times
  have hwaiting : Between (init m edge2).decoder.filter none (init m edge2).decoder :=
    Between.waiting rfl rfl rfl
  have hclean := own_iff_clean h hwaiting (fun c hc => by cases hc)
  rw [Option.isNone_none, ← hes] at hclean
  rw [← hclean]
  refine and_iff_left_of_imp fun hown c hc => ?_
  -- a frame's own fields are within their widths
  rcases List.mem_iff_getElem.1 (callbacks_subset_codes hc) with ⟨k, hk, rfl⟩
  exact (hown.get (by rw [hown.length_eq]; exact hk) hk).inRange

/-! ## Frames with nominal pulses -/

/-- The pulse widths of a frame as the transmitter makes them. -/
def Message.widths (x : Message) : List ℕ :=
  [PULSE1, PULSE1, PULSE1, PULSE1, PULSE0, PULSE0] ++ x.bits.flatMap Wt440.widths

theorem isSentAs_widths (x : Message) : x.IsSentAs x.widths :=
  Message.IsSentAs.intro first_PULSE1 short_PULSE1 short_PULSE1 short_PULSE1 long_PULSE0 long_PULSE0
    (forall₂_word_widths x.bits)

theorem sent_widths (xs : List Message) :
    Sent (· = []) Message.IsSentAs xs (xs.flatMap Message.widths) := by
  induction xs with
  | nil => exact Sent.nil
  | cons x xs ih =>
      rw [List.flatMap_cons, ← List.nil_append (x.widths ++ _)]
      exact Sent.cons rfl (isSentAs_widths x) ih

theorem measured_widths (t : ℕ) (xs : List Message) :
    measured (micros t) (stamps t (xs.flatMap Message.widths)) = xs.flatMap Message.widths := by
  refine measured_stamps fun d hd => ?_
  rcases List.mem_flatMap.1 hd with ⟨x, -, hd⟩
  have hwidth : d = PULSE0 ∨ d = PULSE1 := by
    rcases List.mem_append.1 hd with hd | hd
    · simp only [List.mem_cons, List.not_mem_nil, or_false] at hd
      tauto
    · rcases List.mem_flatMap.1 hd with ⟨bit, -, hd⟩
      cases bit
      · exact Or.inl (List.mem_singleton.1 hd)
      · simp only [Wt440.widths, List.mem_cons, List.not_mem_nil, or_false] at hd
        tauto
  rcases hwidth with rfl | rfl <;> decide

/-- Two frames of a sensor that says the same twice. -/
theorem frames_do_not_mix_example :
    let xs : List Message := [⟨10, 2, 6, 50, 9000, false⟩, ⟨10, 2, 6, 50, 9000, false⟩]
    let es := Mealy.events interruptHandler (init 1 (micros 0)) (stamps 0 (xs.flatMap Message.widths))
    (List.Forall₂ Message.Own xs (codes es) ∧ ∀ c ∈ callbacks es, c.InRange) ↔
      Clean (init 1 (micros 0)).decoder.filter true xs :=
  frames_do_not_mix 1 (micros 0) _ _ (by rw [measured_widths]; exact sent_widths _)

/-- Three frames with address 1 are delivered as address 17. -/
theorem frames_mix :
    let xs : List Message := List.replicate 3 ⟨1, 0, 0, 0, 0, false⟩
    let es := Mealy.events interruptHandler (init 2 (micros 0)) (stamps 0 (xs.flatMap Message.widths))
    Sent (· = []) Message.IsSentAs xs (measured (micros 0) (stamps 0 (xs.flatMap Message.widths))) ∧
      ¬(List.Forall₂ Message.Own xs (codes es) ∧ ∀ c ∈ callbacks es, c.InRange) := by
  intro xs es
  refine ⟨by rw [measured_widths]; exact sent_widths _, ?_⟩
  rintro ⟨-, hrange⟩
  have hdelivered : ⟨0, 17, 0, 0, 0, 0, false⟩ ∈ callbacks es := by decide +kernel
  exact absurd (hrange _ hdelivered).1 (by decide)

end Wt440
end LamPI
