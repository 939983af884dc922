import LamPI.Wt440.Transmitter
import LamPI.Wt440.Frame

/-!
# WT440 round trip

A receiver that joins a transmission anywhere can complete a frame only from its first pulse on:
a frame takes 72 half bits, and the pulses that are left after any other start have fewer.

- `sendMsg_received`   : every callback carries the fields that were sent
- `sendMsg_repetitions` : one call of `sendMsg` never makes four completed frames
-/

namespace LamPI
namespace Wt440

open PulseLine BigEndian

structure TxCode.Valid (m : TxCode) : Prop where
  address : m.address < 16
  channel : m.channel < 4
  wcode : m.wcode < 8
  humi : m.humi < 128
  temp : m.temp < 32768

def Code.Carries (c : Code) (m : TxCode) : Prop :=
  c.address = m.address ∧ c.channel = m.channel ∧ c.wconst = m.wcode ∧ c.humidity = m.humi ∧
    c.temperature = m.temp

instance (c : Code) (m : TxCode) : Decidable (c.Carries m) := by
  unfold Code.Carries
  infer_instance

def sentCode (m : TxCode) : Code :=
  frameCode (bits 4 m.address) (bits 2 m.channel) (bits 3 m.wcode) (bits 7 m.humi)
    (bits 15 m.temp) (parity (payloadBits m))

theorem sentCode_carries {m : TxCode} (hm : m.Valid) : (sentCode m).Carries m := by
  refine ⟨?_, ?_, ?_, ?_, ?_⟩
  · exact ofBits_bits_of_lt hm.address
  · exact ofBits_bits_of_lt hm.channel
  · exact ofBits_bits_of_lt hm.wcode
  · exact ofBits_bits_of_lt hm.humi
  · exact congrArg Nat.cast (ofBits_bits_of_lt hm.temp)

variable {m : TxCode} {s : Decoder}

/-! ## Counting half bits -/

/-- An interval moves the decoder by at most this many half bits. -/
def units (d : ℕ) : ℤ := if d = PULSE1 then 1 else 2

theorem units_pos (d : ℕ) : 1 ≤ units d ∧ units d ≤ 2 := by
  unfold units
  split <;> omega

theorem halfBits_le {p : ℤ} {gap : ℕ} (haccept : Accepts p (gap % 65536)) :
    halfBits p (gap % 65536) ≤ units gap := by
  rcases haccept with ⟨hmax, hstart, hsync⟩
  unfold units
  split
  · rename_i hgap
    have hduration : gap % 65536 = 1050 := by rw [hgap]; rfl
    rw [hduration] at hsync ⊢
    unfold halfBits
    unfold min2period at hsync
    unfold max1period
    split
    · exact le_rfl
    · rw [if_neg (by omega), if_neg (by omega)]
  · unfold halfBits
    split
    · omega
    · split
      · omega
      · split <;> omega

theorem position_nonneg (state : ℤ) : 0 ≤ position state := le_max_right _ _

theorem Decoder.position_lt (h : s.Running) : position s.state < 72 :=
  max_lt h.2.2 (by decide)

/-- The half bits of an interval pay for the step: a completed frame costs 72 of them. -/
theorem decode_budget (gap : ℕ) (h : s.Running) :
    72 * ((decode s gap).2.toList.length : ℤ) + position (decode s gap).1.state ≤
      position s.state + units gap := by
  have hnonneg := position_nonneg s.state
  have hunits := units_pos gap
  have hto := stepTo_decode gap h
  rcases hnext : next s.state gap with _ | q | _
  · rw [hnext] at hto
    generalize decode s gap = r at hto ⊢
    cases hto with
    | abort hskip hfilter hstate =>
        -- what was read so far is lost
        rw [hstate]
        simp only [position, Option.toList_none, List.length_nil, Nat.cast_zero]
        omega
  · rcases next_go hnext with ⟨htakes, hq, -⟩
    -- the interval moves the state by no more than it pays for
    have hhalf := halfBits_le (htakes.accepts h.2.1)
    have hpos := halfBits_pos (position s.state) (gap % 65536)
    rcases tracks_decode.go s gap q h hnext with ⟨-, hstate, hnone⟩
    rw [hnone, hstate, position, max_eq_left (by omega)]
    simp only [Option.toList_none, List.length_nil, Nat.cast_zero]
    omega
  · rcases next_done hnext with ⟨htakes, hle⟩
    have hhalf := halfBits_le (htakes.accepts h.2.1)
    rcases tracks_decode.done s gap h hnext with ⟨hstart, e, he⟩
    have hzero : position (decode s gap).1.state = 0 := by
      rcases hstart with hstart | hstart <;> rw [hstart] <;> rfl
    rw [he, hzero]
    simp only [Option.toList_some, List.length_singleton, Nat.cast_one]
    omega

theorem run_running (h : s.Running) (ds : List ℕ) : (Mealy.final decode s ds).Running :=
  tracks_decode.final_inv h ds

theorem run_budget (h : s.Running) (ds : List ℕ) :
    72 * ((Mealy.events decode s ds).length : ℤ) + position (Mealy.final decode s ds).state ≤
      position s.state + (ds.map units).sum := by
  induction ds generalizing s with
  | nil => simp
  | cons d ds ih =>
      have hstep := decode_budget d h
      have hrest := ih (tracks_decode.step_inv s d h)
      rw [Mealy.events_cons, Mealy.final_cons, List.length_append, List.map_cons, List.sum_cons]
      push_cast
      linarith

/-- Too few half bits complete no frame. -/
theorem run_silent (h : s.Running) {ds : List ℕ}
    (hds : position s.state + (ds.map units).sum < 72) :
    Mealy.events decode s ds = [] := by
  have hbudget := run_budget h ds
  have hnonneg := position_nonneg (Mealy.final decode s ds).state
  rw [← List.length_eq_zero_iff]
  omega

/-! ## The intervals of a transmission -/

theorem sum_units_flatMap (bs : List Bool) :
    ((bs.flatMap widths).map units).sum = 2 * bs.length := by
  induction bs with
  | nil => rfl
  | cons b bs ih =>
      have hword : ((widths b).map units).sum = 2 := by cases b <;> rfl
      rw [List.flatMap_cons, List.map_append, List.sum_append, ih, hword, List.length_cons]
      push_cast
      ring

theorem sum_units_frameWidths (m : TxCode) : ((frameWidths m).map units).sum = 72 := by
  rw [frameWidths, sum_units_flatMap, length_frameBits]
  rfl

/-- After its first pulse a repetition has one half bit less than a frame. -/
theorem sum_units_tail (m : TxCode) : ((frameWidths m).tail.map units).sum = 71 := by
  have hframe := sum_units_frameWidths m
  rw [frameWidths_eq, List.map_cons, List.sum_cons] at hframe
  have hfirst : units PULSE1 = 1 := rfl
  omega

theorem sum_units_drop (ds : List ℕ) (j : ℕ) :
    ((ds.drop j).map units).sum ≤ (ds.map units).sum ∧
      (0 < j → ds ≠ [] → ((ds.drop j).map units).sum + 1 ≤ (ds.map units).sum) := by
  induction ds generalizing j with
  | nil => simp
  | cons d ds ih =>
      have hd := units_pos d
      cases j with
      | zero => simp
      | succ j =>
          have hle := (ih j).1
          rw [List.drop_succ_cons, List.map_cons, List.sum_cons]
          constructor
          · omega
          · intro _ _
            omega

/-- The intervals after the first repetition, `n` repetitions being left. -/
def laterMsgWidths (m : TxCode) (n : ℕ) : List ℕ :=
  (List.replicate n (laterWidths m)).flatten ++ [50000]

theorem msgWidths_eq (m : TxCode) : msgWidths m = frameWidths m ++ laterMsgWidths m 3 := rfl

theorem laterMsgWidths_succ (m : TxCode) (n : ℕ) :
    laterMsgWidths m (n + 1) =
      (50000 + PULSE1) :: ((frameWidths m).tail ++ laterMsgWidths m n) := by
  rw [laterMsgWidths, List.replicate_succ, List.flatten_cons, List.append_assoc]
  rfl

/-- Wherever a receiver joins after the first pulse, it hears a rest of one repetition and the
repetitions after it. -/
theorem drop_laterMsgWidths (m : TxCode) (n k : ℕ) :
    ∃ j later, (later = [] ∨ ∃ n', later = laterMsgWidths m n') ∧
      ((frameWidths m).tail ++ laterMsgWidths m n).drop k =
        (frameWidths m).tail.drop j ++ later := by
  induction n generalizing k with
  | zero =>
      refine ⟨k, (laterMsgWidths m 0).drop (k - (frameWidths m).tail.length), ?_,
        List.drop_append⟩
      cases k - (frameWidths m).tail.length with
      | zero => exact Or.inr ⟨0, rfl⟩
      | succ i => exact Or.inl (by simp [laterMsgWidths])
  | succ n ih =>
      rw [List.drop_append]
      rcases hk : k - (frameWidths m).tail.length with _ | i
      · exact ⟨k, _, Or.inr ⟨n + 1, rfl⟩, rfl⟩
      · rcases ih i with ⟨j, later, hlater, hdrop⟩
        refine ⟨j, later, hlater, ?_⟩
        rw [List.drop_eq_nil_of_le (by omega), List.nil_append, laterMsgWidths_succ,
          List.drop_succ_cons, hdrop]

/-! ## Hearing a transmission -/

theorem decode_gap {gap : ℕ} (h : s.Running) (hgap : max2period < gap % 65536) :
    decode s gap = (s.reset, none) := by
  rw [decode, if_neg (by simp [h.1])]
  split
  · rfl
  · simp only
    rw [if_pos hgap]

/-- Repetitions that start without an edge complete no frame. -/
theorem run_laterMsgWidths (h : s.Running) (n : ℕ) :
    Mealy.events decode s (laterMsgWidths m n) = [] := by
  induction n generalizing s with
  | zero =>
      rw [laterMsgWidths, List.replicate_zero, List.flatten_nil, List.nil_append,
        Mealy.events_cons, decode_gap h (by decide)]
      rfl
  | succ n ih =>
      -- 50 ms without an edge abort the frame, and swallow the first pulse of the repetition
      have hreset := Decoder.reset_running h
      have hsilent : Mealy.events decode s.reset (frameWidths m).tail = [] := by
        apply run_silent hreset
        rw [sum_units_tail]
        exact (by decide : position (-1) + 71 < 72)
      rw [laterMsgWidths_succ, Mealy.events_cons, decode_gap h (by decide), Mealy.events_append,
        hsilent, ih (run_running hreset _)]
      rfl

/-- An idle decoder ignores what is no first pulse. -/
theorem decode_idle (hs : s.state = -1) (hskip : s.skip = false) {gap : ℕ} (hgap : ¬First gap) :
    decode s gap = (s, none) := by
  have hreset : s.reset = s := by
    rw [Decoder.reset, ← hs]
  have hfirst : ¬(min1period < gap % 65536 ∧ gap % 65536 < max1period) := hgap
  rw [decode, if_neg (by simp [hskip]), if_neg (by omega)]
  simp only [if_pos hs, if_neg hfirst, hreset, ite_self]

theorem first_PULSE1 : First PULSE1 := ⟨by decide, by decide⟩

theorem short_PULSE1 : Short PULSE1 := ⟨by decide, by decide⟩

theorem long_PULSE0 : Long PULSE0 := ⟨by decide, by decide⟩

theorem forall₂_word_widths (bs : List Bool) : List.Forall₂ Word bs (bs.map widths) := by
  induction bs with
  | nil => exact List.Forall₂.nil
  | cons b bs ih =>
      refine List.Forall₂.cons ?_ ih
      cases b with
      | true => exact Word.one short_PULSE1 short_PULSE1
      | false => exact Word.zero long_PULSE0

/-- A repetition whose first pulse is heard, or taken to be, completes a frame. -/
theorem run_repetition (hs : s.state = -1) (hskip : s.skip = false) {d : ℕ} (hd : First d) :
    Finished s.filter (sentCode m) (Mealy.final decode s (d :: (frameWidths m).tail)) ∧
      Mealy.events decode s (d :: (frameWidths m).tail) =
        [(s.filter.count sameCode (sentCode m)).completion (sentCode m)] := by
  have htail : d :: (frameWidths m).tail =
      [d, PULSE1, PULSE1, PULSE1, PULSE0, PULSE0] ++
        ((payloadBits m ++ [parity (payloadBits m)]).map widths).flatten := by
    rw [← List.flatMap_def]
    rfl
  have hcode : (payloadBits m ++ [parity (payloadBits m)]).foldlIdx pushBit leaderCode 4 =
      sentCode m := by
    rw [sentCode, ← foldlIdx_pushBit (length_bits _ _) (length_bits _ _) (length_bits _ _)
      (length_bits _ _) (length_bits _ _)]
    simp only [payloadBits, List.append_assoc]
  have hlength : (payloadBits m ++ [parity (payloadBits m)]).length = 32 := by simp
  have hframe := run_frame hs hskip hd short_PULSE1 short_PULSE1 short_PULSE1 long_PULSE0
    long_PULSE0 hlength (forall₂_word_widths _)
  rw [hcode, ← htail] at hframe
  exact hframe

/-- A short pulse just before a repetition spoils it: its fourth short pulse comes where the first
long one is due. -/
theorem run_spoilt (hs : s.state = -1) (hskip : s.skip = false) {d : ℕ} (hd : First d) :
    Mealy.events decode s (d :: frameWidths m) = [] := by
  rcases decode_first hs hskip hd with ⟨s₁, e₁, hs₁, hskip₁, -, -⟩
  rcases decode_start (by decide) (by decide) hs₁ hskip₁ short_PULSE1 with
    ⟨s₂, e₂, hs₂, hskip₂, -, -⟩
  rcases decode_start (by decide) (by decide) hs₂ hskip₂ short_PULSE1 with
    ⟨s₃, e₃, hs₃, hskip₃, -, -⟩
  rcases decode_start (by decide) (by decide) hs₃ hskip₃ short_PULSE1 with
    ⟨s₄, e₄, hs₄, hskip₄, -, -⟩
  -- the decoder is one pulse ahead and expects a long one
  have habort : next s₄.state PULSE1 = .abort := by
    rw [hs₄]
    decide
  have hrunning₄ : s₄.Running := ⟨hskip₄, by omega, by omega⟩
  have e₅ := (tracks_decode.abort s₄ PULSE1 hrunning₄ habort).2
  have hposition₅ : position (decode s₄ PULSE1).1.state = 0 := by
    rcases (tracks_decode.abort s₄ PULSE1 hrunning₄ habort).1 with h | h <;> rw [h] <;> rfl
  have hframe : frameWidths m =
      [PULSE1, PULSE1, PULSE1, PULSE1] ++ (frameWidths m).drop 4 := rfl
  -- what is left of the repetition is too little for a frame
  have hrest : (((frameWidths m).drop 4).map units).sum = 68 := by
    have hall := sum_units_frameWidths m
    rw [hframe, List.map_append, List.sum_append] at hall
    have hfour : ([PULSE1, PULSE1, PULSE1, PULSE1].map units).sum = 4 := rfl
    omega
  have hsilent : Mealy.events decode (decode s₄ PULSE1).1 ((frameWidths m).drop 4) = [] := by
    apply run_silent (tracks_decode.step_inv s₄ PULSE1 hrunning₄)
    rw [hposition₅, hrest]
    decide
  rw [hframe]
  simp only [List.cons_append, List.nil_append, Mealy.events_cons, e₁, e₂, e₃, e₄, e₅, hsilent]
  rfl

/-- A rest of a repetition completes no frame unless only its first pulse is missing. -/
theorem codes_rest (hs : s.state = -1) (hskip : s.skip = false) (d j : ℕ) :
    ∀ c ∈ codes (Mealy.events decode s (d :: (frameWidths m).tail.drop j)), c = sentCode m := by
  have hrunning : s.Running := ⟨hskip, hs.ge, by omega⟩
  have hdrop := sum_units_drop (frameWidths m).tail j
  have hsum := sum_units_tail m
  have hposition : position s.state = 0 := by rw [hs]; rfl
  -- with a first interval that is accepted, only the whole repetition is long enough
  by_cases hd : First d
  · cases j with
    | zero =>
        rw [List.drop_zero, (run_repetition hs hskip hd).2]
        simp [codes, RepeatFilter.completion]
    | succ j =>
        have hne : (frameWidths m).tail ≠ [] := by
          rw [frameWidths, frameBits, leader]
          simp [widths]
        rcases decode_first hs hskip hd with ⟨s₁, e₁, hs₁, hskip₁, -, -⟩
        have hposition₁ : position s₁.state = 1 := by rw [hs₁]; rfl
        have hlt := hdrop.2 (by omega) hne
        have hsilent : Mealy.events decode s₁ ((frameWidths m).tail.drop (j + 1)) = [] :=
          run_silent ⟨hskip₁, by omega, by omega⟩ (by omega)
        rw [Mealy.events_cons, e₁, hsilent]
        simp
  · have hsilent : Mealy.events decode s ((frameWidths m).tail.drop j) = [] :=
      run_silent hrunning (by omega)
    rw [Mealy.events_cons, decode_idle hs hskip hd, hsilent]
    simp

/-- Joining anywhere: `d` is the interval measured at the first edge heard. -/
theorem codes_join (hs : s.state = -1) (hskip : s.skip = false) (d k : ℕ) :
    ∀ c ∈ codes (Mealy.events decode s (d :: (msgWidths m).drop k)), c = sentCode m := by
  have hrunning : s.Running := ⟨hskip, hs.ge, by omega⟩
  cases k with
  -- from the first edge on: the first repetition is heard or spoilt
  | zero =>
      have hlater := run_laterMsgWidths (m := m) (run_running hrunning (d :: frameWidths m)) 3
      rw [List.drop_zero, msgWidths_eq, ← List.cons_append, Mealy.events_append, hlater,
        List.append_nil]
      by_cases hd : First d
      · rw [run_spoilt hs hskip hd]
        simp
      · rw [Mealy.events_cons, decode_idle hs hskip hd, frameWidths_eq,
          (run_repetition hs hskip first_PULSE1).2]
        simp [codes, RepeatFilter.completion]
  -- in the middle: the rest of this repetition decides, and the later ones are silent
  | succ k =>
      rcases drop_laterMsgWidths m 3 k with ⟨j, later, hlater, hdrop⟩
      have hsilent : Mealy.events decode
          (Mealy.final decode s (d :: (frameWidths m).tail.drop j)) later = [] := by
        rcases hlater with rfl | ⟨n, rfl⟩
        · rfl
        · exact run_laterMsgWidths (run_running hrunning _) n
      rw [msgWidths_eq, frameWidths_eq, List.cons_append, List.drop_succ_cons, hdrop,
        ← List.cons_append, Mealy.events_append, hsilent, List.append_nil]
      exact codes_rest hs hskip d j

theorem mem_msgWidths_lt (m : TxCode) : ∀ d ∈ msgWidths m, d < 2 ^ 32 := by
  have hframe : ∀ d ∈ frameWidths m, d < 2 ^ 32 := by
    intro d hd
    rcases List.mem_flatMap.1 hd with ⟨b, -, hb⟩
    cases b <;> simp [widths] at hb <;> rw [hb] <;> decide
  intro d hd
  rw [msgWidths, List.mem_append, List.mem_append] at hd
  rcases hd with hd | hd | hd
  · exact hframe d hd
  · rcases List.mem_flatten.1 hd with ⟨l, hl, hd⟩
    rw [List.eq_of_mem_replicate hl, laterWidths, List.mem_cons] at hd
    rcases hd with rfl | hd
    · decide
    · exact hframe d (List.mem_of_mem_tail hd)
  · rw [List.mem_singleton.1 hd]
    decide

/-- What a receiver measures that hears a transmission from its `k`-th edge on. -/
theorem measured_drop (e : ULong) (t k : ℕ) :
    measured e ((edges ⟨LOW, t⟩ (sendMsg m)).drop k) = [] ∨
      ∃ d, measured e ((edges ⟨LOW, t⟩ (sendMsg m)).drop k) = d :: (msgWidths m).drop k := by
  rw [edges_sendMsg, drop_stamps]
  rcases hdrop : (0 :: msgWidths m).drop k with _ | ⟨d, ds⟩
  · exact Or.inl rfl
  · have hds : ds = (msgWidths m).drop k := by
      have h := congrArg List.tail hdrop
      rw [List.tail_drop] at h
      exact h.symm
    have hlt : ∀ x ∈ ds, x < 2 ^ 32 := by
      rw [hds]
      exact fun x hx => mem_msgWidths_lt m x (List.mem_of_mem_drop hx)
    rw [← hds]
    exact Or.inr ⟨_, measured_stamps_cons hlt⟩

theorem measured_sendMsg (e : ULong) (t : ℕ) :
    measured e (edges ⟨LOW, t⟩ (sendMsg m)) = (micros t - e).toNat :: msgWidths m := by
  rw [edges_sendMsg, measured_stamps_cons (mem_msgWidths_lt m)]
  rfl

theorem events_init (e : ULong) (times : List ℕ) :
    Mealy.events interruptHandler (init 1 e) times =
      Mealy.events decode (init 1 e).decoder (measured e times) :=
  Sampled.events_eq (s := init 1 e) rfl times

/-- A fresh receiver that hears a transmission from any edge on is only called back with what was
sent. -/
theorem callbacks_sendMsg_carry (hm : m.Valid) (e : ULong) (t k : ℕ) :
    ∀ c ∈ callbacks (Mealy.events interruptHandler (init 1 e)
      ((edges ⟨LOW, t⟩ (sendMsg m)).drop k)), c.Carries m := by
  intro c hc
  rw [events_init] at hc
  -- less the first `k` edges, the intervals are those of a later part
  rcases measured_drop (m := m) e t k with h | ⟨d, h⟩
  · rw [h] at hc
    simp at hc
  · rw [h] at hc
    rw [codes_join (s := (init 1 e).decoder) rfl rfl d k c (callbacks_subset_codes hc)]
    exact sentCode_carries hm

/-- A fresh receiver that hears all of a transmission is called back, unless the pause before the
first edge is taken for a first pulse. -/
theorem callbacks_sendMsg_ne_nil (m : TxCode) {e : ULong} {t : ℕ}
    (hpause : ¬First (micros t - e).toNat) :
    callbacks (Mealy.events interruptHandler (init 1 e) (edges ⟨LOW, t⟩ (sendMsg m))) ≠ [] := by
  have hidle := decode_idle (s := (init 1 e).decoder) rfl rfl hpause
  -- nothing is heard of the pause, and the first repetition calls back
  have hmem : sentCode m ∈ callbacks (Mealy.events interruptHandler (init 1 e)
      (edges ⟨LOW, t⟩ (sendMsg m))) := by
    rw [events_init, measured_sendMsg, Mealy.events_cons, hidle, msgWidths_eq, Mealy.events_append,
      frameWidths_eq, (run_repetition (s := (init 1 e).decoder) rfl rfl first_PULSE1).2]
    rw [mem_callbacks, RepeatFilter.completion_count rfl rfl rfl]
    simp
  exact List.ne_nil_of_mem hmem

/-- A fresh receiver that hears a transmission from any edge on is only ever called back with what
was sent, and it is called back if it hears all of it, unless the pause before the first edge is
taken for a first pulse. -/
theorem sendMsg_received (m : TxCode) (hm : m.Valid) (e : ULong) (t k : ℕ) :
    (∀ c ∈ callbacks (Mealy.events interruptHandler (init 1 e)
        ((edges ⟨LOW, t⟩ (sendMsg m)).drop k)), c.Carries m) ∧
      (¬(700 < (micros t - e).toNat % 65536 ∧ (micros t - e).toNat % 65536 < 1500) →
        callbacks (Mealy.events interruptHandler (init 1 e)
          (edges ⟨LOW, t⟩ (sendMsg m))) ≠ []) :=
  ⟨callbacks_sendMsg_carry hm e t k, fun hpause => callbacks_sendMsg_ne_nil m hpause⟩

/-- A message heard from its second edge on, and from its first. -/
theorem sendMsg_received_example :
    (∀ c ∈ callbacks (Mealy.events interruptHandler (init 1 0)
        ((edges ⟨LOW, 0⟩ (sendMsg ⟨10, 2, 50, 6, 9000⟩)).drop 1)),
        c.Carries ⟨10, 2, 50, 6, 9000⟩) ∧
      callbacks (Mealy.events interruptHandler (init 1 0)
        (edges ⟨LOW, 0⟩ (sendMsg ⟨10, 2, 50, 6, 9000⟩))) ≠ [] := by
  have h := sendMsg_received ⟨10, 2, 50, 6, 9000⟩
    ⟨by decide, by decide, by decide, by decide, by decide⟩ 0 0 1
  exact ⟨h.1, h.2 (by decide)⟩

/-! ## The number of completed frames -/

def Reachable (s : State) : Prop :=
  ∃ minRepeats edge2 times, s = Mealy.final interruptHandler (init minRepeats edge2) times

theorem Reachable.running {s : State} (h : Reachable s) :
    s.enabled = true ∧ s.decoder.Running := by
  rcases h with ⟨minRepeats, edge2, times, rfl⟩
  have hstart : (init minRepeats edge2).enabled = true := rfl
  rcases Sampled.run_eq hstart times with ⟨henabled, hdecoder, -⟩
  refine ⟨henabled, ?_⟩
  rw [interruptHandler, hdecoder]
  exact run_running (init_running minRepeats edge2) _

/-- Only the first repetition starts with an edge, so `sendMsg` completes at most one frame more
than the one that was under way. -/
theorem length_events_sendMsg {s : State} (hs : Reachable s) (t : ℕ) :
    (Mealy.events interruptHandler s (edges ⟨LOW, t⟩ (sendMsg m))).length ≤ 2 := by
  rcases hs.running with ⟨henabled, hrunning⟩
  have hevents : Mealy.events interruptHandler s (edges ⟨LOW, t⟩ (sendMsg m)) =
      Mealy.events decode s.decoder ((micros t - s.edge2).toNat :: frameWidths m) := by
    have hlater := run_laterMsgWidths (m := m)
      (run_running hrunning ((micros t - s.edge2).toNat :: frameWidths m)) 3
    rw [interruptHandler, Sampled.events_eq henabled, measured_sendMsg, msgWidths_eq,
      ← List.cons_append, Mealy.events_append, hlater, List.append_nil]
  have hbudget := run_budget hrunning ((micros t - s.edge2).toNat :: frameWidths m)
  have hposition := Decoder.position_lt hrunning
  have hunits := units_pos (micros t - s.edge2).toNat
  have hnonneg := position_nonneg
    (Mealy.final decode s.decoder ((micros t - s.edge2).toNat :: frameWidths m)).state
  rw [List.map_cons, List.sum_cons, sum_units_frameWidths] at hbudget
  rw [hevents]
  omega

/-- From no state does one call of `sendMsg` complete four frames with the fields that were
sent. -/
theorem sendMsg_repetitions (m : TxCode) (minRepeats : ℕ) (edge2 : ULong) (history : List ℕ)
    (t : ℕ) :
    let s := Mealy.final interruptHandler (init minRepeats edge2) history
    let es := Mealy.events interruptHandler s (edges ⟨LOW, t⟩ (sendMsg m))
    (codes es).countP (fun c => c.Carries m) ≠ 4 := by
  intro s es
  have hlength : es.length ≤ 2 :=
    length_events_sendMsg ⟨minRepeats, edge2, history, rfl⟩ t
  have hcount := List.countP_le_length (p := fun c : Code => decide (c.Carries m)) (l := codes es)
  have hcodes : (codes es).length = es.length := List.length_map _
  omega

/-- A fresh receiver at the first edge of a message. -/
theorem sendMsg_one_of_four :
    (codes (Mealy.events interruptHandler (init 1 0)
        (edges ⟨LOW, 0⟩ (sendMsg ⟨10, 2, 50, 6, 9000⟩)))).countP
      (fun c => c.Carries ⟨10, 2, 50, 6, 9000⟩) ≠ 4 := by
  have hlength := length_events_sendMsg (m := ⟨10, 2, 50, 6, 9000⟩) (s := init 1 0)
    ⟨1, 0, [], rfl⟩ 0
  intro hcount
  have hle := List.countP_le_length (p := fun c : Code => decide (c.Carries ⟨10, 2, 50, 6, 9000⟩))
    (l := codes (Mealy.events interruptHandler (init 1 0)
      (edges ⟨LOW, 0⟩ (sendMsg ⟨10, 2, 50, 6, 9000⟩))))
  rw [hcount, codes, List.length_map] at hle
  omega

end Wt440
end LamPI
