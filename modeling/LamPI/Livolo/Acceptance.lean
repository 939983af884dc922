import LamPI.Livolo.Receiver

/-!
# What the Livolo receiver accepts

The handler never tests whether a long pulse comes in the middle of a 0.  It only moves the state
by two, so that the state stays odd from there on; and an odd state never becomes 46.
-/

namespace LamPI
namespace Livolo

open BigEndian

/-- The intervals are the code words of `bs`, the bits of a whole frame. -/
def Coded (bs : List Bool) (ds : List ℕ) : Prop :=
  bs.length = 23 ∧ ∃ ws, List.Forall₂ Word bs ws ∧ ws.flatten = ds

/-- A start pulse has been accepted, and the decoder has not been reset since. -/
def Decoder.Within (s : Decoder) : Prop := 0 ≤ s.state

variable {b : Board} {s t : Decoder} {k d : ℕ} {ds : List ℕ}

theorem Word.inside {bit : Bool} {w : List ℕ} (hw : Word bit w) :
    ∀ d ∈ w, min1Period ≤ d ∧ d ≤ max3Period := by
  unfold min1Period max3Period
  cases hw with
  | one hlo hhi =>
      unfold min3Period at hlo
      unfold max3Period at hhi
      intro x hx
      rw [List.mem_singleton.1 hx]
      omega
  | zero hd hd' he he' =>
      unfold min1Period at hd he
      unfold min3Period at hd' he'
      intro x hx
      simp only [List.mem_cons, List.not_mem_nil, or_false] at hx
      omega

/-- All intervals of a code lie between the shortest and the longest pulse. -/
theorem Coded.inside {bs : List Bool} (h : Coded bs ds) :
    ∀ d ∈ ds, min1Period ≤ d ∧ d ≤ max3Period := by
  rcases h with ⟨-, ws, hws, rfl⟩
  intro d hd
  rcases List.mem_flatten.1 hd with ⟨w, hw, hd⟩
  rcases List.mem_iff_getElem.1 hw with ⟨i, hi, rfl⟩
  exact (hws.get (by rw [hws.length_eq]; exact hi) hi).inside d hd

/-! ## One interval of a run that ends with a completed frame -/

/-- Such a run never finds the decoder waiting. -/
theorem not_emits_of_reset (hs : s.state = -1) :
    ¬Mealy.EmitsAtEnd (decode b) Decoder.Within s ds := by
  have hout : ¬s.Within := by
    unfold Decoder.Within
    omega
  intro h
  cases h with
  | last hP _ => exact hout hP
  | more hP _ _ => exact hout hP

/-- An interval that completes nothing is followed by a run of the same kind. -/
theorem emits_cons_of_none (hs : s.Within) (hstep : decode b s d = (t, none)) :
    Mealy.EmitsAtEnd (decode b) Decoder.Within s (d :: ds) ↔
      Mealy.EmitsAtEnd (decode b) Decoder.Within t ds := by
  constructor
  · intro h
    cases h with
    | last _ he =>
        rw [hstep] at he
        cases he
    | more _ _ hrest =>
        rw [hstep] at hrest
        exact hrest
  · intro h
    exact Mealy.EmitsAtEnd.more hs (by rw [hstep]) (by rw [hstep]; exact h)

/-- An interval that ends a bit is the last one if and only if it leads to state 46. -/
theorem emits_cons_of_close (hs : s.Within) (hstep : decode b s d = close t) :
    Mealy.EmitsAtEnd (decode b) Decoder.Within s (d :: ds) ↔
      (t.state = 46 ∧ ds = []) ∨
        (t.state ≠ 46 ∧ Mealy.EmitsAtEnd (decode b) Decoder.Within t ds) := by
  by_cases h46 : t.state = 46
  · -- the frame is complete, and a longer run would start from the reset state
    rw [close, if_pos h46] at hstep
    have hreset : (decode b s d).1.state = -1 := by rw [hstep]; rfl
    constructor
    · intro h
      cases h with
      | last _ _ => exact Or.inl ⟨h46, rfl⟩
      | more _ hquiet _ =>
          rw [hstep] at hquiet
          cases hquiet
    · rintro (⟨-, rfl⟩ | ⟨hne, -⟩)
      · exact Mealy.EmitsAtEnd.last hs (by rw [hstep])
      · exact absurd h46 hne
  · rw [close, if_neg h46] at hstep
    rw [emits_cons_of_none hs hstep]
    exact ⟨fun h => Or.inr ⟨h46, h⟩, fun h => (h.resolve_left fun h' => h46 h'.1).2⟩

/-- Within a frame a spike or a pause resets the decoder. -/
theorem decode_outside (hs : s.Within) (hd : ¬(min1Period ≤ d ∧ d ≤ max3Period)) :
    decode b s d = (s.reset, none) := by
  have hfilter : d < min1Period ∨ max3Period < d := by omega
  rw [decode, if_pos ⟨hs, hfilter⟩]

/-- So every interval of such a run is a pulse of the code. -/
theorem inside_of_emits (h : Mealy.EmitsAtEnd (decode b) Decoder.Within s (d :: ds)) :
    s.Within ∧ min1Period ≤ d ∧ d ≤ max3Period := by
  have hs : s.Within := by
    cases h with
    | last hP _ => exact hP
    | more hP _ _ => exact hP
  refine ⟨hs, ?_⟩
  by_contra hd
  rw [emits_cons_of_none hs (decode_outside hs hd)] at h
  exact not_emits_of_reset rfl h

/-! ## Misaligned runs -/

/-- After a long pulse in the middle of a 0 the state is odd. -/
def Misaligned (s : Decoder) : Prop := s.Within ∧ s.state % 2 = 1 ∧ s.receivedBit ≠ 0

/-- The decoder waits for a start pulse, or will never complete the frame. -/
def Lost (s : Decoder) : Prop := s.state = -1 ∨ Misaligned s

/-- A short pulse resets a misaligned decoder. -/
theorem decode_misaligned_short (hs : Misaligned s) (hd : d ≤ min3Period) :
    decode b s d = (s.reset, none) := by
  rcases hs with ⟨hwithin, hodd, hbit⟩
  by_cases hlo : min1Period ≤ d
  · obtain ⟨j, hj⟩ : ∃ j : ℕ, s.state = j :=
      ⟨s.state.toNat, (Int.toNat_of_nonneg hwithin).symm⟩
    have hhi : d ≤ max3Period := by unfold min3Period at hd; unfold max3Period; omega
    by_cases h46 : j < 46
    · rw [decode_eq hj h46 hlo hhi, decodeBit, if_neg (Nat.not_lt.2 hd), if_pos hodd, if_pos hbit]
    · -- state 47 is beyond the last field
      rw [decode, if_neg (by omega)]
      simp only
      rw [if_neg (by omega), if_neg (by omega), if_neg (by omega)]
  · exact decode_outside hwithin (fun h => hlo h.1)

/-- In an odd state a long pulse makes it misaligned, if it is not too long. -/
theorem decode_long_odd (hodd : s.state % 2 = 1) (hwithin : s.Within) (hd : min3Period < d) :
    ∃ t, decode b s d = (t, none) ∧ Lost t := by
  by_cases hhi : d ≤ max3Period
  · obtain ⟨j, hj⟩ : ∃ j : ℕ, s.state = j :=
      ⟨s.state.toNat, (Int.toNat_of_nonneg hwithin).symm⟩
    have hlo : min1Period ≤ d := by unfold min3Period at hd; unfold min1Period; omega
    by_cases h46 : j < 46
    · -- two more half bits keep the state odd, so it is not 46
      have hne : s.state + 1 + 1 ≠ 46 := by omega
      have hnext : 0 ≤ s.state + 1 + 1 := by omega
      rw [decode_eq hj h46 hlo hhi, decodeBit, if_pos hd, advance, close, if_neg hne]
      exact ⟨_, rfl, Or.inr ⟨hnext, by simp only; omega, Nat.one_ne_zero⟩⟩
    · refine ⟨s.reset, ?_, Or.inl rfl⟩
      rw [decode, if_neg (by omega)]
      simp only
      rw [if_neg (by omega), if_neg (by omega), if_neg (by omega)]
  · exact ⟨s.reset, decode_outside hwithin (fun h => hhi h.2), Or.inl rfl⟩

/-- So it stays misaligned until it is reset. -/
theorem decode_misaligned (hs : Misaligned s) (d : ℕ) :
    ∃ t, decode b s d = (t, none) ∧ Lost t := by
  by_cases hd : d ≤ min3Period
  · exact ⟨s.reset, decode_misaligned_short hs hd, Or.inl rfl⟩
  · exact decode_long_odd hs.2.1 hs.1 (Nat.lt_of_not_le hd)

/-- A lost decoder never completes the frame. -/
theorem not_emits_of_lost (hs : Lost s) :
    ¬Mealy.EmitsAtEnd (decode b) Decoder.Within s ds := by
  intro h
  induction ds generalizing s with
  | nil => cases h
  | cons d ds ih =>
      rcases hs with hreset | hs
      · exact not_emits_of_reset hreset h
      · rcases decode_misaligned (b := b) hs d with ⟨t, hstep, ht⟩
        rw [emits_cons_of_none hs.1 hstep] at h
        exact ih ht h

/-- In the middle of a 0 the next pulse has to be its second half. -/
theorem short_of_emits (hodd : s.state % 2 = 1)
    (h : Mealy.EmitsAtEnd (decode b) Decoder.Within s (d :: ds)) : d ≤ min3Period := by
  by_contra hlong
  have hwithin := (inside_of_emits h).1
  rcases decode_long_odd (b := b) hodd hwithin (Nat.lt_of_not_le hlong) with ⟨t, hstep, ht⟩
  rw [emits_cons_of_none hwithin hstep] at h
  exact not_emits_of_lost ht h

/-! ## Aligned runs -/

/-- A bit's word may be read first, and the rest of the run belongs to the bits that are left. -/
theorem emits_word_append (hk : k < 23) (hs : s.state = 2 * k) {bit : Bool} {w : List ℕ}
    (hw : Word bit w) :
    ∃ t : Decoder, t.state = 2 * ((k + 1 : ℕ) : ℤ) ∧ ∀ ds,
      Mealy.EmitsAtEnd (decode b) Decoder.Within s (w ++ ds) ↔
        (k = 22 ∧ ds = []) ∨
          (k ≠ 22 ∧ Mealy.EmitsAtEnd (decode b) Decoder.Within t ds) := by
  have hwithin : s.Within := by
    unfold Decoder.Within
    omega
  have hstate : s.state + 1 + 1 = 2 * ((k + 1 : ℕ) : ℤ) := by push_cast; omega
  have hlast : s.state + 1 + 1 = 46 ↔ k = 22 := by omega
  -- a 1 moves on by two at once, a 0 by one and then by one more
  cases hw with
  | @one d hlo hhi =>
      refine ⟨{ s with
        state := s.state + 1 + 1, receivedBit := 1,
        receivedCode := pushBit k s.receivedCode true }, hstate, fun ds => ?_⟩
      rw [List.singleton_append, emits_cons_of_close hwithin (decode_long hk hs hlo hhi)]
      simp only [ne_eq, hlast]
  | @zero d e hd hd' he he' =>
      have hodd : s.state + 1 = 2 * (k : ℤ) + 1 := by rw [hs]
      have hwithin' : Decoder.Within { s with state := s.state + 1, receivedBit := 0 } := by
        simp only [Decoder.Within]
        omega
      have hsecond := decode_second (b := b)
        (s := { s with state := s.state + 1, receivedBit := 0 }) hk hodd rfl he he'
      refine ⟨{ s with
        state := s.state + 1 + 1, receivedBit := 0,
        receivedCode := pushBit k s.receivedCode false }, hstate, fun ds => ?_⟩
      rw [List.cons_append, List.singleton_append,
        emits_cons_of_none hwithin (decode_first hk hs hd hd'),
        emits_cons_of_close hwithin' hsecond]
      simp only [ne_eq, hlast]

/-- At the start of a bit such a run begins with a word. -/
theorem exists_word_of_emits (hk : k < 23) (hs : s.state = 2 * k)
    (h : Mealy.EmitsAtEnd (decode b) Decoder.Within s ds) :
    ∃ bit w rest, Word bit w ∧ ds = w ++ rest := by
  cases ds with
  | nil => cases h
  | cons d ds =>
      rcases inside_of_emits h with ⟨hwithin, hlo, hhi⟩
      by_cases hlong : min3Period < d
      · exact ⟨true, [d], ds, Word.one hlong hhi, rfl⟩
      · rw [emits_cons_of_none hwithin (decode_first hk hs hlo (Nat.le_of_not_lt hlong))] at h
        cases ds with
        | nil => cases h
        | cons e ds =>
            have hshort := short_of_emits (by simp only; omega) h
            exact ⟨false, [d, e], ds,
              Word.zero hlo (Nat.le_of_not_lt hlong) (inside_of_emits h).2.1 hshort, rfl⟩

/-- From the start of the `k`-th bit on, the runs that end with a completed frame are the words of
the bits that are left. -/
theorem emits_iff_words (hk : k < 23) (hs : s.state = 2 * k) :
    Mealy.EmitsAtEnd (decode b) Decoder.Within s ds ↔
      ∃ bs ws, k + bs.length = 23 ∧ List.Forall₂ Word bs ws ∧ ws.flatten = ds := by
  -- induction on the bits that are left
  obtain ⟨n, hn⟩ : ∃ n, k + (n + 1) = 23 := ⟨22 - k, by omega⟩
  induction n generalizing k s ds with
  | zero =>
      constructor
      · intro h
        rcases exists_word_of_emits hk hs h with ⟨bit, w, rest, hw, rfl⟩
        rcases emits_word_append (b := b) hk hs hw with ⟨t, -, hiff⟩
        rcases (hiff rest).1 h with ⟨-, rfl⟩ | ⟨hne, -⟩
        · exact ⟨[bit], [w], hn, List.Forall₂.cons hw List.Forall₂.nil, by simp⟩
        · omega
      · rintro ⟨bs, ws, hlen, hws, rfl⟩
        obtain ⟨bit, rfl⟩ : ∃ bit, bs = [bit] := List.length_eq_one_iff.1 (by omega)
        rcases List.forall₂_cons_left_iff.1 hws with ⟨w, ws, hw, hnil, rfl⟩
        rcases List.forall₂_nil_left_iff.1 hnil with rfl
        rcases emits_word_append (b := b) hk hs hw with ⟨t, -, hiff⟩
        rw [List.flatten_cons, hiff]
        exact Or.inl ⟨by omega, rfl⟩
  | succ n ih =>
      have hk' : k + 1 < 23 := by omega
      constructor
      · intro h
        rcases exists_word_of_emits hk hs h with ⟨bit, w, rest, hw, rfl⟩
        rcases emits_word_append (b := b) hk hs hw with ⟨t, ht, hiff⟩
        rcases (hiff rest).1 h with ⟨hlast, -⟩ | ⟨-, hrest⟩
        · omega
        · rcases (ih hk' ht (by omega)).1 hrest with ⟨bs, ws, hlen, hws, rfl⟩
          exact ⟨bit :: bs, w :: ws, by rw [List.length_cons]; omega,
            List.Forall₂.cons hw hws, rfl⟩
      · rintro ⟨bs, ws, hlen, hws, rfl⟩
        cases hws with
        | nil => rw [List.length_nil] at hlen; omega
        | @cons bit w bs ws hw hws =>
            rw [List.length_cons] at hlen
            rcases emits_word_append (b := b) hk hs hw with ⟨t, ht, hiff⟩
            rw [List.flatten_cons, hiff]
            exact Or.inr ⟨by omega, (ih hk' ht (by omega)).2 ⟨bs, ws, by omega, hws, rfl⟩⟩

/-! ## After a start pulse -/

/-- The decoder stays within the frame that the start pulse began and completes it at the last
interval exactly if the intervals are the words of 23 bits; the code is that of these bits. -/
theorem accepts_iff_coded {gap : ℕ} (hs : s.state = -1) (hlo : 440 < b.uint gap)
    (hhi : b.uint gap < 600) (ds : List ℕ) :
    (Mealy.EmitsAtEnd (decode b) Decoder.Within (decode b s gap).1 ds ↔ ∃ bs, Coded bs ds) ∧
      ∀ bs, Coded bs ds →
        codes (Mealy.events (decode b) (decode b s gap).1 ds) = [frameCode bs] := by
  rcases decode_start hs hlo hhi with ⟨⟨hstate, -, -⟩, hquiet⟩
  constructor
  · rw [emits_iff_words (k := 0) (by decide) hstate]
    constructor
    · rintro ⟨bs, ws, hlen, hws, hds⟩
      exact ⟨bs, by omega, ws, hws, hds⟩
    · rintro ⟨bs, hlen, ws, hws, hds⟩
      exact ⟨bs, ws, by omega, hws, hds⟩
  · rintro bs ⟨hlen, ws, hws, rfl⟩
    have hevents := (run_frame hs hlo hhi hlen hws).2
    rw [Mealy.events_cons, hquiet, Option.toList_none, List.nil_append] at hevents
    rw [hevents]
    rfl

/-- 23 long pulses after a start pulse. -/
theorem accepts_ones :
    Mealy.EmitsAtEnd (decode .avr) Decoder.Within (decode .avr (init 1 0).decoder 500).1
      (List.replicate 23 300) :=
  (accepts_iff_coded (b := .avr) (s := (init 1 0).decoder) rfl (by decide) (by decide) _).1.2
    ⟨_, rfl, _, Mealy.forall₂_replicate (Word.one (d := 300) (by decide) (by decide)) 23, rfl⟩

/-- If the decoder may fall out of the frame, a spike and a second start pulse may come in front of
the words. -/
theorem not_accepts_iff_coded :
    ¬∀ (b : Board) (s : Decoder) (gap : ℕ), s.state = -1 → 440 < b.uint gap → b.uint gap < 600 →
      ∀ ds, Mealy.EmitsAtEnd (decode b) (fun _ => True) (decode b s gap).1 ds ↔
        ∃ bs, Coded bs ds := by
  intro h
  have hwords := Mealy.forall₂_replicate (Word.one (d := 300) (by decide) (by decide)) 23
  have hframe : Mealy.EmitsAtEnd (decode .avr) (fun _ => True)
      (decode .avr (decode .avr (decode .avr (init 1 0).decoder 500).1 50).1 500).1
      (List.replicate 23 [300]).flatten :=
    ((emits_iff_words (k := 0) (by decide) rfl).2
      ⟨_, _, rfl, hwords, rfl⟩).mono fun _ _ => trivial
  have hemits := Mealy.EmitsAtEnd.more trivial rfl (Mealy.EmitsAtEnd.more trivial rfl hframe)
  rcases (h .avr (init 1 0).decoder 500 rfl (by decide) (by decide) _).1 hemits with ⟨bs, hcoded⟩
  have hspike := hcoded.inside 50 (by simp)
  exact absurd hspike (by decide)

end Livolo
end LamPI
