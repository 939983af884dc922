import LamPI.Wt440.Consecutive
import LamPI.Windows

/-!
# Alignment of WT440 frames

The state counts half bits, and a long pulse moves it by two wherever it comes.  So a long pulse
between two short ones is taken for half of one bit and half of the next.  Two more things get into
a frame that do not belong there: intervals beyond 65535 µs, which pass one of the two width tests
at their full length, and what the fields held before a frame that begins in state 0.
-/

namespace LamPI
namespace Wt440

open PulseLine BigEndian

/-! ## What a coded frame is -/

/-- The intervals of a bit, by their widths modulo 65536. -/
inductive CodeWord : Bool → List ℕ → Prop
  | one {d e : ℕ} (hd : min1period ≤ d % 65536) (hd' : d % 65536 ≤ max1period)
      (he : min1period ≤ e % 65536) (he' : e % 65536 ≤ max1period) : CodeWord true [d, e]
  | zero {d : ℕ} (hd : min2period ≤ d % 65536) (hd' : d % 65536 ≤ max2period) :
      CodeWord false [d]

def Message.frame (x : Message) : List Bool := [true, true, false, false] ++ x.bits

def Message.CodedAs (x : Message) (w : List ℕ) : Prop :=
  ∃ ws, List.Forall₂ CodeWord x.frame ws ∧ ws.flatten = w

/-- Every 32 bits are those of a message. -/
theorem exists_message {bs : List Bool} (h : bs.length = 32) : ∃ x : Message, x.bits = bs := by
  -- the first `n` bits are the value of a field
  have hfield : ∀ (n : ℕ) (as : List Bool), n ≤ as.length →
      BigEndian.bits n (ofBits (as.take n)) = as.take n ∧ ofBits (as.take n) < 2 ^ n := by
    intro n as hn
    have hlen : (as.take n).length = n := List.length_take_of_le hn
    refine ⟨?_, ?_⟩
    · have hbits := bits_ofBits (as.take n)
      rwa [hlen] at hbits
    · have hlt := ofBits_lt (as.take n)
      rwa [hlen] at hlt
  rcases hfield 4 bs (by omega) with ⟨ha, ha'⟩
  rcases hfield 2 (bs.drop 4) (by simp [h]) with ⟨hc, hc'⟩
  rcases hfield 3 ((bs.drop 4).drop 2) (by simp [h]) with ⟨hw, hw'⟩
  rcases hfield 7 (((bs.drop 4).drop 2).drop 3) (by simp [h]) with ⟨hh, hh'⟩
  rcases hfield 15 ((((bs.drop 4).drop 2).drop 3).drop 7) (by simp [h]) with
    ⟨ht, ht'⟩
  obtain ⟨p, hp⟩ : ∃ p, ((((bs.drop 4).drop 2).drop 3).drop 7).drop 15 = [p] :=
    List.length_eq_one_iff.1 (by simp [h])
  refine ⟨⟨⟨_, ha'⟩, ⟨_, hc'⟩, ⟨_, hw'⟩, ⟨_, hh'⟩, ⟨_, ht'⟩, p⟩, ?_⟩
  simp only [Message.bits]
  rw [ha, hc, hw, hh, ht, ← hp, List.take_append_drop, List.take_append_drop,
    List.take_append_drop, List.take_append_drop, List.take_append_drop]

/-! ## The condition -/

/-- No long pulse comes where the decoder, starting from `s`, has read half of a bit. -/
def Aligned (s : Decoder) (w : List ℕ) : Prop :=
  ∀ pre d post, w = pre ++ d :: post →
    (Mealy.final decode s pre).state % 2 = 1 → d % 65536 ≤ max1period

/-- No interval is too short for a pulse modulo 65536. -/
def NoAlias (w : List ℕ) : Prop := ∀ d ∈ w, min1period ≤ d % 65536

/-- The frame begins with an empty code, or one that is shifted out. -/
def Decoder.Clean (s : Decoder) : Prop := s.state = -1 ∨ s.receivedCode.Clears

variable {s : Decoder} {w : List ℕ} {d k : ℕ} {x : Message} {c : Code}

theorem aligned_nil (s : Decoder) : Aligned s [] := by
  intro pre d post hsplit
  cases pre <;> cases hsplit

theorem aligned_cons :
    Aligned s (d :: w) ↔
      (s.state % 2 = 1 → d % 65536 ≤ max1period) ∧ Aligned (decode s d).1 w := by
  constructor
  · intro h
    refine ⟨h [] d w rfl, ?_⟩
    intro pre e post hsplit
    exact h (d :: pre) e post (by rw [hsplit]; rfl)
  · rintro ⟨hfirst, hrest⟩ pre e post hsplit
    cases pre with
    | nil =>
        obtain ⟨rfl, rfl⟩ : d = e ∧ w = post := by simpa using hsplit
        exact hfirst
    | cons d' pre =>
        obtain ⟨rfl, rfl⟩ : d = d' ∧ w = pre ++ e :: post := by simpa using hsplit
        exact hrest pre e post rfl

theorem aligned_append {v : List ℕ} :
    Aligned s (v ++ w) ↔ Aligned s v ∧ Aligned (Mealy.final decode s v) w := by
  induction v generalizing s with
  | nil => exact (and_iff_right (aligned_nil s)).symm
  | cons d v ih =>
      rw [List.cons_append, aligned_cons, aligned_cons, ih, and_assoc, Mealy.final_cons]

/-! ## The leader -/

theorem takes_of_completes {p : ℤ} (h : Scanner.Completes next p (d :: w)) : Takes p d := by
  by_contra hnot
  rw [Scanner.Completes, next, if_neg hnot] at h
  exact h

/-- A frame that is not over yet goes on from the state that the interval leads to. -/
theorem completes_cons {p : ℤ} (h : Scanner.Completes next p (d :: w))
    (hlt : position p + halfBits (position p) (d % 65536) < 72) :
    Takes p d ∧
      Scanner.Completes next (position p + halfBits (position p) (d % 65536)) w := by
  have htakes := takes_of_completes h
  have hgo : next p d = .go (position p + halfBits (position p) (d % 65536)) := by
    rw [next, if_pos htakes, if_neg (Int.not_le.2 hlt)]
  rw [Scanner.completes_cons_go hgo] at h
  exact ⟨htakes, h⟩

/-- The four short pulses at the start of a frame, one by one. -/
theorem short_of_completes {j : ℤ} (h0 : 0 ≤ j) (h4 : j < 4)
    (h : Scanner.Completes next j w) :
    ∃ d w', w = d :: w' ∧ Short d ∧ Scanner.Completes next (j + 1) w' := by
  rcases w with _ | ⟨d, w⟩
  · exact absurd rfl h.ne_nil
  have hposition : position j = j := max_eq_left h0
  have hhalf : halfBits j (d % 65536) = 1 := if_pos h4
  rcases completes_cons h (by rw [hposition, hhalf]; omega) with ⟨htakes, hrest⟩
  rw [hposition, hhalf] at hrest
  rw [Takes, if_neg (by omega)] at htakes
  exact ⟨d, w, rfl, ⟨htakes.1, htakes.2.2.1 h4⟩, hrest⟩

/-- The two long ones behind them. -/
theorem syncPulse_of_completes {j : ℤ} (h4 : 4 ≤ j) (h8 : j < 8) (h : Scanner.Completes next j w) :
    ∃ d w', w = d :: w' ∧ SyncPulse d ∧ Scanner.Completes next (j + 2) w' := by
  rcases w with _ | ⟨d, w⟩
  · exact absurd rfl h.ne_nil
  have hposition : position j = j := max_eq_left (by omega)
  have hhalf : halfBits j (d % 65536) = 2 := by rw [halfBits, if_neg (by omega), if_pos h8]
  rcases completes_cons h (by rw [hposition, hhalf]; omega) with ⟨htakes, hrest⟩
  rw [hposition, hhalf] at hrest
  rw [Takes, if_neg (by omega)] at htakes
  exact ⟨d, w, rfl, ⟨htakes.2.2.2 h4 h8, htakes.2.1⟩, hrest⟩

/-- Every frame begins with the leader. -/
theorem leader_of_completes {p : ℤ} (hp : Start p) (h : Scanner.Completes next p w) :
    ∃ d₁ d₂ d₃ d₄ d₅ d₆ rest, w = [d₁, d₂, d₃, d₄, d₅, d₆] ++ rest ∧ (p = -1 → First d₁) ∧
      Short d₁ ∧ Short d₂ ∧ Short d₃ ∧ Short d₄ ∧ SyncPulse d₅ ∧ SyncPulse d₆ ∧
      Scanner.Completes next 8 rest := by
  -- the first pulse leads to state 1 from both of the states that a frame begins in
  obtain ⟨d₁, w₁, rfl, hfirst, h₁, hrest₁⟩ : ∃ d₁ w₁, w = d₁ :: w₁ ∧ (p = -1 → First d₁) ∧
      Short d₁ ∧ Scanner.Completes next 1 w₁ := by
    rcases hp with rfl | rfl
    · rcases w with _ | ⟨d, w⟩
      · exact absurd rfl h.ne_nil
      have hhalf : position (-1) + halfBits (position (-1)) (d % 65536) = 1 := rfl
      rcases completes_cons h (by rw [hhalf]; decide) with ⟨htakes, hrest⟩
      rw [Takes, if_pos rfl] at htakes
      rw [hhalf] at hrest
      exact ⟨d, w, rfl, fun _ => htakes, htakes.short, hrest⟩
    · rcases short_of_completes (by decide) (by decide) h with ⟨d, w', rfl, hd, hrest⟩
      exact ⟨d, w', rfl, fun h => absurd h (by decide), hd, hrest⟩
  rcases short_of_completes (by decide) (by decide) hrest₁ with ⟨d₂, w₂, rfl, h₂, hrest₂⟩
  rcases short_of_completes (by decide) (by decide) hrest₂ with ⟨d₃, w₃, rfl, h₃, hrest₃⟩
  rcases short_of_completes (by decide) (by decide) hrest₃ with ⟨d₄, w₄, rfl, h₄, hrest₄⟩
  rcases syncPulse_of_completes (by decide) (by decide) hrest₄ with ⟨d₅, w₅, rfl, h₅, hrest₅⟩
  rcases syncPulse_of_completes (by decide) (by decide) hrest₅ with ⟨d₆, w₆, rfl, h₆, hrest₆⟩
  exact ⟨d₁, d₂, d₃, d₄, d₅, d₆, w₆, rfl, hfirst, h₁, h₂, h₃, h₄, h₅, h₆, hrest₆⟩

/-- The decoder moves as the positions do. -/
theorem state_of_next {q : ℤ} (hs : s.Running) (h : next s.state d = .go q) :
    (decode s d).1.Running ∧ (decode s d).1.state = q :=
  ⟨tracks_decode.step_inv s d hs, (tracks_decode.go s d q hs h).2.1⟩

def Decoder.afterLeader (s : Decoder) : Code :=
  if s.state = -1 then leaderCode else leaderStores s.receivedCode

theorem run_leader_of_start (hs : s.Running) (hstart : Start s.state) {d₁ d₂ d₃ d₄ d₅ d₆ : ℕ}
    (hfirst : s.state = -1 → First d₁) (h₁ : Short d₁) (h₂ : Short d₂) (h₃ : Short d₃)
    (h₄ : Short d₄) (h₅ : SyncPulse d₅) (h₆ : SyncPulse d₆) :
    InFrame s.filter 4 s.afterLeader (Mealy.final decode s [d₁, d₂, d₃, d₄, d₅, d₆]) ∧
      Mealy.events decode s [d₁, d₂, d₃, d₄, d₅, d₆] = [] := by
  unfold Decoder.afterLeader
  rcases hstart with hwait | hzero
  · rw [if_pos hwait]
    exact run_leader hwait hs.1 (hfirst hwait) h₂ h₃ h₄ h₅ h₆
  · rw [if_neg (by omega)]
    exact run_leader_again hzero hs.1 h₁ h₂ h₃ h₄ h₅ h₆

/-- The states that the leader goes through, of which those of the long pulses are even. -/
theorem aligned_leader (hs : s.Running) (hstart : Start s.state) {d₁ d₂ d₃ d₄ d₅ d₆ : ℕ}
    (hfirst : s.state = -1 → First d₁) (h₁ : Short d₁) (h₂ : Short d₂) (h₃ : Short d₃)
    (h₄ : Short d₄) (h₅ : SyncPulse d₅) :
    Aligned s [d₁, d₂, d₃, d₄, d₅, d₆] := by
  have hnext₁ : next s.state d₁ = .go 1 := by
    rcases hstart with hwait | hzero
    · rw [hwait, next_first (hfirst hwait)]
    · rw [hzero]
      exact next_short (by decide) (by decide) (by decide) h₁
  rcases state_of_next hs hnext₁ with ⟨hs₁, hstate₁⟩
  rcases state_of_next (q := 2) (d := d₂) hs₁
    (by rw [hstate₁]; exact next_short (by decide) (by decide) (by decide) h₂) with ⟨hs₂, hstate₂⟩
  rcases state_of_next (q := 3) (d := d₃) hs₂
    (by rw [hstate₂]; exact next_short (by decide) (by decide) (by decide) h₃) with ⟨hs₃, hstate₃⟩
  rcases state_of_next (q := 4) (d := d₄) hs₃
    (by rw [hstate₃]; exact next_short (by decide) (by decide) (by decide) h₄) with ⟨hs₄, hstate₄⟩
  rcases state_of_next (q := 6) (d := d₅) hs₄
    (by rw [hstate₄]; exact next_sync (by decide) (by decide) h₅) with ⟨-, hstate₅⟩
  -- the sync pulse is the whole of a bit, so the next one begins on an even state too
  rw [aligned_cons, aligned_cons, aligned_cons, aligned_cons, aligned_cons, aligned_cons, hstate₄,
    hstate₅]
  exact ⟨fun _ => h₁.2, fun _ => h₂.2, fun _ => h₃.2, fun _ => h₄.2,
    fun h => absurd h (by decide), fun h => absurd h (by decide), aligned_nil _⟩

/-! ## The fields -/

def pulseHalves (d : ℕ) : ℤ := if max1period < d % 65536 then 2 else 1

/-- Behind the leader an interval goes on with the frame, or ends it. -/
theorem completes_payload {q : ℤ} (h8 : 8 ≤ q) (h : Scanner.Completes next q (d :: w)) :
    min1period ≤ d ∧ d % 65536 ≤ max2period ∧
      (72 ≤ q + pulseHalves d ∧ w = [] ∨
        next q d = .go (q + pulseHalves d) ∧ Scanner.Completes next (q + pulseHalves d) w) := by
  have hposition : position q = q := max_eq_left (by omega)
  have hhalf : halfBits q (d % 65536) = pulseHalves d := by
    rw [halfBits, if_neg (by omega), if_neg (by omega)]
    rfl
  have htakes : Takes q d := takes_of_completes h
  rw [Scanner.Completes, next, if_pos htakes, hposition, hhalf] at h
  have hwidth := htakes
  rw [Takes, if_neg (by omega)] at hwidth
  refine ⟨hwidth.1, hwidth.2.1, ?_⟩
  by_cases hend : 72 ≤ q + pulseHalves d
  · rw [if_pos hend] at h
    exact Or.inl ⟨hend, h⟩
  · rw [if_neg hend] at h
    refine Or.inr ⟨?_, h⟩
    rw [next, if_pos htakes, hposition, hhalf, if_neg hend]

/-- If the intervals are code words, the decoder reads them as the code words of the same bits: a
pulse of 1500 µs, which it may take for half a bit less, would be missing at the end. -/
theorem words_of_codeWords {bs : List Bool} {ws : List (List ℕ)}
    (hws : List.Forall₂ CodeWord bs ws) (hlen : k + bs.length = 36) {q : ℤ} (h8 : 8 ≤ q)
    (hq : q ≤ 2 * k) (hc : Scanner.Completes next q ws.flatten) :
    q = 2 * k ∧ List.Forall₂ Word bs ws := by
  -- induction on the words; `q` is the state, at most the number of half bits so far
  induction hws generalizing k q with
  | nil => exact absurd rfl hc.ne_nil
  | @cons bit w bs ws hw hws ih =>
      rw [List.length_cons] at hlen
      -- at the end of the frame there are no more words
      have hlast : 35 ≤ k → List.Forall₂ Word bs ws := by
        intro hk
        obtain rfl : bs = [] := List.eq_nil_of_length_eq_zero (by omega)
        cases hws
        exact List.Forall₂.nil
      have hrest : ∀ {r : ℤ}, 8 ≤ r → r ≤ 2 * (k + 1 : ℕ) →
          Scanner.Completes next r ws.flatten → r = 2 * (k + 1 : ℕ) ∧ List.Forall₂ Word bs ws :=
        fun h8 hr hc => ih (by omega) h8 hr hc
      rw [List.flatten_cons] at hc
      cases hw with
      | @one d e hd hd' he he' =>
          have hhalf : pulseHalves d = 1 ∧ pulseHalves e = 1 :=
            ⟨if_neg (Nat.not_lt.2 hd'), if_neg (Nat.not_lt.2 he')⟩
          rcases completes_payload h8 hc with ⟨hmin, -, hstep⟩
          rw [hhalf.1] at hstep
          have hsecond := (hstep.resolve_left (by omega)).2
          rcases completes_payload (by omega) hsecond with ⟨hmin', -, hstep'⟩
          rw [hhalf.2] at hstep'
          have hword : Word true [d, e] := Word.one ⟨hmin, hd'⟩ ⟨hmin', he'⟩
          rcases hstep' with ⟨hend, -⟩ | ⟨-, hgo⟩
          · exact ⟨by omega, List.Forall₂.cons hword (hlast (by omega))⟩
          · rcases hrest (by omega) (by omega) hgo with ⟨hr, hwords⟩
            exact ⟨by omega, List.Forall₂.cons hword hwords⟩
      | @zero d hd hd' =>
          rcases completes_payload h8 hc with ⟨hmin, -, hstep⟩
          by_cases hlong : max1period < d % 65536
          · have hhalf : pulseHalves d = 2 := if_pos hlong
            have hword : Word false [d] := Word.zero ⟨hlong, hd'⟩
            rw [hhalf] at hstep
            rcases hstep with ⟨hend, -⟩ | ⟨-, hgo⟩
            · exact ⟨by omega, List.Forall₂.cons hword (hlast (by omega))⟩
            · rcases hrest (by omega) (by omega) hgo with ⟨hr, hwords⟩
              exact ⟨by omega, List.Forall₂.cons hword hwords⟩
          · -- half a bit is missing from here on
            have hhalf : pulseHalves d = 1 := if_neg hlong
            rw [hhalf] at hstep
            rcases hstep with ⟨hend, -⟩ | ⟨-, hgo⟩
            · omega
            · have hr := (hrest (by omega) (by omega) hgo).1
              omega

/-- The code words of a frame's bits keep the decoder aligned. -/
theorem aligned_words {bs : List Bool} {ws : List (List ℕ)} (hws : List.Forall₂ Word bs ws)
    (hk : 4 ≤ k) (hlen : k + bs.length = 36) (hs : s.Running) (hstate : s.state = 2 * k) :
    Aligned s ws.flatten := by
  induction hws generalizing k s with
  | nil => exact aligned_nil s
  | @cons bit w bs ws hw hws ih =>
      rw [List.length_cons] at hlen
      -- behind the last word there is nothing
      have hrest : ∀ {t : Decoder}, (k < 35 → t.Running ∧ t.state = 2 * (k + 1 : ℕ)) →
          Aligned t ws.flatten := by
        intro t ht
        by_cases hk35 : k < 35
        · exact ih (by omega) (by omega) (ht hk35).1 (ht hk35).2
        · obtain rfl : bs = [] := List.eq_nil_of_length_eq_zero (by omega)
          cases hws
          exact aligned_nil t
      rw [List.flatten_cons]
      cases hw with
      | @zero d hd =>
          rw [List.singleton_append, aligned_cons]
          refine ⟨fun hodd => by omega, hrest fun hk35 => ?_⟩
          have hnext : next s.state d = .go (2 * (k + 1 : ℕ)) := by
            rw [next_long (by omega) (by omega) hd, hstate]
            congr 1
          exact state_of_next hs hnext
      | @one d e hd he =>
          have hnext : next s.state d = .go (2 * k + 1) := by
            rw [next_short (by omega) (by omega) (by omega) hd, hstate]
          rcases state_of_next hs hnext with ⟨hs', hstate'⟩
          rw [List.cons_append, List.singleton_append, aligned_cons, aligned_cons]
          refine ⟨fun hodd => by omega, fun _ => he.2, hrest fun hk35 => ?_⟩
          have hnext' : next (decode s d).1.state e = .go (2 * (k + 1 : ℕ)) := by
            rw [next_short (by omega) (by omega) (by omega) he, hstate']
            congr 1
          exact state_of_next hs' hnext'

/-- An aligned frame goes on with a code word, behind which it is aligned again or over. -/
theorem exists_word (hk : 4 ≤ k) (hk' : k < 36) (hs : s.Running) (hstate : s.state = 2 * k)
    (hc : Scanner.Completes next s.state w) (ha : Aligned s w) :
    ∃ bit v rest, Word bit v ∧ w = v ++ rest ∧ (k = 35 → rest = []) ∧
      (k < 35 → ∃ t : Decoder, t.Running ∧ t.state = 2 * (k + 1 : ℕ) ∧
        Scanner.Completes next t.state rest ∧ Aligned t rest) := by
  rcases w with _ | ⟨d, w⟩
  · exact absurd rfl hc.ne_nil
  rcases completes_payload (by omega) hc with ⟨hmin, hmax, hstep⟩
  have halign := (aligned_cons.1 ha).2
  by_cases hlong : max1period < d % 65536
  · have hhalf : pulseHalves d = 2 := if_pos hlong
    rw [hhalf] at hstep
    refine ⟨false, [d], w, Word.zero ⟨hlong, hmax⟩, rfl, fun hk35 => ?_, fun hk35 => ?_⟩
    · rcases hstep with ⟨-, hnil⟩ | ⟨hgo, -⟩
      · exact hnil
      · have hlt := (next_go hgo).2.2
        omega
    · rcases hstep with ⟨hend, -⟩ | ⟨hgo, hrest⟩
      · omega
      · rcases state_of_next hs hgo with ⟨hs', hstate'⟩
        rw [← hstate'] at hrest
        exact ⟨_, hs', by rw [hstate']; omega, hrest, halign⟩
  · -- the first half of a 1: the next pulse is short, too
    have hhalf : pulseHalves d = 1 := if_neg hlong
    rw [hhalf] at hstep
    rcases hstep.resolve_left (by omega) with ⟨hgo, hrest⟩
    rcases state_of_next hs hgo with ⟨hs', hstate'⟩
    rcases w with _ | ⟨e, w⟩
    · exact absurd rfl hrest.ne_nil
    rcases completes_payload (by omega) hrest with ⟨hmin', -, hstep'⟩
    rw [aligned_cons] at halign
    have hshort := halign.1 (by omega)
    have hhalf' : pulseHalves e = 1 := if_neg (Nat.not_lt.2 hshort)
    rw [hhalf'] at hstep'
    have hword : Word true [d, e] :=
      Word.one ⟨hmin, Nat.le_of_not_lt hlong⟩ ⟨hmin', hshort⟩
    refine ⟨true, [d, e], w, hword, rfl, fun hk35 => ?_, fun hk35 => ?_⟩
    · rcases hstep' with ⟨-, hnil⟩ | ⟨hgo', -⟩
      · exact hnil
      · have hlt := (next_go hgo').2.2
        omega
    · rcases hstep' with ⟨hend, -⟩ | ⟨hgo', hrest'⟩
      · omega
      · rw [← hstate'] at hgo'
        rcases state_of_next hs' hgo' with ⟨hs'', hstate''⟩
        rw [← hstate', ← hstate''] at hrest'
        exact ⟨_, hs'', by rw [hstate'']; omega, hrest', halign.2⟩

/-- So an aligned frame consists of code words. -/
theorem words_of_aligned {n : ℕ} (hk : 4 ≤ k) (hn : k + (n + 1) = 36) (hs : s.Running)
    (hstate : s.state = 2 * k) (hc : Scanner.Completes next s.state w) (ha : Aligned s w) :
    ∃ bs ws, bs.length = n + 1 ∧ List.Forall₂ Word bs ws ∧ ws.flatten = w := by
  induction n generalizing k s w with
  | zero =>
      rcases exists_word hk (by omega) hs hstate hc ha with ⟨bit, v, rest, hv, rfl, hlast, -⟩
      exact ⟨[bit], [v], rfl, List.Forall₂.cons hv List.Forall₂.nil, by simp [hlast (by omega)]⟩
  | succ n ih =>
      rcases exists_word hk (by omega) hs hstate hc ha with ⟨bit, v, rest, hv, rfl, -, hmore⟩
      rcases hmore (by omega) with ⟨t, ht, htstate, htc, hta⟩
      rcases ih (by omega) (by omega) ht htstate htc hta with ⟨bs, ws, hlen, hws, rfl⟩
      exact ⟨bit :: bs, v :: ws, by rw [List.length_cons, hlen], List.Forall₂.cons hv hws, rfl⟩

/-! ## The code -/

theorem clears_afterLeader (hstart : Start s.state) : s.afterLeader.Clears ↔ s.Clean := by
  unfold Decoder.afterLeader Decoder.Clean
  rcases hstart with hwait | hzero
  · rw [if_pos hwait]
    exact iff_of_true ⟨rfl, rfl, rfl, rfl, rfl⟩ (Or.inl hwait)
  · have hne : s.state ≠ -1 := by omega
    rw [if_neg hne, leaderStores_eq]
    exact (or_iff_right hne).symm

/-- What a frame of code words completes. -/
theorem code_of_words (hs : s.Running) (hstart : Start s.state) {d₁ d₂ d₃ d₄ d₅ d₆ : ℕ}
    (hfirst : s.state = -1 → First d₁) (h₁ : Short d₁) (h₂ : Short d₂) (h₃ : Short d₃)
    (h₄ : Short d₄) (h₅ : SyncPulse d₅) (h₆ : SyncPulse d₆) {ws : List (List ℕ)}
    (hws : List.Forall₂ Word x.bits ws) :
    codes (Mealy.events decode s ([d₁, d₂, d₃, d₄, d₅, d₆] ++ ws.flatten)) =
      [s.afterLeader.shift x] := by
  rcases run_leader_of_start hs hstart hfirst h₁ h₂ h₃ h₄ h₅ h₆ with ⟨hleader, hquiet⟩
  have hevents := (run_payload hleader x.length_bits hws).2
  rw [Mealy.events_append, hquiet, hevents, foldlIdx_bits]
  rfl

theorem CodeWord.noAlias {bit : Bool} (h : CodeWord bit w) : NoAlias w := by
  intro d hd
  cases h with
  | one h₁ _ h₂ _ =>
      simp only [List.mem_cons, List.not_mem_nil, or_false] at hd
      rcases hd with rfl | rfl
      · exact h₁
      · exact h₂
  | zero h₁ _ =>
      rw [List.mem_singleton.1 hd]
      exact (show min1period ≤ min2period from by decide).trans h₁

theorem noAlias_flatten {bs : List Bool} {ws : List (List ℕ)}
    (hws : List.Forall₂ CodeWord bs ws) : NoAlias ws.flatten := by
  induction hws with
  | nil =>
      intro d hd
      cases hd
  | cons hw _ ih =>
      intro d hd
      rcases List.mem_append.1 hd with hd | hd
      · exact hw.noAlias d hd
      · exact ih d hd

theorem Word.codeWord {bit : Bool} (h : Word bit w) (hw : NoAlias w) : CodeWord bit w := by
  cases h with
  | one hd he => exact CodeWord.one (hw _ (by simp)) hd.2 (hw _ (by simp)) he.2
  | zero hd => exact CodeWord.zero hd.sync.1 hd.2

theorem codeWords_of_words {bs : List Bool} {ws : List (List ℕ)}
    (hws : List.Forall₂ Word bs ws) (hw : NoAlias ws.flatten) : List.Forall₂ CodeWord bs ws := by
  induction hws with
  | nil => exact List.Forall₂.nil
  | cons hword _ ih =>
      refine List.Forall₂.cons (hword.codeWord fun d hd => hw d ?_) (ih fun d hd => hw d ?_)
      · exact List.mem_append_left _ hd
      · exact List.mem_append_right _ hd

/-- The leader and the words of the payload. -/
theorem codedAs_iff {d₁ d₂ d₃ d₄ d₅ d₆ : ℕ} {rest : List ℕ} :
    x.CodedAs ([d₁, d₂, d₃, d₄, d₅, d₆] ++ rest) ↔
      CodeWord true [d₁, d₂] ∧ CodeWord true [d₃, d₄] ∧ CodeWord false [d₅] ∧
        CodeWord false [d₆] ∧ ∃ ws, List.Forall₂ CodeWord x.bits ws ∧ ws.flatten = rest := by
  constructor
  · rintro ⟨ws, hws, hflat⟩
    -- the bits of the leader fix the lengths of the first four words
    rcases hws with _ | ⟨hw₁, hws⟩
    rcases hws with _ | ⟨hw₂, hws⟩
    rcases hws with _ | ⟨hw₃, hws⟩
    rcases hws with _ | ⟨hw₄, hws⟩
    have hw₁' := hw₁
    have hw₂' := hw₂
    have hw₃' := hw₃
    have hw₄' := hw₄
    cases hw₁
    cases hw₂
    cases hw₃
    cases hw₄
    simp only [List.flatten_cons, List.cons_append, List.nil_append, List.cons.injEq] at hflat
    rcases hflat with ⟨rfl, rfl, rfl, rfl, rfl, rfl, hrest⟩
    exact ⟨hw₁', hw₂', hw₃', hw₄', _, hws, hrest⟩
  · rintro ⟨hw₁, hw₂, hw₃, hw₄, ws, hws, rfl⟩
    exact ⟨[d₁, d₂] :: [d₃, d₄] :: [d₅] :: [d₆] :: ws, List.Forall₂.cons hw₁ (List.Forall₂.cons hw₂
      (List.Forall₂.cons hw₃ (List.Forall₂.cons hw₄ hws))), rfl⟩

/-- A frame is the code words of its bits, and the fields are these bits, if and only if no long
pulse comes in the middle of a bit, no interval is too short modulo 65536, and the code that the
frame was stored into is shifted out. -/
theorem coded_iff (hs : s.Running) (hstart : Start s.state)
    (hc : Scanner.Completes next s.state w) {c : Code}
    (hcode : codes (Mealy.events decode s w) = [c]) :
    (∃ x : Message, x.CodedAs w ∧ x.Fields c) ↔ Aligned s w ∧ NoAlias w ∧ s.Clean := by
  rcases leader_of_completes hstart hc with
    ⟨d₁, d₂, d₃, d₄, d₅, d₆, rest, rfl, hfirst, h₁, h₂, h₃, h₄, h₅, h₆, hrest⟩
  have hleader : Aligned s [d₁, d₂, d₃, d₄, d₅, d₆] :=
    aligned_leader hs hstart hfirst h₁ h₂ h₃ h₄ h₅
  have hin := (run_leader_of_start hs hstart hfirst h₁ h₂ h₃ h₄ h₅ h₆).1
  have hrunning := tracks_decode.final_inv hs [d₁, d₂, d₃, d₄, d₅, d₆]
  have hstate : (Mealy.final decode s [d₁, d₂, d₃, d₄, d₅, d₆]).state = 2 * (4 : ℕ) := hin.1
  -- the words determine the code
  have hshift : ∀ {x : Message} {ws : List (List ℕ)}, List.Forall₂ Word x.bits ws →
      ws.flatten = rest → c = s.afterLeader.shift x := by
    rintro x ws hws rfl
    have hcode' := code_of_words hs hstart hfirst h₁ h₂ h₃ h₄ h₅ h₆ hws
    rw [hcode] at hcode'
    exact List.singleton_injective hcode'
  constructor
  · rintro ⟨x, hcoded, hfields⟩
    rcases codedAs_iff.1 hcoded with ⟨hw₁, hw₂, hw₃, hw₄, ws, hws, rfl⟩
    have hwords := (words_of_codeWords (k := 4) (q := 8) hws (by simp) (by decide) (by decide)
      hrest).2
    refine ⟨?_, ?_, ?_⟩
    · rw [aligned_append]
      exact ⟨hleader, aligned_words hwords (by decide) (by simp) hrunning hstate⟩
    · rcases hcoded with ⟨ws', hws', hflat⟩
      rw [← hflat]
      exact noAlias_flatten hws'
    · rw [hshift hwords rfl, fields_shift_iff] at hfields
      exact (clears_afterLeader hstart).1 hfields
  · rintro ⟨haligned, hnoAlias, hclean⟩
    have hrest' : Scanner.Completes next
        (Mealy.final decode s [d₁, d₂, d₃, d₄, d₅, d₆]).state rest := by
      rw [hstate]
      exact hrest
    rcases words_of_aligned (k := 4) (n := 31) (by decide) (by decide) hrunning hstate hrest'
      (aligned_append.1 haligned).2 with ⟨bs, ws, hlen, hws, rfl⟩
    rcases exists_message hlen with ⟨x, rfl⟩
    have hmin : ∀ d ∈ [d₁, d₂, d₃, d₄, d₅, d₆], min1period ≤ d % 65536 :=
      fun d hd => hnoAlias d (List.mem_append_left _ hd)
    refine ⟨x, codedAs_iff.2 ⟨?_, ?_, ?_, ?_, ws, ?_, rfl⟩, ?_⟩
    · exact CodeWord.one (hmin _ (by simp)) h₁.2 (hmin _ (by simp)) h₂.2
    · exact CodeWord.one (hmin _ (by simp)) h₃.2 (hmin _ (by simp)) h₄.2
    · exact CodeWord.zero h₅.1 h₅.2
    · exact CodeWord.zero h₆.1 h₆.2
    · exact codeWords_of_words hws fun d hd => hnoAlias d (List.mem_append_right _ hd)
    · rw [hshift hws rfl, fields_shift_iff]
      exact (clears_afterLeader hstart).2 hclean

/-- In every run of a receiver, a completed frame is properly coded, and its fields are its bits,
exactly under these three conditions. -/
theorem completed_coded_iff (minRepeats : ℕ) (edge2 : ULong) (pre : List ℕ) (t : ℕ)
    {e : Completion Code}
    (he : (interruptHandler (Mealy.final interruptHandler (init minRepeats edge2) pre) t).2 =
      some e) :
    ∃ before w, measured edge2 (pre ++ [t]) = before ++ w ∧
      Scanner.Window next Start decode Decoder.state (init minRepeats edge2).decoder before w ∧
      ((∃ x : Message, x.CodedAs w ∧ x.Fields e.code) ↔
        Aligned (Mealy.final decode (init minRepeats edge2).decoder before) w ∧ NoAlias w ∧
          (Mealy.final decode (init minRepeats edge2).decoder before).Clean) := by
  rcases Sampled.window_of_event (s := init minRepeats edge2) tracks_decode rfl
      (init_running minRepeats edge2) (Or.inl rfl) he with ⟨before, w, hsplit, hwindow, hevents⟩
  have hs := tracks_decode.final_inv (init_running minRepeats edge2) before
  exact ⟨before, w, hsplit, hwindow, coded_iff hs hwindow.1 hwindow.2 (by rw [hevents]; rfl)⟩

def zeros : List ℕ := stamps 0 (List.replicate 4 1000 ++ List.replicate 33 2000)

theorem completed_coded_zeros :
    ∃ before w, measured (0 : ULong) (zeros ++ [72000]) = before ++ w ∧
      Scanner.Window next Start decode Decoder.state (init 1 0).decoder before w ∧
      ((∃ x : Message, x.CodedAs w ∧ x.Fields { leaderCode with par := true }) ↔
        Aligned (Mealy.final decode (init 1 0).decoder before) w ∧ NoAlias w ∧
          (Mealy.final decode (init 1 0).decoder before).Clean) :=
  completed_coded_iff 1 0 zeros 72000 (e := ⟨{ leaderCode with par := true }, true⟩)
    (by decide +kernel)

/-- A leader, a long pulse between two short ones, and 30 long pulses. -/
def misaligned : List ℕ :=
  List.replicate 4 1000 ++ [2000, 2000, 1000, 2000, 1000] ++ List.replicate 30 2000

/-- The long pulse is taken for the end of one bit and the start of the next. -/
theorem not_completed_coded :
    ¬∀ (minRepeats : ℕ) (edge2 : ULong) (pre : List ℕ) (t : ℕ) (e : Completion Code),
      (interruptHandler (Mealy.final interruptHandler (init minRepeats edge2) pre) t).2 = some e →
      ∃ before w, measured edge2 (pre ++ [t]) = before ++ w ∧
        Scanner.Window next Start decode Decoder.state (init minRepeats edge2).decoder before w ∧
        ∃ x : Message, x.CodedAs w ∧ x.Fields e.code := by
  intro h
  rcases h 1 0 (stamps 0 misaligned).dropLast 72000 ⟨{ leaderCode with address := 4 }, true⟩
    (by decide +kernel) with ⟨before, w, hsplit, hwindow, hcoded⟩
  have hmeasured : measured (0 : ULong) ((stamps 0 misaligned).dropLast ++ [72000]) =
      misaligned := by decide +kernel
  rw [hmeasured] at hsplit
  -- the whole run is one frame
  have hwhole : Scanner.Window next Start decode Decoder.state (init 1 0).decoder [] misaligned :=
    ⟨Or.inl rfl, by decide +kernel⟩
  obtain rfl := tracks_decode.window_unique (init_running 1 0) hwhole hwindow
    (by rw [List.nil_append, hsplit])
  obtain rfl : before = [] := by simpa using hsplit
  have hcode : codes (Mealy.events decode (init 1 0).decoder misaligned) =
      [{ leaderCode with address := 4 }] := by decide +kernel
  have haligned := ((coded_iff (init_running 1 0) hwindow.1 hwindow.2 hcode).1 hcoded).1
  have hshort := haligned (List.replicate 4 1000 ++ [2000, 2000, 1000]) 2000
    (1000 :: List.replicate 30 2000) rfl (by decide +kernel)
  exact absurd hshort (by decide)

end Wt440
end LamPI
