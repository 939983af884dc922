import LamPI.Receiver
import LamPI.Library.EqualRuns
import Mathlib.Data.Nat.Count

/-!
# Repeats — the repeat filter over whole runs

At the end of every frame the receivers count it.  Over a run this gives

- `RepeatFilter.feed` : the completions that a list of codes makes
- `Counts`            : decoders that touch their filter at the end of a frame only
- `Sent`              : the intervals of frames with a pause before each

and `feed_calledBack` says what the byte counter makes of "the last `minRepeats` frames are the
same".
-/

namespace LamPI

open EqualRuns

variable {γ δ φ : Type}

namespace RepeatFilter

/-! ## The filter as a machine of its own -/

def counted (same : γ → γ → Bool) (f : RepeatFilter γ) (cs : List γ) : RepeatFilter γ :=
  cs.foldl (count same) f

/-- The completions that frames with the codes `cs` make. -/
def feed (same : γ → γ → Bool) : RepeatFilter γ → List γ → List (Completion γ)
  | _, [] => []
  | f, c :: cs => (f.count same c).completion c :: feed same (f.count same c) cs

variable {same : γ → γ → Bool} {f : RepeatFilter γ} {c : γ} {cs : List γ}

@[simp] theorem counted_nil : f.counted same [] = f := rfl

@[simp] theorem counted_cons : f.counted same (c :: cs) = (f.count same c).counted same cs := rfl

theorem counted_concat : f.counted same (cs ++ [c]) = (f.counted same cs).count same c := by
  rw [counted, List.foldl_append]
  rfl

@[simp] theorem feed_nil : f.feed same [] = [] := rfl

@[simp] theorem feed_cons : f.feed same (c :: cs) =
    (f.count same c).completion c :: (f.count same c).feed same cs := rfl

@[simp] theorem length_feed : (f.feed same cs).length = cs.length := by
  induction cs generalizing f with
  | nil => rfl
  | cons c cs ih => rw [feed_cons, List.length_cons, List.length_cons, ih]

@[simp] theorem codes_feed : codes (f.feed same cs) = cs := by
  induction cs generalizing f with
  | nil => rfl
  | cons c cs ih =>
      simp only [codes] at ih ⊢
      rw [feed_cons, List.map_cons, ih]
      rfl

theorem counted_minRepeats : (f.counted same cs).minRepeats = f.minRepeats := by
  induction cs generalizing f with
  | nil => rfl
  | cons c cs ih => rw [counted_cons, ih, count_minRepeats]

theorem counted_inCallback : (f.counted same cs).inCallback = f.inCallback := by
  induction cs generalizing f with
  | nil => rfl
  | cons c cs ih => rw [counted_cons, ih, count_inCallback]

/-- The `k`-th completion has the `k`-th code and the counters of the frames up to it. -/
theorem feed_getElem (k : ℕ) (hk : k < (f.feed same cs).length) (hk' : k < cs.length) :
    (f.feed same cs)[k] = (f.counted same (cs.take (k + 1))).completion cs[k] := by
  induction cs generalizing f k with
  | nil => exact absurd hk' (Nat.not_lt_zero k)
  | cons c cs ih =>
      cases k with
      | zero => rfl
      | succ k => exact ih k (Nat.lt_of_succ_lt_succ hk) (Nat.lt_of_succ_lt_succ hk')

/-! ## The counter -/

/-- After a frame that completes a run of same codes, `repeats` is the length of the run, modulo
256, and `previousCode` is one of them. -/
theorem counted_run (hequiv : Equivalence (Same same)) (hzero : f.repeats = 0) (cs : List γ)
    (c : γ) :
    (f.counted same (cs ++ [c])).repeats = trailing same (cs ++ [c]) % 256 ∧
      Same same c (f.counted same (cs ++ [c])).previousCode := by
  induction cs using List.reverseRecOn generalizing c with
  | nil =>
      rw [List.nil_append, trailing_singleton (hequiv.refl c)]
      exact ⟨repeats_count hzero, same_previousCode_count (hequiv.refl c)⟩
  | append_singleton cs d ih =>
      rcases ih d with ⟨hrepeats, hprevious⟩
      rw [counted_concat]
      refine ⟨?_, same_previousCode_count (hequiv.refl c)⟩
      by_cases hsame : Same same c d
      · rw [count_same (hequiv.trans hsame hprevious), trailing_concat_same hequiv hsame]
        simp only [hrepeats, Nat.mod_add_mod]
      · have hother : same c (f.counted same (cs ++ [d])).previousCode = false := by
          rw [Bool.eq_false_iff]
          exact fun h => hsame (hequiv.trans h (hequiv.symm hprevious))
        rw [count_other hother, trailing_concat_other (hequiv.refl c) hsame]

/-- The callback comes when the run, modulo 256, has at least `minRepeats` frames. -/
theorem feed_calledBack (hequiv : Equivalence (Same same)) (hzero : f.repeats = 0)
    (hcallback : f.inCallback = false) (k : ℕ) (hk : k < (f.feed same cs).length) :
    (f.feed same cs)[k].calledBack = true ↔
      f.minRepeats ≤ trailing same (cs.take (k + 1)) % 256 := by
  have hk' : k < cs.length := by rwa [length_feed] at hk
  have hrun := (counted_run hequiv hzero (cs.take k) cs[k]).1
  rw [feed_getElem k hk hk', completion, List.take_add_one, List.getElem?_eq_getElem hk',
    Option.toList_some, reached, counted_minRepeats, counted_inCallback, hrun, hcallback]
  simp

end RepeatFilter

/-! ## Decoders that count their frames -/

inductive RepeatFilter.Step (same : γ → γ → Bool) (f : RepeatFilter γ) :
    RepeatFilter γ → Option (Completion γ) → Prop
  | silent : Step same f f none
  | complete (c : γ) : Step same f (f.count same c) (some ((f.count same c).completion c))

/-- Every step leaves the filter alone or counts a frame. -/
def Counts (decode : δ → ℕ → δ × Option (Completion γ)) (same : γ → γ → Bool)
    (filter : δ → RepeatFilter γ) : Prop :=
  ∀ s gap, RepeatFilter.Step same (filter s) (filter (decode s gap).1) (decode s gap).2

variable {decode : δ → ℕ → δ × Option (Completion γ)} {same : γ → γ → Bool}
  {filter : δ → RepeatFilter γ}

/-- Along a run the filter sees the completed codes and nothing else. -/
theorem Counts.run (h : Counts decode same filter) (s : δ) (gaps : List ℕ) :
    filter (Mealy.final decode s gaps) =
        (filter s).counted same (codes (Mealy.events decode s gaps)) ∧
      Mealy.events decode s gaps = (filter s).feed same (codes (Mealy.events decode s gaps)) := by
  induction gaps generalizing s with
  | nil => exact ⟨rfl, rfl⟩
  | cons gap gaps ih =>
      rcases ih (decode s gap).1 with ⟨hfilter, hevents⟩
      rw [Mealy.final_cons, Mealy.events_cons, codes_append]
      have hstep := h s gap
      generalize hnext : filter (decode s gap).1 = f' at hstep hfilter hevents
      generalize (decode s gap).2 = e at hstep ⊢
      cases hstep with
      | silent => exact ⟨hfilter, hevents⟩
      | complete c => exact ⟨hfilter, congrArg (List.cons _) hevents⟩

/-- `_minRepeats` and the flag `_inCallback` stay as they are. -/
theorem Counts.final_filter (h : Counts decode same filter) (s : δ) (gaps : List ℕ) :
    (filter (Mealy.final decode s gaps)).minRepeats = (filter s).minRepeats ∧
      (filter (Mealy.final decode s gaps)).inCallback = (filter s).inCallback := by
  rw [(h.run s gaps).1]
  exact ⟨RepeatFilter.counted_minRepeats, RepeatFilter.counted_inCallback⟩

/-! ## Frames sent one by one -/

/-- The intervals `ws` are those of the frames `xs`, with a pause before each of them. -/
inductive Sent (Pause : List ℕ → Prop) (Frame : φ → List ℕ → Prop) : List φ → List ℕ → Prop
  | nil : Sent Pause Frame [] []
  | cons {x : φ} {p w : List ℕ} {xs : List φ} {ws : List ℕ} (hpause : Pause p)
      (hframe : Frame x w) (hrest : Sent Pause Frame xs ws) :
      Sent Pause Frame (x :: xs) (p ++ (w ++ ws))

/-- One frame sent again and again. -/
theorem sent_replicate {Pause : List ℕ → Prop} {Frame : φ → List ℕ → Prop} {x : φ}
    {p w : List ℕ} (hpause : Pause p) (hframe : Frame x w) (n : ℕ) :
    Sent Pause Frame (List.replicate n x) (List.replicate n (p ++ w)).flatten := by
  induction n with
  | zero => exact Sent.nil
  | succ n ih =>
      rw [List.replicate_succ, List.replicate_succ, List.flatten_cons, List.append_assoc]
      exact Sent.cons hpause hframe ih

variable (filter)

/-- A decoder that every pause leaves waiting, and that decodes a frame while it waits, hands the
codes of the frames to its filter. -/
theorem Sent.events_eq (Ready Waiting : δ → Prop) {Pause : List ℕ → Prop}
    {Frame : φ → List ℕ → Prop} {code : φ → γ} {xs : List φ} {ws : List ℕ} {s : δ}
    (hpause : ∀ s p, Ready s → Pause p → Waiting (Mealy.final decode s p) ∧
      filter (Mealy.final decode s p) = filter s ∧ Mealy.events decode s p = [])
    (hframe : ∀ s x w, Waiting s → Frame x w → Ready (Mealy.final decode s w) ∧
      filter (Mealy.final decode s w) = (filter s).count same (code x) ∧
      Mealy.events decode s w = [((filter s).count same (code x)).completion (code x)])
    (h : Sent Pause Frame xs ws) (hs : Ready s) :
    Mealy.events decode s ws = (filter s).feed same (xs.map code) := by
  induction h generalizing s with
  | nil => rfl
  | @cons x p w xs ws hp hw _ ih =>
      rcases hpause s p hs hp with ⟨hwaiting, hsame, hquiet⟩
      rcases hframe _ x w hwaiting hw with ⟨hdone, hcount, hout⟩
      rw [Mealy.events_append, Mealy.events_append, hquiet, hout, ih hdone, hcount, hsame]
      rfl

/-- The same for a decoder that ignores the pauses. -/
theorem Sent.events_eq_of_ignored (Waiting : δ → Prop) {Pause : List ℕ → Prop}
    {Frame : φ → List ℕ → Prop} {code : φ → γ} {xs : List φ} {ws : List ℕ} {s : δ}
    (hpause : ∀ s p, Waiting s → Pause p → ∀ d ∈ p, decode s d = (s, none))
    (hframe : ∀ s x w, Waiting s → Frame x w → (Waiting (Mealy.final decode s w) ∧
      filter (Mealy.final decode s w) = (filter s).count same (code x)) ∧
      Mealy.events decode s w = [((filter s).count same (code x)).completion (code x)])
    (h : Sent Pause Frame xs ws) (hs : Waiting s) :
    Mealy.events decode s ws = (filter s).feed same (xs.map code) := by
  refine h.events_eq filter Waiting Waiting (fun s p hs hp => ?_)
    (fun s x w hs hw => and_assoc.1 (hframe s x w hs hw)) hs
  rcases Mealy.run_ignored (hpause s p hs hp) with ⟨hfinal, hquiet⟩
  rw [hfinal]
  exact ⟨hs, rfl, hquiet⟩

variable {filter}

/-! ## What the callback promises -/

/-- The callback is called at a frame exactly if there are `m` frames up to it, the last `m` of
which are related by `R`. -/
def CallsBackAfter (m : ℕ) (R : γ → γ → Prop) (es : List (Completion γ)) : Prop :=
  ∀ k, ∀ hk : k < es.length,
    es[k].calledBack = true ↔ Agree R m ((codes es).take (k + 1))

/-- No `n` frames in a row are related by `R`. -/
def NoRun (n : ℕ) (R : γ → γ → Prop) (cs : List γ) : Prop :=
  ∀ k, k < cs.length → ¬Agree R n (cs.take (k + 1))

/-- The comparison `same` does for `R`: if the last `m` frames are the same for it, they are related
by `R` exactly if their run, modulo 256, has at least `m` frames; if they are related by `R`, they
are the same. -/
def Stands (m : ℕ) (same : γ → γ → Bool) (R : γ → γ → Prop) (cs : List γ) : Prop :=
  ∀ k, k < cs.length →
    (Agree (Same same) m (cs.take (k + 1)) →
      (Agree R m (cs.take (k + 1)) ↔ m ≤ trailing same (cs.take (k + 1)) % 256)) ∧
    (Agree R m (cs.take (k + 1)) → Agree (Same same) m (cs.take (k + 1)))

namespace RepeatFilter

variable {f : RepeatFilter γ} {R : γ → γ → Prop} {m : ℕ}

theorem callsBackAfter_iff (hequiv : Equivalence (Same same)) (hzero : f.repeats = 0)
    (hcallback : f.inCallback = false) (hm : f.minRepeats = m) (cs : List γ) :
    CallsBackAfter m R (f.feed same cs) ↔ ∀ k, k < cs.length →
      (m ≤ trailing same (cs.take (k + 1)) % 256 ↔ Agree R m (cs.take (k + 1))) := by
  unfold CallsBackAfter
  rw [codes_feed]
  subst hm
  constructor
  · intro h k hk
    have hk' : k < (f.feed same cs).length := by rwa [length_feed]
    exact (feed_calledBack hequiv hzero hcallback k hk').symm.trans (h k hk')
  · intro h k hk
    exact (feed_calledBack hequiv hzero hcallback k hk).trans (h k (by rwa [length_feed] at hk))

/-- A comparison of everything that `R` asks for fails at the 256th frame of a run, when the byte
counter wraps, and only then. -/
theorem callsBackAfter_iff_noRun (hequiv : Equivalence (Same same)) (hzero : f.repeats = 0)
    (hcallback : f.inCallback = false) (hm : f.minRepeats = m) (hpos : 1 ≤ m) (hbyte : m ≤ 255)
    (cs : List γ) (hR : ∀ c ∈ cs, ∀ d ∈ cs, Same same c d ↔ R c d) :
    CallsBackAfter m R (f.feed same cs) ↔ NoRun 256 R cs := by
  have hagree : ∀ n k, Agree R n (cs.take k) ↔ n ≤ trailing same (cs.take k) := by
    intro n k
    constructor
    · intro h
      exact le_trailing_of_agree (h.mono fun c hc d hd =>
        (hR c (List.mem_of_mem_take hc) d (List.mem_of_mem_take hd)).2)
    · intro h
      exact (agree_of_le_trailing hequiv h).mono fun c hc d hd =>
        (hR c (List.mem_of_mem_take hc) d (List.mem_of_mem_take hd)).1
  rw [callsBackAfter_iff hequiv hzero hcallback hm]
  unfold NoRun
  simp only [hagree]
  constructor
  · intro h k hk hlong
    -- the run was 256 frames long at some frame
    rcases exists_trailing_eq hequiv (by decide) hlong with ⟨j, hj, hlen⟩
    have hj' : j < cs.length := hj.trans_le (by rw [List.length_take]; exact min_le_right _ _)
    have hjk : j + 1 ≤ k + 1 := by
      rw [List.length_take] at hj
      omega
    rw [List.take_take, min_eq_left hjk] at hlen
    have hwrapped := (h j hj').2 (by omega)
    rw [hlen] at hwrapped
    omega
  · intro h k hk
    have hlt : trailing same (cs.take (k + 1)) < 256 := Nat.not_le.1 (h k hk)
    rw [Nat.mod_eq_of_lt hlt]

theorem callsBackAfter_iff_stands (hequiv : Equivalence (Same same)) (hzero : f.repeats = 0)
    (hcallback : f.inCallback = false) (hm : f.minRepeats = m) (cs : List γ) :
    CallsBackAfter m R (f.feed same cs) ↔ Stands m same R cs := by
  rw [callsBackAfter_iff hequiv hzero hcallback hm]
  refine forall_congr' fun k => imp_congr_right fun hk => ?_
  have hagree : Agree (Same same) m (cs.take (k + 1)) ↔ m ≤ trailing same (cs.take (k + 1)) :=
    agree_iff hequiv
  have hmod := Nat.mod_le (trailing same (cs.take (k + 1))) 256
  constructor
  · intro h
    exact ⟨fun _ => h.symm, fun hR => hagree.2 ((h.2 hR).trans hmod)⟩
  · rintro ⟨hsame, hother⟩
    constructor
    · intro hm
      exact (hsame (hagree.2 (hm.trans hmod))).2 hm
    · intro hR
      exact (hsame (hother hR)).1 hR

/-! ## One frame again and again -/

/-- Frames with the code that the filter has seen last are counted on, modulo 256. -/
theorem completions_same (hsame : same c f.previousCode = true) (n : ℕ) :
    completions same c n f = (List.range n).map fun k =>
      ⟨c, decide (f.minRepeats ≤ (f.repeats + 1 + k) % 256) && !f.inCallback⟩ := by
  induction n generalizing f with
  | zero => rfl
  | succ n ih =>
      have hcount := count_same hsame
      rw [completions, ih (by rw [hcount]; exact hsame), List.range_succ_eq_map, List.map_cons,
        List.map_map, hcount]
      congr 1
      refine List.map_congr_left fun k _ => ?_
      have hnext : ((f.repeats + 1) % 256 + 1 + k) % 256 = (f.repeats + 1 + (k + 1)) % 256 := by
        omega
      simp only [hnext, Function.comp_apply, Nat.succ_eq_add_one]

/-- Of up to 256 counts in a row at most `m` are below `m`. -/
theorem count_below_le (m r : ℕ) {n : ℕ} (hn : n ≤ 256) :
    n ≤ Nat.count (fun k => m ≤ (r + k) % 256) n + m := by
  have hbelow : ((Finset.range n).filter fun k => ¬m ≤ (r + k) % 256).card ≤
      (Finset.range m).card := by
    refine Finset.card_le_card_of_injOn (fun k => (r + k) % 256) ?_ ?_
    · intro k hk
      have hlt := (Finset.mem_filter.1 hk).2
      simpa using hlt
    -- within one turn of the byte no value comes twice
    · intro j hj k hk hjk
      have hjn := Finset.mem_range.1 (Finset.mem_filter.1 hj).1
      have hkn := Finset.mem_range.1 (Finset.mem_filter.1 hk).1
      simp only at hjk
      omega
  have hsplit := Finset.card_filter_add_card_filter_not (s := Finset.range n)
    (fun k => m ≤ (r + k) % 256)
  rw [Finset.card_range] at hbelow hsplit
  rw [Nat.count_eq_card_filter_range]
  omega

theorem callbacks_completions_same (hsame : same c f.previousCode = true)
    (hcallback : f.inCallback = false) (n : ℕ) :
    callbacks (completions same c n f) =
      List.replicate (Nat.count (fun k => f.minRepeats ≤ (f.repeats + 1 + k) % 256) n) c := by
  rw [completions_same hsame, Nat.count, callbacks, codes, List.filter_map, List.map_map,
    List.countP_eq_length_filter, List.eq_replicate_iff]
  constructor
  · simp [hcallback, Function.comp_def]
  · intro d hd
    rcases List.mem_map.1 hd with ⟨k, -, rfl⟩
    rfl

/-- Of up to 256 frames with the same code all but `_minRepeats` at most are called back. -/
theorem callbacks_completions (hrefl : same c c = true) (hcallback : f.inCallback = false) {n : ℕ}
    (hn : n ≤ 256) :
    ∃ k, n ≤ k + f.minRepeats ∧ k ≤ n ∧ callbacks (completions same c n f) = List.replicate k c := by
  cases hsame : same c f.previousCode with
  | true =>
      exact ⟨_, count_below_le _ _ hn, Nat.count_le _, callbacks_completions_same hsame hcallback n⟩
  -- another code counts from 0 on, as if there had been none of it
  | false =>
      have hother : completions same c n f =
          completions same c n { f with repeats := 0, previousCode := c } := by
        cases n with
        | zero => rfl
        | succ n =>
            rw [completions, completions, count_other hsame, count_same hrefl]
            rfl
      refine ⟨_, count_below_le _ 1 hn, Nat.count_le _, ?_⟩
      rw [hother]
      exact callbacks_completions_same (f := { f with repeats := 0, previousCode := c }) hrefl
        hcallback n

end RepeatFilter

end LamPI
