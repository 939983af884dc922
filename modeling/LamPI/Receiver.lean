import LamPI.Arduino

/-!
# Receiver — what the interrupt handlers have in common

Every receiver class is a set of static variables and an `interruptHandler` that runs at each
edge.  Three pieces of code recur in them and are modelled once:

- `RepeatFilter` : the comparison with `previousCode` at the end of a frame
- `Sampled`      : handlers that decode the interval that the edge just ended
- `Filtered`     : handlers with the low-pass filter, which decode one edge late

`edgeTimeStamp[1]` is no part of a state: each handler overwrites it before reading it.
-/

namespace LamPI

open PulseLine

variable {γ δ ε : Type}

/-! ## Completed frames -/

structure Completion (γ : Type) where
  code : γ
  calledBack : Bool
  deriving DecidableEq, Repr

def codes (es : List (Completion γ)) : List γ := es.map Completion.code

def callbacks (es : List (Completion γ)) : List γ := codes (es.filter Completion.calledBack)

@[simp] theorem codes_nil : codes ([] : List (Completion γ)) = [] := rfl

@[simp] theorem codes_append (es fs : List (Completion γ)) :
    codes (es ++ fs) = codes es ++ codes fs := List.map_append

@[simp] theorem callbacks_nil : callbacks ([] : List (Completion γ)) = [] := rfl

@[simp] theorem callbacks_append (es fs : List (Completion γ)) :
    callbacks (es ++ fs) = callbacks es ++ callbacks fs := by
  simp [callbacks]

theorem mem_callbacks {es : List (Completion γ)} {c : γ} :
    c ∈ callbacks es ↔ ⟨c, true⟩ ∈ es := by
  simp only [callbacks, codes, List.mem_map, List.mem_filter]
  constructor
  · rintro ⟨⟨d, b⟩, ⟨hmem, rfl⟩, rfl⟩
    exact hmem
  · intro h
    exact ⟨⟨c, true⟩, ⟨h, rfl⟩, rfl⟩

theorem callbacks_subset_codes {es : List (Completion γ)} {c : γ} (h : c ∈ callbacks es) :
    c ∈ codes es :=
  List.mem_map_of_mem (f := Completion.code) (mem_callbacks.1 h)

/-! ## The repeat filter -/

/-- The static variables that decide when a completed frame reaches the callback. -/
structure RepeatFilter (γ : Type) where
  minRepeats : ℕ
  inCallback : Bool
  previousCode : γ
  repeats : ℕ
  deriving DecidableEq, Repr

namespace RepeatFilter

/-- The counters after a frame: a code other than `previousCode` restarts the byte `repeats`. -/
def count (same : γ → γ → Bool) (f : RepeatFilter γ) (receivedCode : γ) : RepeatFilter γ :=
  let f' := if same receivedCode f.previousCode then f
    else { f with repeats := 0, previousCode := receivedCode }
  { f' with repeats := (f'.repeats + 1) % 256 }

def reached (f : RepeatFilter γ) : Bool := decide (f.minRepeats ≤ f.repeats)

def completion (f : RepeatFilter γ) (receivedCode : γ) : Completion γ :=
  ⟨receivedCode, f.reached && !f.inCallback⟩

variable {same : γ → γ → Bool} {f : RepeatFilter γ} {c : γ}

@[simp] theorem count_minRepeats : (f.count same c).minRepeats = f.minRepeats := by
  unfold count
  cases same c f.previousCode <;> rfl

@[simp] theorem count_inCallback : (f.count same c).inCallback = f.inCallback := by
  unfold count
  cases same c f.previousCode <;> rfl

theorem count_same (h : same c f.previousCode = true) :
    f.count same c = { f with repeats := (f.repeats + 1) % 256 } := by
  simp [count, h]

theorem count_other (h : same c f.previousCode = false) :
    f.count same c = { f with repeats := 1, previousCode := c } := by
  simp [count, h]

/-- After a frame, `previousCode` is the code of that frame. -/
theorem same_previousCode_count (hrefl : same c c = true) :
    same c (f.count same c).previousCode = true := by
  cases h : same c f.previousCode with
  | true => rw [count_same h]; exact h
  | false => rw [count_other h]; exact hrefl

/-- The first frame after a gap. -/
theorem repeats_count (hzero : f.repeats = 0) : (f.count same c).repeats = 1 := by
  cases h : same c f.previousCode with
  | true => rw [count_same h, hzero]
  | false => rw [count_other h]

theorem not_reached_count (hmin : f.minRepeats = 2) (hzero : f.repeats = 0) :
    (f.count same c).reached = false := by
  rw [reached, count_minRepeats, hmin, repeats_count hzero]
  decide

/-- The second one, if it says the same. -/
theorem reached_count (hmin : f.minRepeats = 2) (hone : f.repeats = 1)
    (hsame : same c f.previousCode = true) : (f.count same c).reached = true := by
  rw [reached, count_minRepeats, hmin, count_same hsame, hone]
  rfl

def completions (same : γ → γ → Bool) (c : γ) : ℕ → RepeatFilter γ → List (Completion γ)
  | 0, _ => []
  | n + 1, f => (f.count same c).completion c :: completions same c n (f.count same c)

@[simp] theorem codes_completions (n : ℕ) :
    codes (completions same c n f) = List.replicate n c := by
  induction n generalizing f with
  | zero => rfl
  | succ n ih =>
      simp only [codes] at ih ⊢
      rw [completions, List.map_cons, ih]
      rfl

/-- Counting up from fewer than `_minRepeats`, the callback comes when the count is reached. -/
theorem mem_completions_of_lt {n : ℕ} (hcallback : f.inCallback = false)
    (hbyte : f.minRepeats < 256) (hsame : same c f.previousCode = true)
    (hlt : f.repeats < f.minRepeats) (hn : f.minRepeats ≤ f.repeats + n) :
    ⟨c, true⟩ ∈ completions same c n f := by
  induction n generalizing f with
  | zero => omega
  | succ n ih =>
      have hcount := count_same hsame
      have hmod : (f.repeats + 1) % 256 = f.repeats + 1 := Nat.mod_eq_of_lt (by omega)
      rw [completions, List.mem_cons]
      by_cases hreached : f.minRepeats ≤ f.repeats + 1
      · left
        simp [completion, reached, hcount, hmod, hreached, hcallback]
      · right
        apply ih <;> simp only [hcount, hmod]
        · exact hcallback
        · exact hbyte
        · exact hsame
        · omega
        · omega

/-- A counter at zero calls back at once when `_minRepeats` is 1. -/
theorem completion_count (hmin : f.minRepeats = 1) (hrepeats : f.repeats = 0)
    (hcallback : f.inCallback = false) : (f.count same c).completion c = ⟨c, true⟩ := by
  simp [completion, reached, repeats_count hrepeats, hmin, hcallback]

/-- Whatever the byte counter holds, one frame more than `_minRepeats` reaches the callback. -/
theorem mem_completions {n : ℕ} (hcallback : f.inCallback = false) (hbyte : f.minRepeats < 256)
    (hrefl : same c c = true) (hn : f.minRepeats < n) :
    ⟨c, true⟩ ∈ completions same c n f := by
  obtain ⟨n, rfl⟩ : ∃ k, n = k + 1 := ⟨n - 1, by omega⟩
  rw [completions, List.mem_cons]
  by_cases hreached : f.minRepeats ≤ (f.count same c).repeats
  · left
    simp [completion, reached, hreached, hcallback]
  · right
    apply mem_completions_of_lt
    · rw [count_inCallback]; exact hcallback
    · rw [count_minRepeats]; exact hbyte
    · exact same_previousCode_count hrefl
    · rw [count_minRepeats]; omega
    · rw [count_minRepeats]; omega

/-! ### What the counters say about the frames -/

/-- The last `repeats` frames at least carry `previousCode`. -/
def Counted {φ : Type} (carries : γ → φ → Prop) (f : RepeatFilter γ) (frames : List φ) : Prop :=
  ∃ earlier last, frames = earlier ++ last ∧ f.repeats ≤ last.length ∧
    ∀ x ∈ last, carries f.previousCode x

variable {φ : Type} {carries : γ → φ → Prop} {frames : List φ}

theorem counted_of_zero (h : f.repeats = 0) : f.Counted carries frames :=
  ⟨frames, [], (List.append_nil _).symm, by simp [h], by simp⟩

/-- One more frame, with the code `c`. -/
theorem Counted.count {x : φ} (h : f.Counted carries frames) (hx : carries c x)
    (hsame : same c f.previousCode = true → carries f.previousCode x) :
    (f.count same c).Counted carries (frames ++ [x]) := by
  cases heq : same c f.previousCode with
  | true =>
      rcases h with ⟨earlier, last, rfl, hrepeats, hlast⟩
      rw [count_same heq]
      refine ⟨earlier, last ++ [x], by rw [List.append_assoc], ?_, ?_⟩
      · -- a byte that wraps counts too few frames, never too many
        have hwrap : (f.repeats + 1) % 256 ≤ f.repeats + 1 := Nat.mod_le _ _
        rw [List.length_append, List.length_singleton]
        simp only
        omega
      · intro y hy
        rcases List.mem_append.1 hy with hy | hy
        · exact hlast y hy
        · rw [List.mem_singleton.1 hy]
          exact hsame heq
  -- a new run, of this frame only
  | false =>
      rw [count_other heq]
      refine ⟨frames, [x], rfl, le_rfl, ?_⟩
      intro y hy
      rw [List.mem_singleton.1 hy]
      exact hx

/-- When the counter has reached the minimum, so many of the last frames carry the code. -/
theorem Counted.backed {c : γ} {m : ℕ} (h : (f.count same c).Counted carries frames)
    (hm : f.minRepeats = m) (hreached : (f.count same c).reached = true)
    (hsame : ∀ x, carries (f.count same c).previousCode x → carries c x) :
    ∃ earlier last, frames = earlier ++ last ∧ m ≤ last.length ∧ ∀ x ∈ last, carries c x := by
  rcases h with ⟨earlier, last, hsplit, hrepeats, hlast⟩
  have hmin : m ≤ (f.count same c).repeats := by
    rw [reached, count_minRepeats, hm] at hreached
    exact of_decide_eq_true hreached
  exact ⟨earlier, last, hsplit, hmin.trans hrepeats, fun x hx => hsame x (hlast x hx)⟩

end RepeatFilter

/-- Copies of one input that take a decoder round three states, the last of which calls back. -/
theorem callbacks_copies {decode : δ → ℕ → δ × Option (Completion γ)} {A : ℕ → δ → Prop}
    {w : List ℕ} {c : γ}
    (h₀ : ∀ s, A 0 s → A 1 (Mealy.final decode s w) ∧ callbacks (Mealy.events decode s w) = [])
    (h₁ : ∀ s, A 1 s → A 2 (Mealy.final decode s w) ∧ callbacks (Mealy.events decode s w) = [])
    (h₂ : ∀ s, A 2 s → A 0 (Mealy.final decode s w) ∧ callbacks (Mealy.events decode s w) = [c])
    {s : δ} (hs : A 0 s) (n : ℕ) :
    A (n % 3) (Mealy.final decode s (List.replicate n w).flatten) ∧
      callbacks (Mealy.events decode s (List.replicate n w).flatten) =
        List.replicate (n / 3) c := by
  induction n with
  | zero => exact ⟨hs, rfl⟩
  | succ n ih =>
      rcases ih with ⟨hstate, hcalls⟩
      have hcopy : (List.replicate (n + 1) w).flatten = (List.replicate n w).flatten ++ w := by
        rw [List.replicate_succ', List.flatten_append]
        simp
      rw [hcopy, Mealy.final_append, Mealy.events_append, callbacks_append, hcalls]
      have hmod : n % 3 = 0 ∨ n % 3 = 1 ∨ n % 3 = 2 := by omega
      -- the gap, the first telegram, the one that calls back
      rcases hmod with h | h | h
      · rw [h] at hstate
        have hnext : (n + 1) % 3 = 1 ∧ (n + 1) / 3 = n / 3 := by omega
        rw [hnext.1, hnext.2, (h₀ _ hstate).2, List.append_nil]
        exact ⟨(h₀ _ hstate).1, rfl⟩
      · rw [h] at hstate
        have hnext : (n + 1) % 3 = 2 ∧ (n + 1) / 3 = n / 3 := by omega
        rw [hnext.1, hnext.2, (h₁ _ hstate).2, List.append_nil]
        exact ⟨(h₁ _ hstate).1, rfl⟩
      · rw [h] at hstate
        have hnext : (n + 1) % 3 = 0 ∧ (n + 1) / 3 = n / 3 + 1 := by omega
        rw [hnext.1, hnext.2, (h₂ _ hstate).2, List.replicate_succ']
        exact ⟨(h₂ _ hstate).1, rfl⟩

/-! ## Handlers that decode at once -/

/-- The state of a handler without a filter: `edge2` is `edgeTimeStamp[2]`. -/
structure Sampled (δ : Type) where
  enabled : Bool
  edge2 : ULong
  decoder : δ
  deriving DecidableEq, Repr

namespace Sampled

/-- At every edge the decoder gets the interval since the edge before. -/
def onEdge (decode : δ → ℕ → δ × Option ε) (s : Sampled δ) (now : ℕ) : Sampled δ × Option ε :=
  if s.enabled then
    let edge1 := s.edge2
    let edge2 := micros now
    let r := decode s.decoder (edge2 - edge1).toNat
    ({ s with edge2 := edge2, decoder := r.1 }, r.2)
  else (s, none)

variable {decode : δ → ℕ → δ × Option ε} {s : Sampled δ}

/-- A handler run is the decoder run over the measured intervals. -/
theorem run_eq (h : s.enabled = true) (times : List ℕ) :
    (Mealy.final (onEdge decode) s times).enabled = true ∧
    (Mealy.final (onEdge decode) s times).decoder =
      Mealy.final decode s.decoder (measured s.edge2 times) ∧
    Mealy.events (onEdge decode) s times =
      Mealy.events decode s.decoder (measured s.edge2 times) := by
  induction times generalizing s with
  | nil => exact ⟨h, rfl, rfl⟩
  -- one edge hands one interval to the decoder
  | cons t ts ih =>
      have hstep : onEdge decode s t =
          ({ s with edge2 := micros t, decoder := (decode s.decoder (micros t - s.edge2).toNat).1 },
            (decode s.decoder (micros t - s.edge2).toNat).2) := by
        rw [onEdge, if_pos h]
      rcases ih (s := (onEdge decode s t).1) (by rw [hstep]; exact h) with ⟨h1, h2, h3⟩
      rw [hstep] at h1 h2 h3
      refine ⟨?_, ?_, ?_⟩
      · rw [Mealy.final_cons, hstep]
        exact h1
      · rw [Mealy.final_cons, hstep]
        exact h2
      · rw [Mealy.events_cons, hstep, h3]
        rfl

theorem events_eq (h : s.enabled = true) (times : List ℕ) :
    Mealy.events (onEdge decode) s times =
      Mealy.events decode s.decoder (measured s.edge2 times) := (run_eq h times).2.2

/-- One more edge is one more interval for the decoder. -/
theorem onEdge_last (h : s.enabled = true) (pre : List ℕ) (t : ℕ) :
    ∃ gap, measured s.edge2 (pre ++ [t]) = measured s.edge2 pre ++ [gap] ∧
      (onEdge decode (Mealy.final (onEdge decode) s pre) t).2 =
        (decode (Mealy.final decode s.decoder (measured s.edge2 pre)) gap).2 := by
  induction pre generalizing s with
  | nil =>
      refine ⟨(micros t - s.edge2).toNat, rfl, ?_⟩
      rw [Mealy.final_nil, onEdge, if_pos h]
      rfl
  | cons u pre ih =>
      have hstep : (onEdge decode s u).1 =
          { s with
            edge2 := micros u, decoder := (decode s.decoder (micros u - s.edge2).toNat).1 } := by
        rw [onEdge, if_pos h]
      rcases ih (s := (onEdge decode s u).1) (by rw [hstep]; exact h) with ⟨gap, hgap, hout⟩
      rw [hstep] at hgap hout
      refine ⟨gap, ?_, ?_⟩
      · rw [List.cons_append, measured_cons, measured_cons, List.cons_append]
        exact congrArg _ hgap
      · rw [Mealy.final_cons, hstep, hout]
        rfl

end Sampled

/-! ## Handlers with the low-pass filter -/

/-- What the filter and the late decoding need to know of a decoder. -/
structure PulseDecoder (δ ε : Type) where
  /-- `_state >= 0` -/
  active : δ → Bool
  min1Period : δ → ℕ
  decode : δ → ℕ → δ × Option ε

/-- The time stamps and the flag of the filter: `edge0`, `edge2` are `edgeTimeStamp[0]`, `[2]`. -/
structure LowPass where
  edge0 : ULong
  edge2 : ULong
  skip : Bool
  deriving DecidableEq, Repr

/-- An edge that comes too soon is dropped together with the next one; any other edge makes the
interval between the two edges before it an `unsigned int` duration to decode. -/
def LowPass.onEdge (b : Board) (active : Bool) (min1Period : ℕ) (f : LowPass) (now : ℕ) :
    LowPass × Option ℕ :=
  let edge1 := f.edge2
  let edge2 := micros now
  if f.skip then
    ({ f with edge2 := edge2, skip := false }, none)
  else if active && decide ((edge2 - edge1).toNat < min1Period) then
    ({ f with edge2 := edge2, skip := true }, none)
  else
    ({ f with edge0 := edge1, edge2 := edge2 }, some (b.uint (edge1 - f.edge0).toNat))

structure Filtered (δ : Type) where
  enabled : Bool
  lowPass : LowPass
  decoder : δ
  deriving DecidableEq, Repr

namespace Filtered

variable (b : Board) (D : PulseDecoder δ ε)

def filter (s : Filtered δ) (now : ℕ) : LowPass × Option ℕ :=
  s.lowPass.onEdge b (D.active s.decoder) (D.min1Period s.decoder) now

/-- The duration, if any, that an edge hands to the decoder. -/
def interval (s : Filtered δ) (now : ℕ) : Option ℕ :=
  if s.enabled then (s.filter b D now).2 else none

def onEdge (s : Filtered δ) (now : ℕ) : Filtered δ × Option ε :=
  if s.enabled then
    match s.filter b D now with
    | (f, none) => ({ s with lowPass := f }, none)
    | (f, some duration) =>
        let r := D.decode s.decoder duration
        ({ s with lowPass := f, decoder := r.1 }, r.2)
  else (s, none)

/-- The durations decoded along a run. -/
def processed : Filtered δ → List ℕ → List ℕ
  | _, [] => []
  | s, t :: ts => (s.interval b D t).toList ++ processed (s.onEdge b D t).1 ts

variable {b D} {s : Filtered δ}

@[simp] theorem processed_nil : s.processed b D [] = [] := rfl

@[simp] theorem processed_cons (t : ℕ) (ts : List ℕ) :
    s.processed b D (t :: ts) =
      (s.interval b D t).toList ++ (s.onEdge b D t).1.processed b D ts := rfl

theorem processed_append (ts us : List ℕ) :
    s.processed b D (ts ++ us) =
      s.processed b D ts ++ (Mealy.final (onEdge b D) s ts).processed b D us := by
  induction ts generalizing s with
  | nil => rfl
  | cons t ts ih => simp only [List.cons_append, processed_cons, ih, Mealy.final_cons,
      List.append_assoc]

/-- One edge seen from the decoder: it decodes the edge's interval, if there is one. -/
theorem onEdge_decoder (t : ℕ) :
    (s.onEdge b D t).1.decoder = Mealy.final D.decode s.decoder (s.interval b D t).toList ∧
    (s.onEdge b D t).2.toList = Mealy.events D.decode s.decoder (s.interval b D t).toList := by
  unfold onEdge interval
  cases s.enabled with
  | false => exact ⟨rfl, rfl⟩
  | true =>
      rcases hf : s.filter b D t with ⟨f, _ | duration⟩
      · -- a dropped edge
        exact ⟨rfl, rfl⟩
      · exact ⟨rfl, (List.append_nil _).symm⟩

/-- A handler run is the decoder run over the processed durations. -/
theorem run_eq (ts : List ℕ) :
    (Mealy.final (onEdge b D) s ts).decoder =
      Mealy.final D.decode s.decoder (s.processed b D ts) ∧
    Mealy.events (onEdge b D) s ts =
      Mealy.events D.decode s.decoder (s.processed b D ts) := by
  induction ts generalizing s with
  | nil => exact ⟨rfl, rfl⟩
  | cons t ts ih =>
      rcases onEdge_decoder (b := b) (D := D) (s := s) t with ⟨h1, h2⟩
      rcases ih (s := (s.onEdge b D t).1) with ⟨ih1, ih2⟩
      constructor
      · rw [Mealy.final_cons, ih1, h1, processed_cons, Mealy.final_append]
      · rw [Mealy.events_cons, ih2, h2, h1, processed_cons, Mealy.events_append]

theorem final_decoder (ts : List ℕ) :
    (Mealy.final (onEdge b D) s ts).decoder =
      Mealy.final D.decode s.decoder (s.processed b D ts) := (run_eq ts).1

theorem events_eq (ts : List ℕ) :
    Mealy.events (onEdge b D) s ts =
      Mealy.events D.decode s.decoder (s.processed b D ts) := (run_eq ts).2

/-- What an edge emits, the decoder emits for the interval that this edge hands to it. -/
theorem onEdge_last {pre : List ℕ} {t : ℕ} {e : ε}
    (h : ((Mealy.final (onEdge b D) s pre).onEdge b D t).2 = some e) :
    ∃ d, s.processed b D (pre ++ [t]) = s.processed b D pre ++ [d] ∧
      (D.decode (Mealy.final D.decode s.decoder (s.processed b D pre)) d).2 = some e := by
  have hprocessed : s.processed b D (pre ++ [t]) = s.processed b D pre ++
      ((Mealy.final (onEdge b D) s pre).interval b D t).toList := by
    rw [processed_append, processed_cons, processed_nil, List.append_nil]
  have hout := (onEdge_decoder (b := b) (D := D) (s := Mealy.final (onEdge b D) s pre) t).2
  rw [h, final_decoder] at hout
  cases hinterval : (Mealy.final (onEdge b D) s pre).interval b D t with
  | none =>
      rw [hinterval] at hout
      cases hout
  | some d =>
      rw [hinterval] at hout hprocessed
      refine ⟨d, hprocessed, ?_⟩
      simpa [Option.toList_eq_singleton_iff] using hout.symm

/-! ### One edge -/

/-- The edge after a dropped one is dropped too. -/
theorem onEdge_skip (henabled : s.enabled = true) (hskip : s.lowPass.skip = true) (t : ℕ) :
    s.onEdge b D t =
      ({ s with lowPass := { s.lowPass with edge2 := micros t, skip := false } }, none) := by
  rw [onEdge, if_pos henabled, filter, LowPass.onEdge]
  simp only [hskip, if_true]

/-- The last edge was at `t`; the next one that passes decodes the duration `x`. -/
structure Pending (b : Board) (s : Filtered δ) (t x : ℕ) : Prop where
  enabled : s.enabled = true
  skip : s.lowPass.skip = false
  edge2 : s.lowPass.edge2 = micros t
  duration : b.uint (s.lowPass.edge2 - s.lowPass.edge0).toNat = x

/-- What the clock measures since the last edge. -/
theorem Pending.clock {t x a : ℕ} (h : s.Pending b t x) (hclock : a < 2 ^ 32) :
    (micros (t + a) - s.lowPass.edge2).toNat = a := by
  rw [h.edge2]
  exact clock_sub t hclock

/-- While the decoder is active, an edge that comes too soon is dropped. -/
theorem onEdge_short {t x a : ℕ} (h : s.Pending b t x) (hactive : D.active s.decoder = true)
    (ha : a < D.min1Period s.decoder) (hclock : a < 2 ^ 32) :
    s.onEdge b D (t + a) =
      ({ s with lowPass := { s.lowPass with edge2 := micros (t + a), skip := true } }, none) := by
  have hmeasured := h.clock hclock
  rw [onEdge, if_pos h.enabled, filter, LowPass.onEdge]
  simp only [h.skip, hactive, hmeasured, ha, Bool.false_eq_true, if_false, decide_true,
    Bool.and_true, if_true]

/-- Any other edge passes. -/
theorem Pending.filter_eq {t x d : ℕ} (h : s.Pending b t x) (hclock : d < 2 ^ 32)
    (hpass : D.active s.decoder = true → D.min1Period s.decoder ≤ d) :
    s.filter b D (t + d) =
      ({ s.lowPass with edge0 := s.lowPass.edge2, edge2 := micros (t + d) }, some x) := by
  have hmeasured := h.clock hclock
  have hopen : (D.active s.decoder && decide (d < D.min1Period s.decoder)) = false := by
    cases hactive : D.active s.decoder with
    | false => rfl
    | true =>
        have hle := hpass hactive
        simpa using hle
  rw [filter, LowPass.onEdge]
  simp only [h.skip, hmeasured, hopen, h.duration, Bool.false_eq_true, if_false]

theorem Pending.interval_eq {t x d : ℕ} (h : s.Pending b t x) (hclock : d < 2 ^ 32)
    (hpass : D.active s.decoder = true → D.min1Period s.decoder ≤ d) :
    s.interval b D (t + d) = some x := by
  rw [interval, if_pos h.enabled, h.filter_eq hclock hpass]

/-- An edge that passes hands the pending duration to the decoder. -/
theorem Pending.pass {t x d : ℕ} (h : s.Pending b t x) (hclock : d < 2 ^ 32)
    (hpass : D.active s.decoder = true → D.min1Period s.decoder ≤ d) :
    (s.onEdge b D (t + d)).1.Pending b (t + d) (b.uint d) ∧
      (s.onEdge b D (t + d)).1.decoder = (D.decode s.decoder x).1 ∧
      (s.onEdge b D (t + d)).2 = (D.decode s.decoder x).2 := by
  have hmeasured := h.clock hclock
  rw [onEdge, if_pos h.enabled, h.filter_eq hclock hpass]
  exact ⟨⟨h.enabled, h.skip, rfl, by simp only [hmeasured]⟩, rfl, rfl⟩

/-- To an inactive decoder every edge passes, whenever the last one was. -/
theorem pass_inactive (henabled : s.enabled = true) (hskip : s.lowPass.skip = false)
    (hidle : D.active s.decoder = false) (t : ℕ) :
    (s.onEdge b D t).1.Pending b t (b.uint (micros t - s.lowPass.edge2).toNat) ∧
      s.interval b D t = some (b.uint (s.lowPass.edge2 - s.lowPass.edge0).toNat) ∧
      (s.onEdge b D t).1.decoder =
        (D.decode s.decoder (b.uint (s.lowPass.edge2 - s.lowPass.edge0).toNat)).1 ∧
      (s.onEdge b D t).2 =
        (D.decode s.decoder (b.uint (s.lowPass.edge2 - s.lowPass.edge0).toNat)).2 := by
  have hfilter : s.filter b D t =
      ({ s.lowPass with edge0 := s.lowPass.edge2, edge2 := micros t },
        some (b.uint (s.lowPass.edge2 - s.lowPass.edge0).toNat)) := by
    simp only [filter, LowPass.onEdge, hskip, hidle, Bool.false_and, Bool.false_eq_true, if_false]
  rw [onEdge, if_pos henabled, interval, if_pos henabled, hfilter]
  exact ⟨⟨henabled, hskip, rfl, rfl⟩, rfl, rfl, rfl⟩

/-! ### Runs of edges that are dropped -/

/-- An edge that comes too soon and the one after it lengthen the pending duration. -/
theorem Pending.drop_two {t x a c : ℕ} (h : s.Pending b t x) (hactive : D.active s.decoder = true)
    (ha : a < D.min1Period s.decoder) (hclock : a < 2 ^ 32) :
    (Mealy.final (onEdge b D) s [t + a, t + a + c]).Pending b (t + a + c) (b.uint (x + a + c)) ∧
      (Mealy.final (onEdge b D) s [t + a, t + a + c]).decoder = s.decoder ∧
      Mealy.events (onEdge b D) s [t + a, t + a + c] = [] := by
  have hskip := onEdge_skip (b := b) (D := D)
    (s := { s with lowPass := { s.lowPass with edge2 := micros (t + a), skip := true } })
    h.enabled rfl (t + a + c)
  have hsum : micros (t + a + c) - s.lowPass.edge0 =
      (s.lowPass.edge2 - s.lowPass.edge0) + micros (a + c) := by
    -- `edgeTimeStamp[0]` stays, so that the next duration covers both edges
    have hadd : micros (t + a + c) = s.lowPass.edge2 + micros (a + c) := by
      rw [h.edge2, Nat.add_assoc]
      exact BitVec.ofNat_add t (a + c)
    rw [hadd]
    bv_omega
  have hlong : b.uint (micros (t + a + c) - s.lowPass.edge0).toNat = b.uint (x + a + c) := by
    -- the time stamps wrap at 32 bits, the durations at those of an `unsigned int`
    have hdvd : 2 ^ b.uintBits ∣ 2 ^ 32 := by
      cases b <;> exact Nat.pow_dvd_pow 2 (by decide)
    rw [hsum, ← h.duration, BitVec.toNat_add, micros, BitVec.toNat_ofNat, Board.uint, Board.uint,
      Nat.mod_mod_of_dvd _ hdvd, Nat.add_mod, Nat.mod_mod_of_dvd _ hdvd, ← Nat.add_mod,
      Nat.add_assoc, Board.uint, Nat.mod_add_mod]
  rw [Mealy.final_cons, Mealy.final_cons, Mealy.final_nil, Mealy.events_cons, Mealy.events_cons,
    Mealy.events_nil, onEdge_short h hactive ha hclock, hskip]
  exact ⟨⟨h.enabled, rfl, rfl, hlong⟩, rfl, rfl⟩

/-- A train in which every other edge comes too soon is dropped as a whole. -/
theorem Pending.drop_train {t x : ℕ} {ps : List (ℕ × ℕ)} (h : s.Pending b t x)
    (hactive : D.active s.decoder = true)
    (hps : ∀ p ∈ ps, p.1 < D.min1Period s.decoder ∧ p.1 < 2 ^ 32) :
    (Mealy.final (onEdge b D) s (stamps t (widths ps))).Pending b (t + (widths ps).sum)
        (b.uint (x + (widths ps).sum)) ∧
      (Mealy.final (onEdge b D) s (stamps t (widths ps))).decoder = s.decoder ∧
      Mealy.events (onEdge b D) s (stamps t (widths ps)) = [] := by
  induction ps generalizing s t x with
  | nil =>
      have hx : b.uint x = x := by
        rw [← h.duration]
        exact Nat.mod_mod _ _
      refine ⟨?_, rfl, rfl⟩
      rw [show widths [] = [] from rfl, List.sum_nil, Nat.add_zero, Nat.add_zero, hx]
      exact h
  | cons p ps ih =>
      rcases hps p (by simp) with ⟨hshort, hclock⟩
      -- the two edges of the first glitch are dropped, the others by induction
      rcases h.drop_two (c := p.2) hactive hshort hclock with ⟨hpending, hsame, hquiet⟩
      have hsplit : stamps t (widths (p :: ps)) =
          [t + p.1, t + p.1 + p.2] ++ stamps (t + p.1 + p.2) (widths ps) := rfl
      have hsum : (widths (p :: ps)).sum = p.1 + p.2 + (widths ps).sum := by
        simp [widths, Nat.add_assoc]
      -- the durations are added up in an `unsigned int`
      have hmod : b.uint (b.uint (x + p.1 + p.2) + (widths ps).sum) =
          b.uint (x + (p.1 + p.2 + (widths ps).sum)) := by
        rw [Board.uint, Board.uint, Nat.mod_add_mod, Nat.add_assoc x, Nat.add_assoc x]
        rfl
      rcases ih hpending (by rw [hsame]; exact hactive)
        (fun q hq => by rw [hsame]; exact hps q (by simp [hq])) with ⟨htail, hdecoder, hsilent⟩
      rw [hsplit, Mealy.final_append, Mealy.events_append, hquiet, hsilent, hdecoder, hsame, hsum,
        ← hmod, ← Nat.add_assoc, ← Nat.add_assoc]
      exact ⟨htail, rfl, rfl⟩

/-- The same when the train breaks off after a first half. -/
theorem Pending.drop_broken_train {t x a : ℕ} {ps : List (ℕ × ℕ)} (h : s.Pending b t x)
    (hactive : D.active s.decoder = true)
    (hps : ∀ p ∈ ps, p.1 < D.min1Period s.decoder ∧ p.1 < 2 ^ 32)
    (ha : a < D.min1Period s.decoder) (hclock : a < 2 ^ 32) :
    Mealy.events (onEdge b D) s (stamps t (widths ps ++ [a])) = [] := by
  rcases h.drop_train hactive hps with ⟨hpending, hsame, hquiet⟩
  have hlast := onEdge_short (a := a) hpending (by rw [hsame]; exact hactive)
    (by rw [hsame]; exact ha) hclock
  rw [stamps_append, Mealy.events_append, hquiet, stamps_cons, stamps_nil, Mealy.events_cons,
    Mealy.events_nil, hlast]
  rfl

/-! ### Runs of edges that pass -/

/-- A train without short pulses passes the filter: the decoder gets the interval that was pending
and then every width but the last. -/
theorem Pending.processed {I : δ → Prop} {m u t : ℕ} {ds : List ℕ} (h : s.Pending b t u)
    (hpass : ∀ dec, I dec → D.active dec = true → D.min1Period dec ≤ m)
    (hinv : I s.decoder) (hstep : ∀ dec, ∀ d ∈ u :: ds, I dec → I (D.decode dec d).1)
    (hds : ∀ d ∈ ds, m ≤ d ∧ d < 65536) :
    s.processed b D (stamps t ds) = (u :: ds).dropLast := by
  induction ds generalizing s t u with
  | nil => rfl
  | cons d ds ih =>
      rcases hds d (by simp) with ⟨hmd, hd⟩
      rcases h.pass (D := D) (d := d) (by omega) (fun ha => (hpass _ hinv ha).trans hmd) with
        ⟨hnext, hdecoder, -⟩
      have hinterval : s.interval b D (t + d) = some u :=
        h.interval_eq (by omega) (fun ha => (hpass _ hinv ha).trans hmd)
      rw [b.uint_of_lt hd] at hnext
      have htail := ih hnext (by rw [hdecoder]; exact hstep _ u (by simp) hinv)
        (fun dec x hx => hstep dec x (List.mem_cons_of_mem u hx))
        (fun x hx => hds x (List.mem_cons_of_mem d hx))
      rw [stamps_cons, processed_cons, hinterval, htail]
      rfl

/-- A transmission that finds the decoder idle, and no pulse of which is short: apart from the
interval that was pending and the pause before it, the decoder gets every width but the last. -/
theorem events_first {I : δ → Prop} {m t last : ℕ} {ds : List ℕ} (henabled : s.enabled = true)
    (hskip : s.lowPass.skip = false) (hidle : D.active s.decoder = false) (hinv : I s.decoder)
    (hpass : ∀ dec, I dec → D.active dec = true → D.min1Period dec ≤ m)
    (hpending : D.decode s.decoder (b.uint (s.lowPass.edge2 - s.lowPass.edge0).toNat) =
      (s.decoder, none))
    (hpause : D.decode s.decoder (b.uint (micros t - s.lowPass.edge2).toNat) = (s.decoder, none))
    (hstep : ∀ dec, ∀ d ∈ b.uint (micros t - s.lowPass.edge2).toNat :: (ds ++ [last]), I dec →
      I (D.decode dec d).1)
    (hds : ∀ d ∈ ds ++ [last], m ≤ d ∧ d < 65536) :
    Mealy.events (onEdge b D) s (stamps t (0 :: (ds ++ [last]))) =
      Mealy.events D.decode s.decoder ds := by
  rcases pass_inactive (b := b) henabled hskip hidle t with ⟨hfirst, -, hdecoder, hout⟩
  rw [hpending] at hdecoder hout
  have htail := hfirst.processed hpass (by rw [hdecoder]; exact hinv) hstep hds
  rw [stamps_cons, Nat.add_zero, Mealy.events_cons, hout, events_eq, htail, hdecoder,
    ← List.cons_append, List.dropLast_concat, Mealy.events_cons, hpause]
  rfl

/-- The durations decoded at the edge at `t` and the next one, if no edge comes too soon. -/
def untilPulse (b : Board) (s : Filtered δ) (t : ℕ) : List ℕ :=
  if s.lowPass.skip then [b.uint (micros t - s.lowPass.edge0).toNat]
  else [b.uint (s.lowPass.edge2 - s.lowPass.edge0).toNat,
    b.uint (micros t - s.lowPass.edge2).toNat]

/-- The handler without the order to drop an edge, as if it had seen `edge0` twice. -/
def passing (s : Filtered δ) : Filtered δ :=
  { s with lowPass := { edge0 := s.lowPass.edge0, edge2 := s.lowPass.edge0, skip := false } }

/-- An inactive decoder does not notice that an edge is dropped, but for the time of the last
one. -/
theorem events_passing (henabled : s.enabled = true) (hskip : s.lowPass.skip = true)
    (hidle : D.active s.decoder = false) (hzero : D.decode s.decoder 0 = (s.decoder, none))
    (t : ℕ) (ts : List ℕ) :
    Mealy.events (onEdge b D) s (t :: ts) = Mealy.events (onEdge b D) s.passing (t :: ts) := by
  have hsame : onEdge b D s.passing t = s.onEdge b D t := by
    have huint : b.uint 0 = 0 := b.uint_of_lt (by decide)
    rw [onEdge_skip henabled hskip, passing, onEdge, if_pos henabled, filter, LowPass.onEdge]
    simp only [hidle, Bool.false_and, Bool.false_eq_true, if_false, BitVec.sub_self,
      BitVec.toNat_zero, huint, hzero]
  rw [Mealy.events_cons, Mealy.events_cons, hsame]

end Filtered

end LamPI
