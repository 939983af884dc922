import LamPI.Library.Mealy
import Mathlib.Tactic.Ring
import Mathlib.Tactic.Linarith

/-!
# PulseLine — an output pin, its edges, and the clock that times them

A program drives a pin by writing levels and waiting.  A write makes an edge only when it
changes the level, so the line is a Mealy machine whose events are the edge times:

- `stamps t ds`   : the times reached from `t` by the delays `ds`
- `measured e ts` : what a free-running `w`-bit clock, last read as `e`, measures between the
  times `ts`
-/

namespace PulseLine

/-- What a program does to an output pin. -/
inductive Action where
  | write (level : Bool)
  | wait (us : ℕ)
  deriving DecidableEq, Repr

/-- The pin at a moment of real time. -/
structure Line where
  level : Bool
  now : ℕ
  deriving DecidableEq, Repr

/-- One action; the event is the time of the edge it makes. -/
def Line.step (l : Line) : Action → Line × Option ℕ
  | .write v => if v = l.level then (l, none) else ({ l with level := v }, some l.now)
  | .wait us => ({ l with now := l.now + us }, none)

/-- The times of the edges that a list of actions makes. -/
def edges (l : Line) (acts : List Action) : List ℕ := Mealy.events Line.step l acts

/-- The pin after a list of actions. -/
def after (l : Line) (acts : List Action) : Line := Mealy.final Line.step l acts

@[simp] theorem edges_nil (l : Line) : edges l [] = [] := rfl

@[simp] theorem after_nil (l : Line) : after l [] = l := rfl

theorem edges_append (l : Line) (as bs : List Action) :
    edges l (as ++ bs) = edges l as ++ edges (after l as) bs := Mealy.events_append l as bs

theorem after_append (l : Line) (as bs : List Action) :
    after l (as ++ bs) = after (after l as) bs := Mealy.final_append l as bs

@[simp] theorem edges_wait (v : Bool) (t us : ℕ) (as : List Action) :
    edges ⟨v, t⟩ (.wait us :: as) = edges ⟨v, t + us⟩ as := rfl

@[simp] theorem after_wait (v : Bool) (t us : ℕ) (as : List Action) :
    after ⟨v, t⟩ (.wait us :: as) = after ⟨v, t + us⟩ as := rfl

@[simp] theorem edges_write_same (v : Bool) (t : ℕ) (as : List Action) :
    edges ⟨v, t⟩ (.write v :: as) = edges ⟨v, t⟩ as := by
  simp [edges, Line.step]

@[simp] theorem after_write (v w : Bool) (t : ℕ) (as : List Action) :
    after ⟨v, t⟩ (.write w :: as) = after ⟨w, t⟩ as := by
  cases v <;> cases w <;> rfl

@[simp] theorem edges_write_true (t : ℕ) (as : List Action) :
    edges ⟨false, t⟩ (.write true :: as) = t :: edges ⟨true, t⟩ as := rfl

@[simp] theorem edges_write_false (t : ℕ) (as : List Action) :
    edges ⟨true, t⟩ (.write false :: as) = t :: edges ⟨false, t⟩ as := rfl

/-! ## Times reached by delays -/

/-- The times reached from `t` after each of the delays. -/
def stamps : ℕ → List ℕ → List ℕ
  | _, [] => []
  | t, d :: ds => (t + d) :: stamps (t + d) ds

@[simp] theorem stamps_nil (t : ℕ) : stamps t [] = [] := rfl

@[simp] theorem stamps_cons (t d : ℕ) (ds : List ℕ) :
    stamps t (d :: ds) = (t + d) :: stamps (t + d) ds := rfl

theorem stamps_append (t : ℕ) (ds es : List ℕ) :
    stamps t (ds ++ es) = stamps t ds ++ stamps (t + ds.sum) es := by
  induction ds generalizing t with
  | nil => simp
  | cons d ds ih => simp [ih, Nat.add_assoc]

/-- A wait before the first edge is part of the first delay. -/
theorem stamps_wait (t p d : ℕ) (ds : List ℕ) :
    stamps (t + p) (d :: ds) = stamps t ((p + d) :: ds) := by
  simp [Nat.add_assoc]

theorem drop_stamps (t k : ℕ) (ds : List ℕ) :
    (stamps t ds).drop k = stamps (t + (ds.take k).sum) (ds.drop k) := by
  induction k generalizing t ds with
  | zero => simp
  | succ k ih =>
      cases ds with
      | nil => simp
      | cons d ds => simp [ih, Nat.add_assoc]

/-! ## Copies of a frame -/

/-- The delays between the edges of `n` copies of a frame that leaves the pin at `out`; `ws l` are
those of a copy that finds the pin at `l`. -/
def copies (ws : Bool → List ℕ) (out : Bool) : ℕ → Bool → List ℕ
  | 0, _ => []
  | n + 1, l => ws l ++ copies ws out n out

theorem edges_copies {frame : List Action} {ws : Bool → List ℕ} {out : Bool}
    (h : ∀ l t, edges ⟨l, t⟩ frame = stamps t (ws l) ∧
      after ⟨l, t⟩ frame = ⟨out, t + (ws l).sum⟩) (n : ℕ) (l : Bool) (t : ℕ) :
    edges ⟨l, t⟩ (List.replicate n frame).flatten = stamps t (copies ws out n l) ∧
      (after ⟨l, t⟩ (List.replicate n frame).flatten).now = t + (copies ws out n l).sum := by
  induction n generalizing l t with
  | zero => exact ⟨rfl, rfl⟩
  | succ n ih =>
      rcases h l t with ⟨hedges, hafter⟩
      rcases ih out (t + (ws l).sum) with ⟨ihedges, ihafter⟩
      rw [List.replicate_succ, List.flatten_cons, copies]
      constructor
      · rw [edges_append, hedges, hafter, ihedges, ← stamps_append]
      · rw [after_append, hafter, ihafter, Nat.add_assoc, ← List.sum_append]

/-- The pin is written low at the end: there may be one more edge. -/
theorem edges_copies_low {frame : List Action} {ws : Bool → List ℕ} {out : Bool}
    (h : ∀ l t, edges ⟨l, t⟩ frame = stamps t (ws l) ∧
      after ⟨l, t⟩ frame = ⟨out, t + (ws l).sum⟩) (n : ℕ) (l : Bool) (t : ℕ) :
    ∃ last, (last = [] ∨ last = [0]) ∧
      edges ⟨l, t⟩ ((List.replicate n frame).flatten ++ [.write false]) =
        stamps t (copies ws out n l ++ last) := by
  rcases edges_copies h n l t with ⟨hedges, hnow⟩
  rw [edges_append, hedges]
  rcases hl : after ⟨l, t⟩ (List.replicate n frame).flatten with ⟨l', now⟩
  rw [hl] at hnow
  cases l' with
  | false => exact ⟨[], Or.inl rfl, by simp⟩
  | true =>
      refine ⟨[0], Or.inr rfl, ?_⟩
      rw [stamps_append, ← hnow]
      rfl

theorem mem_copies {ws : Bool → List ℕ} {out l : Bool} {n d : ℕ} (h : d ∈ copies ws out n l) :
    ∃ l', d ∈ ws l' := by
  induction n generalizing l with
  | zero => cases h
  | succ n ih =>
      rcases List.mem_append.1 h with h | h
      · exact ⟨l, h⟩
      · exact ih h

/-- A machine that is silent at the first copy of a train, and then left as it was by every copy. -/
theorem events_stamps_copies {σ ε : Type*} {step : σ → ℕ → σ × Option ε} {K : σ → ℕ → Prop}
    {w : List ℕ} (hstep : ∀ s t, K s t → K (Mealy.final step s (stamps t w)) (t + w.sum) ∧
      Mealy.events step s (stamps t w) = []) (n : ℕ) {s : σ} {t : ℕ}
    (hfirst : K (Mealy.final step s (stamps t w)) (t + w.sum) ∧
      Mealy.events step s (stamps t w) = []) :
    Mealy.events step s (stamps t (List.replicate n w).flatten) = [] := by
  induction n generalizing s t with
  | zero => rfl
  | succ n ih =>
      rcases hfirst with ⟨hnext, hquiet⟩
      rw [List.replicate_succ, List.flatten_cons, stamps_append, Mealy.events_append, hquiet,
        ih (hstep _ _ hnext)]
      rfl

/-! ## Pulse trains -/

/-- High for `high`, then low for `low`. -/
def pulse (high low : ℕ) : List Action := [.write true, .wait high, .write false, .wait low]

/-- The delays between the edges of a train of pulses. -/
def widths (ps : List (ℕ × ℕ)) : List ℕ := ps.flatMap fun p => [p.1, p.2]

/-- The actions of a train of pulses. -/
def train (ps : List (ℕ × ℕ)) : List Action := ps.flatMap fun p => pulse p.1 p.2

@[simp] theorem widths_append (ps qs : List (ℕ × ℕ)) :
    widths (ps ++ qs) = widths ps ++ widths qs := List.flatMap_append

@[simp] theorem train_append (ps qs : List (ℕ × ℕ)) : train (ps ++ qs) = train ps ++ train qs :=
  List.flatMap_append

/-- The actions tell the pulses apart. -/
theorem train_inj {ps qs : List (ℕ × ℕ)} (h : train ps = train qs) : ps = qs := by
  induction ps generalizing qs with
  | nil =>
      cases qs with
      | nil => rfl
      | cons q qs => cases h
  | cons p ps ih =>
      cases qs with
      | nil => cases h
      | cons q qs =>
          injection h with _ h
          injection h with hhigh h
          injection h with _ h
          injection h with hlow h
          injection hhigh with hhigh
          injection hlow with hlow
          rw [ih h, Prod.ext hhigh hlow]

theorem train_replicate (n : ℕ) (ps : List (ℕ × ℕ)) :
    train (List.replicate n ps).flatten = (List.replicate n (train ps)).flatten := by
  induction n with
  | zero => rfl
  | succ n ih =>
      rw [List.replicate_succ, List.replicate_succ, List.flatten_cons, List.flatten_cons,
        train_append, ih]

theorem widths_replicate (n : ℕ) (ps : List (ℕ × ℕ)) :
    widths (List.replicate n ps).flatten = (List.replicate n (widths ps)).flatten := by
  induction n with
  | zero => rfl
  | succ n ih =>
      rw [List.replicate_succ, List.replicate_succ, List.flatten_cons, List.flatten_cons,
        widths_append, ih]

/-- A train on an idle line makes an edge at once and then one after every delay but the last. -/
theorem edges_train (t : ℕ) (ps : List (ℕ × ℕ)) :
    edges ⟨false, t⟩ (train ps) = stamps t (0 :: widths ps).dropLast := by
  induction ps generalizing t with
  | nil => rfl
  | cons p ps ih =>
      have hcons : train (p :: ps) = pulse p.1 p.2 ++ train ps := rfl
      have hpulse : after ⟨false, t⟩ (pulse p.1 p.2) = ⟨false, t + p.1 + p.2⟩ := by
        simp [pulse]
      have hedges : edges ⟨false, t⟩ (pulse p.1 p.2) = [t, t + p.1] := by
        simp [pulse]
      have hwidths : widths (p :: ps) = [p.1, p.2] ++ widths ps := rfl
      rw [hcons, edges_append, hpulse, hedges, ih, hwidths]
      cases h : widths ps with
      | nil => simp
      | cons d ds => simp

theorem mem_widths {ps : List (ℕ × ℕ)} {d : ℕ} : d ∈ widths ps ↔ ∃ q ∈ ps, d = q.1 ∨ d = q.2 := by
  simp [widths]

/-- The pulses of a train, one by one. -/
theorem flatten_widths (ps : List (ℕ × ℕ)) : (ps.map fun q => [q.1, q.2]).flatten = widths ps := by
  rw [widths, List.flatMap_def]

/-! ## Measuring with a wrapping clock -/

variable {w : ℕ}

/-- The intervals between the times `ts` as a `w`-bit clock, last read as `e`, shows them. -/
def measured (e : BitVec w) : List ℕ → List ℕ
  | [] => []
  | t :: ts => (BitVec.ofNat w t - e).toNat :: measured (BitVec.ofNat w t) ts

@[simp] theorem measured_nil (e : BitVec w) : measured e [] = [] := rfl

@[simp] theorem measured_cons (e : BitVec w) (t : ℕ) (ts : List ℕ) :
    measured e (t :: ts) = (BitVec.ofNat w t - e).toNat :: measured (BitVec.ofNat w t) ts := rfl

theorem measured_append (e : BitVec w) (ts us : List ℕ) :
    ∃ ds, measured e (ts ++ us) = measured e ts ++ ds := by
  induction ts generalizing e with
  | nil => exact ⟨_, rfl⟩
  | cons t ts ih =>
      rcases ih (BitVec.ofNat w t) with ⟨ds, hds⟩
      exact ⟨ds, by rw [List.cons_append, measured_cons, hds]; rfl⟩

/-- The clock shows the true delay as long as it is shorter than one turn. -/
theorem clock_sub {d : ℕ} (t : ℕ) (h : d < 2 ^ w) :
    (BitVec.ofNat w (t + d) - BitVec.ofNat w t).toNat = d := by
  have hadd : BitVec.ofNat w (t + d) = BitVec.ofNat w t + BitVec.ofNat w d :=
    BitVec.ofNat_add t d
  rw [hadd, BitVec.add_comm, BitVec.add_sub_cancel, BitVec.toNat_ofNat, Nat.mod_eq_of_lt h]

theorem measured_stamps {t : ℕ} {ds : List ℕ} (h : ∀ d ∈ ds, d < 2 ^ w) :
    measured (BitVec.ofNat w t) (stamps t ds) = ds := by
  induction ds generalizing t with
  | nil => rfl
  | cons d ds ih =>
      rw [stamps_cons, measured_cons, clock_sub t (h d (by simp)),
        ih (fun x hx => h x (by simp [hx]))]

/-- From an arbitrary last reading, only the first interval is arbitrary. -/
theorem measured_stamps_cons {e : BitVec w} {t d : ℕ} {ds : List ℕ} (h : ∀ x ∈ ds, x < 2 ^ w) :
    measured e (stamps t (d :: ds)) = (BitVec.ofNat w (t + d) - e).toNat :: ds := by
  rw [stamps_cons, measured_cons, measured_stamps h]

end PulseLine
