import LamPI.EspGateway.Console

/-!
# The timer of the sensors — `readSensors` and `loop` of `ESP-Gateway.ino`

The sensors are read when more than 63 seconds have gone since the timer was set.  `sensorLoops`
counts how often `readSensors` has found that it is too early, and at debug level 2 the average time
between the calls is printed, a quotient by that count.
-/

namespace LamPI
namespace EspGateway

/-! ## The sketch -/

def DEBUG : ℕ := 1

structure Timer where
  myTime : ULong
  sensorLoops : ℤ
  deriving DecidableEq

/-- `a / b`; a division by zero has no value. -/
def quotient (a b : ℤ) : Option ℤ := if b = 0 then none else some (a.tdiv b)

/-- What the statistics print: the free memory, and whether there is a connection then. -/
structure Report where
  heap : ℕ
  connected : Bool
  connectedLater : Bool
  deriving DecidableEq

/-- A call of `readSensors`: the level of `debug`, what `millis()` returns, first for the test and
then for `myTime`, and what the statistics print. -/
structure Round where
  debug : ℕ
  now : ULong
  later : ULong
  report : Report
  deriving DecidableEq

def Expired (myTime now : ULong) : Prop :=
  let delta := (now - myTime).toInt
  delta < 0 ∨ delta > 63000

instance (myTime now : ULong) : Decidable (Expired myTime now) := by
  unfold Expired
  infer_instance

def statistics (c : Round) (sensorLoops : ℤ) : Option (List Event) :=
  (quotient 63000 sensorLoops).map fun average =>
    [.append "Sensor Loops: ", .append (toString sensorLoops), .append ", Avg: ",
      .append (toString average), .append " ms", .print 2 c.debug c.report.connected,
      .append ", Heap: ", .append (toString c.report.heap),
      .print 2 c.debug c.report.connectedLater]

/-- `readSensors` up to the sensors themselves, and what it does with `OutString`.  `sensorLoops++`
wraps around. -/
def readSensors (c : Round) (t : Timer) : Option (Timer × List Event) :=
  if Expired t.myTime c.now then
    (if c.debug ≥ 2 then statistics c t.sensorLoops else some []).map fun events =>
      ({ myTime := c.later, sensorLoops := 0 }, events)
  else some ({ t with sensorLoops := Int.bmod (t.sensorLoops + 1) (2 ^ 32) }, [])

/-- What an iteration of `loop` finds: the network, the host, the argument of a request to set
`debug`, if one comes, and for `readSensors` the time and the statistics. -/
structure Iteration where
  wifi : Bool
  connected : Bool
  request : Option ℤ
  now : ULong
  later : ULong
  report : Report
  deriving DecidableEq

/-- `debug=atoi(arg)`; a `boolean` is a byte. -/
def Iteration.debug (i : Iteration) (debug : ℕ) : ℕ :=
  match i.request with
  | none => debug
  | some arg => (arg % 256).toNat

def Iteration.round (i : Iteration) (debug : ℕ) : Round :=
  ⟨i.debug debug, i.now, i.later, i.report⟩

/-- The variables of the sketch that decide about the division. -/
structure Sketch where
  timer : Timer
  debug : ℕ
  deriving DecidableEq

def setup (now : ULong) : Sketch := { timer := { myTime := now, sensorLoops := 0 }, debug := DEBUG }

/-- `loop`; `none` is a division by zero. -/
def loop (s : Sketch) (i : Iteration) : Option Sketch :=
  -- reconnecting takes the rest of the iteration
  if !i.wifi then some s
  else if !i.connected then some s
  else
    (readSensors (i.round s.debug) s.timer).map fun r =>
      { timer := r.1, debug := i.debug s.debug }

def run (is : List Iteration) (s : Sketch) : Option Sketch := is.foldlM loop s

/-! ## The schedule -/

def rounds : ℕ → List Iteration → List Round
  | _, [] => []
  | debug, i :: is =>
      if i.wifi && i.connected then i.round debug :: rounds (i.debug debug) is
      else rounds debug is

/-- After the calls, the timer has just been set to `myTime`: by `setup`, or by the last of them,
which has found it expired. -/
inductive SetsTimer (start : ULong) : List Round → ULong → Prop
  | setup : SetsTimer start [] start
  | expired {before quiet : List Round} {myTime : ULong} {c : Round}
      (h : SetsTimer start before myTime) (hquiet : ∀ q ∈ quiet, ¬Expired myTime q.now)
      (hexpired : Expired myTime c.now) : SetsTimer start (before ++ quiet ++ [c]) c.later

/-- Between a call that sets the timer, or `setup`, and the next one that finds it expired at debug
level 2 there are calls, and not a multiple of `2 ^ 32`. -/
def Visited (start : ULong) (cs : List Round) : Prop :=
  ∀ before quiet c after myTime, cs = before ++ quiet ++ c :: after →
    SetsTimer start before myTime → (∀ q ∈ quiet, ¬Expired myTime q.now) →
      Expired myTime c.now → c.debug ≥ 2 → ¬2 ^ 32 ∣ quiet.length

variable {start myTime : ULong} {c : Round} {t : Timer} {before quiet cs : List Round}

/-! ## Calls of `readSensors` -/

theorem readSensors_quiet (h : ¬Expired myTime c.now) (n : ℤ) :
    readSensors c ⟨myTime, n⟩ = some (⟨myTime, Int.bmod (n + 1) (2 ^ 32)⟩, []) := if_neg h

/-- There is a division by zero exactly if the statistics are printed of no calls. -/
theorem readSensors_eq_none_iff (h : Expired myTime c.now) (n : ℤ) :
    readSensors c ⟨myTime, n⟩ = none ↔ c.debug ≥ 2 ∧ n = 0 := by
  rw [readSensors, if_pos h, Option.map_eq_none_iff]
  by_cases hdebug : c.debug ≥ 2
  · by_cases hzero : n = 0 <;> simp [hdebug, hzero, statistics, quotient]
  · simp [hdebug]

/-- What a call that finds the timer expired returns, if it does, is the timer set anew. -/
theorem readSensors_expired (h : Expired myTime c.now) {n : ℤ} {r : Timer × List Event}
    (hr : readSensors c ⟨myTime, n⟩ = some r) : r.1 = ⟨c.later, 0⟩ := by
  rw [readSensors, if_pos h] at hr
  rcases Option.map_eq_some_iff.1 hr with ⟨events, -, rfl⟩
  rfl

def afterRounds (cs : List Round) (t : Timer) : Option Timer :=
  cs.foldlM (fun t c => (readSensors c t).map Prod.fst) t

theorem afterRounds_append (cs cs' : List Round) (t : Timer) :
    afterRounds (cs ++ cs') t = (afterRounds cs t).bind (afterRounds cs') :=
  List.foldlM_append

theorem afterRounds_cons (c : Round) (cs : List Round) (t : Timer) :
    afterRounds (c :: cs) t = ((readSensors c t).map Prod.fst).bind (afterRounds cs) :=
  List.foldlM_cons

/-- The timer goes through the calls that the iterations make. -/
theorem run_eq (is : List Iteration) (s : Sketch) :
    (run is s).map Sketch.timer = afterRounds (rounds s.debug is) s.timer := by
  induction is generalizing s with
  | nil => rfl
  | cons i is ih =>
      have hrun : run (i :: is) s = (loop s i).bind (run is) := List.foldlM_cons
      rw [hrun, rounds]
      by_cases hreached : (i.wifi && i.connected) = true
      · have hloop : loop s i = (readSensors (i.round s.debug) s.timer).map fun r =>
            { timer := r.1, debug := i.debug s.debug } := by
          rw [Bool.and_eq_true] at hreached
          simp [loop, hreached.1, hreached.2]
        rw [if_pos hreached, afterRounds_cons, hloop]
        cases readSensors (i.round s.debug) s.timer with
        | none => rfl
        | some r => exact ih ⟨r.1, i.debug s.debug⟩
      · have hloop : loop s i = some s := by
          cases hwifi : i.wifi <;> cases hconnected : i.connected <;>
            simp_all [loop]
        rw [if_neg hreached, hloop]
        exact ih s

/-- Calls before the timer expires are counted. -/
theorem afterRounds_quiet (hquiet : ∀ q ∈ quiet, ¬Expired myTime q.now) (n : ℤ) :
    afterRounds quiet ⟨myTime, Int.bmod n (2 ^ 32)⟩ =
      some ⟨myTime, Int.bmod (n + quiet.length) (2 ^ 32)⟩ := by
  induction quiet generalizing n with
  | nil => simp [afterRounds]
  | cons q quiet ih =>
      have hq : ¬Expired myTime q.now := hquiet q List.mem_cons_self
      have hstep := readSensors_quiet hq (Int.bmod n (2 ^ 32))
      have hrest := ih (fun q' hq' => hquiet q' (List.mem_cons_of_mem q hq')) (n + 1)
      have hsum : n + 1 + quiet.length = n + (q :: quiet).length := by
        rw [List.length_cons]
        omega
      simp only [Int.bmod_add_bmod] at hstep
      rw [afterRounds_cons, hstep, ← hsum, ← hrest]
      rfl

/-- The timer in which a call finds it, if the calls before have returned. -/
theorem timer_of_sets (h : SetsTimer start before myTime)
    (hquiet : ∀ q ∈ quiet, ¬Expired myTime q.now)
    (hrun : afterRounds (before ++ quiet) ⟨start, 0⟩ = some t) :
    t = ⟨myTime, Int.bmod quiet.length (2 ^ 32)⟩ := by
  induction h generalizing quiet t with
  | setup =>
      have hcount := afterRounds_quiet hquiet 0
      rw [Int.zero_add] at hcount
      exact Option.some.inj (hrun.symm.trans hcount)
  | @expired before quiet' myTime' c h hquiet' hexpired ih =>
      rw [afterRounds_append, afterRounds_append] at hrun
      rcases Option.bind_eq_some_iff.1 hrun with ⟨t₂, hset, hrest⟩
      rcases Option.bind_eq_some_iff.1 hset with ⟨t₁, hbefore, hcall⟩
      rw [ih hquiet' hbefore, afterRounds_cons] at hcall
      rcases Option.bind_eq_some_iff.1 hcall with ⟨t₃, hread, hnil⟩
      rcases Option.map_eq_some_iff.1 hread with ⟨r, hr, rfl⟩
      cases hnil
      rw [readSensors_expired hexpired hr] at hrest
      have hcount := afterRounds_quiet hquiet 0
      rw [Int.zero_add] at hcount
      exact Option.some.inj (hrest.symm.trans hcount)

/-- The calls that may divide by zero leave no timer. -/
theorem Visited.of_append {cs' : List Round} (h : Visited start (cs ++ cs')) :
    Visited start cs := by
  intro before quiet c after myTime hsplit
  refine h before quiet c (after ++ cs') myTime ?_
  rw [hsplit]
  simp

/-- If there are calls whenever there have to be, the timer goes through all calls. -/
theorem exists_afterRounds (h : Visited start cs) :
    ∃ before quiet myTime, cs = before ++ quiet ∧ SetsTimer start before myTime ∧
      (∀ q ∈ quiet, ¬Expired myTime q.now) ∧
      afterRounds cs ⟨start, 0⟩ = some ⟨myTime, Int.bmod quiet.length (2 ^ 32)⟩ := by
  induction cs using List.reverseRecOn with
  | nil => exact ⟨[], [], start, rfl, SetsTimer.setup, by simp, rfl⟩
  | append_singleton cs c ih =>
      rcases ih h.of_append with ⟨before, quiet, myTime, hsplit, hsets, hquiet, hrun⟩
      by_cases hexpired : Expired myTime c.now
      -- the call sets the timer
      · have hok : ¬(c.debug ≥ 2 ∧ Int.bmod quiet.length (2 ^ 32) = 0) := by
          rintro ⟨hdebug, hzero⟩
          refine h before quiet c [] myTime (by rw [hsplit]) hsets hquiet hexpired hdebug ?_
          exact_mod_cast Int.dvd_of_bmod_eq_zero hzero
        rcases Option.ne_none_iff_exists'.1 (mt (readSensors_eq_none_iff hexpired _).1 hok) with
          ⟨r, hr⟩
        refine ⟨before ++ quiet ++ [c], [], c.later, by rw [hsplit, List.append_nil],
          SetsTimer.expired hsets hquiet hexpired, by simp, ?_⟩
        rw [afterRounds_append, hrun, Option.bind_some, afterRounds_cons, hr, Option.map_some,
          readSensors_expired hexpired hr]
        rfl
      -- the call is counted
      · have hstep := readSensors_quiet hexpired (Int.bmod quiet.length (2 ^ 32))
        refine ⟨before, quiet ++ [c], myTime, by rw [hsplit, List.append_assoc], hsets, ?_, ?_⟩
        · intro q hq
          rcases List.mem_append.1 hq with hq | hq
          · exact hquiet q hq
          · rw [List.mem_singleton.1 hq]
            exact hexpired
        · simp only [Int.bmod_add_bmod] at hstep
          rw [afterRounds_append, hrun, Option.bind_some, afterRounds_cons, hstep,
            List.length_append]
          rfl

/-- Calls do not divide by zero exactly if there are calls whenever there have to be. -/
theorem afterRounds_ne_none_iff : afterRounds cs ⟨start, 0⟩ ≠ none ↔ Visited start cs := by
  constructor
  · intro hrun before quiet c after myTime hsplit hsets hquiet hexpired hdebug hdvd
    apply hrun
    rw [hsplit, afterRounds_append]
    cases hbefore : afterRounds (before ++ quiet) ⟨start, 0⟩ with
    | none => rfl
    | some t =>
        -- the count has come round to zero
        have hzero : Int.bmod quiet.length (2 ^ 32) = 0 :=
          Int.bmod_eq_zero_of_dvd (by exact_mod_cast hdvd)
        rw [timer_of_sets hsets hquiet hbefore, Option.bind_some, afterRounds_cons,
          (readSensors_eq_none_iff hexpired _).2 ⟨hdebug, hzero⟩]
        rfl
  · intro h
    rcases exists_afterRounds h with ⟨_, _, _, -, -, -, hrun⟩
    rw [hrun]
    exact Option.some_ne_none _

/-! ## The sketch divides by zero -/

/-- The sketch never divides by zero exactly if `readSensors` is called, and not a multiple of
`2 ^ 32` times, between any setting of the timer and the call that finds it expired at debug
level 2. -/
theorem run_ne_none_iff (start : ULong) (is : List Iteration) :
    run is (setup start) ≠ none ↔ Visited start (rounds DEBUG is) := by
  have hrun : (run is (setup start)).map Sketch.timer =
      afterRounds (rounds DEBUG is) ⟨start, 0⟩ := run_eq is (setup start)
  rw [← afterRounds_ne_none_iff, ← hrun, Ne, Ne, Option.map_eq_none_iff]

/-- The network is down for 64 seconds from the start on.  In the first iteration after that, debug
level 2 is asked for, and `readSensors` divides by zero. -/
theorem not_run_ne_none :
    ¬∀ (start : ULong) (is : List Iteration), run is (setup start) ≠ none := by
  intro h
  exact h 0 [⟨false, false, none, 0, 0, ⟨0, true, true⟩⟩,
    ⟨true, true, some 2, 64000, 64000, ⟨0, true, true⟩⟩] (by decide)

end EspGateway
end LamPI
