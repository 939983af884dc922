import LamPI.Arduino

/-!
# The console of the ESP gateway — `printConsole` of `ESP-Gateway.ino`

All parts of the sketch append their messages to the global `OutString` and print it with
`printConsole`.  A message that is too long is refused, and then `OutString` is not cleared: what is
appended next makes it longer still.
-/

namespace LamPI
namespace EspGateway

def A_MAXBUFSIZE : ℕ := 192

/-- `OutString` and `msgCnt`, what has been written to the daemon and what has been printed. -/
structure Console where
  OutString : String
  msgCnt : ℕ
  written : List String
  serial : List String
  deriving DecidableEq, Repr

/-- `s.c_str()`, to those who read it up to the first NUL. -/
def c_str (s : String) : String := String.ofList (s.toList.takeWhile fun c => c ≠ Char.ofNat 0)

/-- What `sprintf` makes of a message; `%d` takes the counter for an `int`. -/
def logMessage (msgCnt : ℕ) (s : String) : String :=
  "\x7b\"tcnt\":\"" ++ toString (Int.bmod msgCnt (2 ^ 32)) ++
    "\",\"type\":\"json\",\"action\":\"debug\",\"cmd\":\"logs\",\"message\":\"" ++ c_str s ++ "\"\x7d"

/-- `printConsole(s, d)`, and what it returns. -/
def printConsole (debug : ℕ) (connected : Bool) (c : Console) (s : String) (d : ℤ) : Console × ℤ :=
  if s.length + 40 ≥ A_MAXBUFSIZE then (c, -1)
  else
    let c :=
      if connected then
        let c := if debug ≥ d then { c with written := c.written ++ [logMessage c.msgCnt s] } else c
        let c := if debug ≥ 1 then { c with serial := c.serial ++ ["# " ++ s] } else c
        { c with msgCnt := Board.esp8266.uint (c.msgCnt + 1) }
      else if debug ≥ d then
        { c with serial := c.serial ++ ["#  <" ++ toString s.length ++ "> " ++ c_str s] }
      else c
    ({ c with OutString := "" }, 0)

/-! ## Runs -/

/-- What the sketch does with `OutString`; the debug level and the connection are those of the
moment. -/
inductive Event where
  | append (text : String)
  | print (d : ℤ) (debug : ℕ) (connected : Bool)
  deriving DecidableEq, Repr

def Event.isPrint : Event → Bool
  | .append _ => false
  | .print .. => true

def Console.step (c : Console) : Event → Console × Option ℤ
  | .append text => ({ c with OutString := c.OutString ++ text }, none)
  | .print d debug connected =>
      let r := printConsole debug connected c c.OutString d
      (r.1, some r.2)

def Console.after (c : Console) (events : ℕ → Event) : ℕ → Console
  | 0 => c
  | n + 1 => ((c.after events n).step (events n)).1

/-- How many characters have been appended between the last call of `printConsole` and event `n`. -/
def since (events : ℕ → Event) : ℕ → ℕ
  | 0 => 0
  | n + 1 =>
      match events n with
      | .append text => since events n + text.length
      | .print .. => 0

/-- The console does not get stuck: after every call `OutString` is empty, at most 100 characters
appended after that are not refused, and the length of `OutString` is bounded. -/
structure Unstuck (c : Console) (events : ℕ → Event) : Prop where
  cleared : ∀ n, (events n).isPrint → (c.after events (n + 1)).OutString = ""
  accepted : ∀ n, (events n).isPrint → ∀ m > n, (∀ i, n < i → i < m → ¬(events i).isPrint) →
    (events m).isPrint → since events m ≤ 100 →
      ((c.after events m).step (events m)).2 = some 0
  bounded : ∃ B, ∀ n, (c.after events n).OutString.length ≤ B

variable {c : Console} {events : ℕ → Event} {n : ℕ}

/-! ## One event -/

/-- A message that is short enough is taken. -/
theorem printConsole_taken (debug : ℕ) (connected : Bool) (c : Console) {s : String} (d : ℤ)
    (h : s.length + 40 < A_MAXBUFSIZE) :
    (printConsole debug connected c s d).1.OutString = "" ∧
      (printConsole debug connected c s d).2 = 0 := by
  rw [printConsole, if_neg (Nat.not_le.2 h)]
  exact ⟨rfl, rfl⟩

/-- A message that is not leaves everything as it is. -/
theorem printConsole_refused (debug : ℕ) (connected : Bool) (c : Console) {s : String} (d : ℤ)
    (h : A_MAXBUFSIZE ≤ s.length + 40) : printConsole debug connected c s d = (c, -1) := if_pos h

theorem after_append (c : Console) {text : String} (h : events n = .append text) :
    (c.after events (n + 1)).OutString = (c.after events n).OutString ++ text := by
  rw [Console.after, h]
  rfl

theorem since_append {text : String} (h : events n = .append text) :
    since events (n + 1) = since events n + text.length := by
  rw [since, h]

theorem since_print (h : (events n).isPrint) : since events (n + 1) = 0 := by
  unfold since
  split
  · next text happend =>
    rw [happend] at h
    cases h
  · rfl

/-- The result of a call, by what has been appended. -/
theorem step_print (hprint : (events n).isPrint) :
    ((c.after events n).OutString.length + 40 < A_MAXBUFSIZE →
      (c.after events (n + 1)).OutString = "" ∧
        ((c.after events n).step (events n)).2 = some 0) ∧
    (A_MAXBUFSIZE ≤ (c.after events n).OutString.length + 40 →
      c.after events (n + 1) = c.after events n) := by
  rw [Console.after]
  cases hevent : events n with
  | append text =>
      rw [hevent] at hprint
      cases hprint
  | print d debug connected =>
      constructor
      · intro hshort
        rcases printConsole_taken debug connected (c.after events n) d hshort with
          ⟨hempty, hresult⟩
        exact ⟨hempty, congrArg some hresult⟩
      · intro hlong
        exact congrArg Prod.fst (printConsole_refused debug connected (c.after events n) d hlong)

/-! ## All events -/

/-- While every call clears `OutString`, it holds what has been appended since the last one. -/
theorem length_after (hempty : c.OutString = "")
    (hcleared : ∀ n, (events n).isPrint → (c.after events n).OutString.length = since events n →
      (c.after events (n + 1)).OutString = "") (n : ℕ) :
    (c.after events n).OutString.length = since events n := by
  induction n with
  | zero =>
      rw [Console.after, hempty]
      rfl
  | succ n ih =>
      cases hevent : events n with
      | append text => rw [after_append c hevent, since_append hevent, String.length_append, ih]
      | print d debug connected =>
          have hprint : (events n).isPrint := by
            rw [hevent]
            rfl
          rw [hcleared n hprint ih, since_print hprint]
          rfl

/-- A console that does not get stuck has never been given too long a message, nor one that grows
without bound. -/
theorem Unstuck.short (hempty : c.OutString = "") (h : Unstuck c events) :
    (∀ n, (events n).isPrint → since events n + 40 < A_MAXBUFSIZE) ∧
      ∃ B, ∀ n, since events n ≤ B := by
  have hlength := length_after hempty fun n hprint _ => h.cleared n hprint
  constructor
  · intro n hprint
    -- a message that is refused would still be there
    by_contra hlong
    have hsame := (step_print (c := c) hprint).2 (by
      rw [hlength]
      exact Nat.le_of_not_lt hlong)
    have hzero : since events n = 0 := by
      rw [← hlength n, ← hsame, h.cleared n hprint]
      rfl
    rw [hzero] at hlong
    exact hlong (by decide)
  · rcases h.bounded with ⟨B, hB⟩
    exact ⟨B, fun n => by rw [← hlength n]; exact hB n⟩

/-- Short messages that do not grow without bound do not get the console stuck. -/
theorem unstuck_of_short (hempty : c.OutString = "")
    (hshort : ∀ n, (events n).isPrint → since events n + 40 < A_MAXBUFSIZE)
    (hbound : ∃ B, ∀ n, since events n ≤ B) : Unstuck c events := by
  have hfits : ∀ n, (events n).isPrint → (c.after events n).OutString.length = since events n →
      (c.after events n).OutString.length + 40 < A_MAXBUFSIZE := by
    intro n hprint hn
    rw [hn]
    exact hshort n hprint
  have hlength := length_after hempty fun n hprint hn => ((step_print hprint).1
    (hfits n hprint hn)).1
  refine ⟨fun n hprint => ((step_print hprint).1 (hfits n hprint (hlength n))).1, ?_, ?_⟩
  · intro n _ m _ _ hprint _
    exact ((step_print hprint).1 (hfits m hprint (hlength m))).2
  · rcases hbound with ⟨B, hB⟩
    exact ⟨B, fun n => by rw [hlength n]; exact hB n⟩

/-- Over all sequences of events: the console does not get stuck exactly if never more than 151
characters have been appended when `printConsole` is called, and what is appended between two
calls is bounded. -/
theorem unstuck_iff (c : Console) (events : ℕ → Event) :
    Unstuck { c with OutString := "" } events ↔
      (∀ n, (events n).isPrint → since events n < 152) ∧ ∃ B, ∀ n, since events n ≤ B := by
  have hsize : ∀ k, k + 40 < A_MAXBUFSIZE ↔ k < 152 := fun k => by
    unfold A_MAXBUFSIZE
    omega
  simp only [← hsize]
  exact ⟨Unstuck.short rfl, fun h => unstuck_of_short rfl h.1 h.2⟩

/-! ## A lost network -/

/-- `loop` while there is no network, for 8 rounds, and then the messages of a gateway that is
connected again. -/
def reconnecting (n : ℕ) : Event :=
  if n < 8 then .append "Network reconnect 1\n"
  else if n % 2 = 0 then .append "! Client re-connected" else .print 1 1 true

/-- The messages of `loop` are too long by then. -/
theorem reconnecting_stuck : ¬Unstuck ⟨"", 0, [], []⟩ reconnecting := by
  intro h
  have hshort := (h.short rfl).1 9 rfl
  revert hshort
  decide

end EspGateway
end LamPI
