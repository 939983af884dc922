import Mathlib.Data.List.TakeWhile
import Mathlib.Data.Nat.Notation

/-!
# The serial line — `loop()` of `ArduinoGateway.ino`

`loop` collects the bytes of the serial port in `readLine`, and hands every line to `parseCmd`.
A write outside of `readLine` hits whatever is stored behind it, so that the run of the model ends
there.
-/

namespace LamPI
namespace ArduinoGateway
namespace Serial

def nul : Char := Char.ofNat 0

def newline : Char := Char.ofNat 10

abbrev Buffer := Vector Char 32

/-- A write to `readLine` at an index that it does not have. -/
structure Overrun where
  index : ℕ
  deriving DecidableEq, Repr

/-- `readLine`, `readCnt`, and the strings that `parseCmd` has been called with. -/
structure Port where
  readLine : Buffer
  readCnt : ℕ
  calls : List (List Char)
  deriving DecidableEq, Repr

def store (readLine : Buffer) (i : ℕ) (c : Char) : Except Overrun Buffer :=
  if h : i < 32 then .ok (readLine.set i c h) else .error ⟨i⟩

/-- The string that `readLine` is for a function that gets the pointer. -/
def cString (readLine : Buffer) : List Char := readLine.toList.takeWhile (· ≠ nul)

section Loop

/- What `parseCmd` leaves in the buffer, into which `strtok` writes. -/
variable (parsed : Buffer → Buffer)

/-- The body of `while (Serial.available())`. -/
def readByte (s : Port) (readChar : Char) : Except Overrun Port :=
  if readChar = newline then do
    let readLine ← store s.readLine s.readCnt nul
    let cleared ← store (parsed readLine) 0 nul
    pure { readLine := cleared, readCnt := 0, calls := s.calls ++ [cString readLine] }
  else do
    let readLine ← store s.readLine s.readCnt readChar
    let closed ← store readLine (s.readCnt + 1) nul
    pure { s with readLine := closed, readCnt := s.readCnt + 1 }

def loop (s : Port) (available : List Char) : Except Overrun Port :=
  available.foldlM (readByte parsed) s

def loops (s : Port) (chunks : List (List Char)) : Except Overrun Port :=
  chunks.foldlM (loop parsed) s

end Loop

/-! ## Lines -/

def lines (bytes : List Char) : List (List Char) := (bytes.splitOn newline).dropLast

/-- All writes stay inside of `readLine`, and `parseCmd` has been called once for each line, with
exactly its bytes. -/
def Framed (parsed : Buffer → Buffer) (s : Port) (chunks : List (List Char)) : Prop :=
  ∃ s', loops parsed s chunks = .ok s' ∧ s'.calls = s.calls ++ lines chunks.flatten

/-- The pieces between the newlines, when `part` of the first one has been read before. -/
def pieces (part bytes : List Char) : List (List Char) :=
  (bytes.splitOn newline).modifyHead (part ++ ·)

theorem pieces_nil (part : List Char) : pieces part [] = [part] := by
  simp [pieces, List.splitOn_eq_splitOnP]

theorem pieces_nil_part (bytes : List Char) : pieces [] bytes = bytes.splitOn newline := by
  unfold pieces
  cases bytes.splitOn newline <;> rfl

theorem pieces_newline (part bytes : List Char) :
    pieces part (newline :: bytes) = part :: pieces [] bytes := by
  rw [pieces_nil_part]
  simp [pieces, List.splitOn_cons_eq_if_modifyHead]

theorem pieces_char (part bytes : List Char) {c : Char} (hc : c ≠ newline) :
    pieces part (c :: bytes) = pieces (part ++ [c]) bytes := by
  simp [pieces, List.splitOn_cons_eq_if_modifyHead, hc, Function.comp_def]

theorem pieces_ne_nil (part bytes : List Char) : pieces part bytes ≠ [] := by
  simp [pieces]

/-- What has been read of the first piece is its start. -/
theorem exists_prefix (part bytes : List Char) : ∃ l ∈ pieces part bytes, part <+: l := by
  cases hsplit : bytes.splitOn newline with
  | nil => exact absurd hsplit (List.splitOn_ne_nil newline bytes)
  | cons l ls =>
      refine ⟨part ++ l, ?_, List.prefix_append part l⟩
      rw [pieces, hsplit]
      exact List.mem_cons_self

/-! ## One byte -/

/-- The bytes since the last newline are the start of `readLine`. -/
structure Holds (s : Port) (part : List Char) : Prop where
  count : s.readCnt = part.length
  fits : part.length ≤ 31
  bytes : part <+: s.readLine.toList

variable {parsed : Buffer → Buffer} {s : Port} {part : List Char} {c : Char}

theorem store_of_lt (readLine : Buffer) {i : ℕ} (c : Char) (h : i < 32) :
    store readLine i c = .ok (readLine.set i c h) := dif_pos h

/-- Writing the byte behind the ones that have been read. -/
theorem toList_set {readLine : Buffer} (hpart : part <+: readLine.toList) (h : part.length < 32)
    (c : Char) : ∃ rest, (readLine.set part.length c h).toList = part ++ c :: rest := by
  rcases hpart with ⟨rest, hrest⟩
  have hlen : part.length + rest.length = 32 := by
    rw [← List.length_append, hrest, Vector.length_toList]
  cases rest with
  | nil => exact absurd hlen (by simpa using Nat.ne_of_lt h)
  | cons x rest =>
      refine ⟨rest, ?_⟩
      rw [Vector.toList_set, ← hrest, List.set_append_right _ _ (Nat.le_refl _), Nat.sub_self]
      rfl

/-- The string in front of a terminator. -/
theorem takeWhile_append_nul (part rest : List Char) :
    (part ++ nul :: rest).takeWhile (· ≠ nul) = part.takeWhile (· ≠ nul) := by
  induction part with
  | nil => simp
  | cons x part ih =>
      simp only [List.cons_append, List.takeWhile_cons, ih]

/-- A newline: the line is handed over, up to the first NUL. -/
theorem readByte_newline (parsed : Buffer → Buffer) (h : Holds s part) :
    ∃ s', readByte parsed s newline = .ok s' ∧ Holds s' [] ∧
      s'.calls = s.calls ++ [part.takeWhile (· ≠ nul)] := by
  have hlt : part.length < 32 := Nat.lt_succ_of_le h.fits
  rcases toList_set h.bytes hlt nul with ⟨rest, hclosed⟩
  have hstring : cString (s.readLine.set part.length nul hlt) = part.takeWhile (· ≠ nul) := by
    rw [cString, hclosed, takeWhile_append_nul]
  refine ⟨⟨(parsed (s.readLine.set part.length nul hlt)).set 0 nul (Nat.zero_lt_succ 31), 0,
    s.calls ++ [part.takeWhile (· ≠ nul)]⟩, ?_, ⟨rfl, Nat.zero_le _, List.nil_prefix⟩, rfl⟩
  rw [readByte, if_pos rfl, h.count, store_of_lt _ _ hlt, ← hstring]
  rfl

/-- Another byte, for which there is room. -/
theorem readByte_char (parsed : Buffer → Buffer) (h : Holds s part) (hroom : part.length < 31)
    (hc : c ≠ newline) :
    ∃ s', readByte parsed s c = .ok s' ∧ Holds s' (part ++ [c]) ∧ s'.calls = s.calls := by
  have hlt : part.length < 32 := Nat.lt_succ_of_lt hroom
  have hlen : (part ++ [c]).length = part.length + 1 := List.length_append
  have hnext : (part ++ [c]).length < 32 := by
    rw [hlen]
    exact Nat.succ_lt_succ hroom
  rcases toList_set h.bytes hlt c with ⟨rest, hstored⟩
  have hprefix : part ++ [c] <+: (s.readLine.set part.length c hlt).toList :=
    ⟨rest, by rw [hstored, List.append_assoc]; rfl⟩
  -- the terminator is written behind the new byte
  rcases toList_set hprefix hnext nul with ⟨rest', hclosed⟩
  refine ⟨{ s with
    readLine := (s.readLine.set part.length c hlt).set (part ++ [c]).length nul hnext,
    readCnt := (part ++ [c]).length }, ?_, ⟨rfl, Nat.le_of_lt_succ hnext, _, hclosed.symm⟩, rfl⟩
  rw [readByte, if_neg hc, h.count, store_of_lt _ _ hlt]
  simp only [bind, Except.bind, ← hlen, store_of_lt _ _ hnext]
  rfl

/-- Another byte, for which there is none: the terminator would be behind the buffer. -/
theorem readByte_full (parsed : Buffer → Buffer) (h : Holds s part) (hfull : part.length = 31)
    (hc : c ≠ newline) : readByte parsed s c = .error ⟨32⟩ := by
  have hcount : s.readCnt = 31 := h.count.trans hfull
  rw [readByte, if_neg hc, hcount, store_of_lt _ _ (by decide)]
  rfl

/-! ## All bytes -/

/-- The lines fit: `parseCmd` gets each of them up to its first NUL. -/
theorem loop_fits (parsed : Buffer → Buffer) (bytes : List Char) (h : Holds s part)
    (hfits : ∀ l ∈ pieces part bytes, l.length ≤ 31) :
    ∃ s', loop parsed s bytes = .ok s' ∧ s'.calls = s.calls ++
      (pieces part bytes).dropLast.map (fun l => l.takeWhile (· ≠ nul)) := by
  induction bytes generalizing s part with
  | nil =>
      refine ⟨s, rfl, ?_⟩
      rw [pieces_nil]
      exact (List.append_nil _).symm
  | cons c bytes ih =>
      by_cases hc : c = newline
      · subst hc
        rcases readByte_newline parsed h with ⟨s', hstep, hholds, hcalls⟩
        rw [pieces_newline] at hfits
        rcases ih hholds (fun l hl => hfits l (List.mem_cons_of_mem part hl)) with
          ⟨s'', hrest, hcalls'⟩
        refine ⟨s'', ?_, ?_⟩
        · rw [loop, List.foldlM_cons, hstep]
          exact hrest
        · rw [hcalls', hcalls, pieces_newline, List.dropLast_cons_of_ne_nil (pieces_ne_nil _ _),
            List.map_cons, List.append_assoc]
          rfl
      · rw [pieces_char _ _ hc] at hfits ⊢
        -- the piece that the byte belongs to fits
        have hroom : part.length < 31 := by
          rcases exists_prefix (part ++ [c]) bytes with ⟨l, hl, hprefix⟩
          have hle := hprefix.length_le.trans (hfits l hl)
          rwa [List.length_append] at hle
        rcases readByte_char parsed h hroom hc with ⟨s', hstep, hholds, hcalls⟩
        rcases ih hholds hfits with ⟨s'', hrest, hcalls'⟩
        refine ⟨s'', ?_, ?_⟩
        · rw [loop, List.foldlM_cons, hstep]
          exact hrest
        · rw [hcalls', hcalls]

/-- A line does not fit: there is a write behind the buffer. -/
theorem loop_overrun (parsed : Buffer → Buffer) (bytes : List Char) (h : Holds s part)
    (hlong : ¬∀ l ∈ pieces part bytes, l.length ≤ 31) :
    loop parsed s bytes = .error ⟨32⟩ := by
  induction bytes generalizing s part with
  | nil =>
      rw [pieces_nil, List.forall_mem_singleton] at hlong
      -- what has been read so far fits in any case
      exact absurd h.fits hlong
  | cons c bytes ih =>
      rw [loop, List.foldlM_cons]
      by_cases hc : c = newline
      · subst hc
        rcases readByte_newline parsed h with ⟨s', hstep, hholds, -⟩
        rw [hstep]
        -- the line that ends here fits, so that it is a later one that does not
        refine ih hholds fun hrest => hlong ?_
        rw [pieces_newline]
        exact List.forall_mem_cons.2 ⟨h.fits, hrest⟩
      · rw [pieces_char _ _ hc] at hlong
        by_cases hroom : part.length < 31
        · rcases readByte_char parsed h hroom hc with ⟨s', hstep, hholds, -⟩
          rw [hstep]
          exact ih hholds hlong
        -- no room is left for the terminator
        · have hfull : part.length = 31 := Nat.le_antisymm h.fits (Nat.le_of_not_lt hroom)
          rw [readByte_full parsed h hfull hc]
          rfl

/-- How the bytes are divided among the calls of `loop` makes no difference. -/
theorem loops_eq (parsed : Buffer → Buffer) (s : Port) (chunks : List (List Char)) :
    loops parsed s chunks = loop parsed s chunks.flatten := by
  induction chunks generalizing s with
  | nil => rfl
  | cons bytes chunks ih =>
      have hsplit : loop parsed s (bytes ++ chunks.flatten) =
          loop parsed s bytes >>= fun s' => loop parsed s' chunks.flatten := List.foldlM_append
      rw [loops, List.foldlM_cons, List.flatten_cons, hsplit]
      exact congrArg (loop parsed s bytes >>= ·) (funext ih)

/-- Cutting lines at NULs changes none of them exactly if none has a NUL. -/
theorem map_takeWhile_eq_self_iff (ls : List (List Char)) :
    ls.map (fun l => l.takeWhile (· ≠ nul)) = ls ↔ ∀ l ∈ ls, nul ∉ l := by
  have hone : ∀ l : List Char, l.takeWhile (· ≠ nul) = l ↔ nul ∉ l := by
    intro l
    rw [List.takeWhile_eq_self_iff]
    constructor
    · intro h hnul
      simpa using h nul hnul
    · intro h c hc
      exact decide_eq_true fun heq => h (heq ▸ hc)
  constructor
  · intro h l hl
    refine (hone l).1 ?_
    have hmap : ls.map (fun l => l.takeWhile (· ≠ nul)) = ls.map id := by rw [h, List.map_id]
    exact List.map_inj_left.1 hmap l hl
  · intro h
    calc
      ls.map (fun l => l.takeWhile (· ≠ nul)) = ls.map id :=
        List.map_congr_left fun l hl => (hone l).2 (h l hl)
      _ = ls := List.map_id ls

/-- After `setup`, however the bytes come in and whatever `parseCmd` does to the buffer: the lines
are framed faithfully exactly if none of them has more than 31 bytes and no finished one has a
NUL. -/
theorem framed_iff (parsed : Buffer → Buffer) (readLine : Buffer) (chunks : List (List Char)) :
    Framed parsed ⟨readLine, 0, []⟩ chunks ↔
      (∀ l ∈ chunks.flatten.splitOn newline, l.length ≤ 31) ∧
        ∀ l ∈ lines chunks.flatten, nul ∉ l := by
  have hholds : Holds ⟨readLine, 0, []⟩ [] := ⟨rfl, Nat.zero_le _, List.nil_prefix⟩
  unfold Framed lines
  rw [loops_eq, ← pieces_nil_part]
  by_cases hfits : ∀ l ∈ pieces [] chunks.flatten, l.length ≤ 31
  -- the run ends, and only NULs can make a difference
  · rcases loop_fits parsed chunks.flatten hholds hfits with ⟨s', hrun, hcalls⟩
    rw [hrun, ← map_takeWhile_eq_self_iff]
    constructor
    · rintro ⟨s'', hs'', hcalls'⟩
      cases hs''
      exact ⟨hfits, hcalls.symm.trans hcalls'⟩
    · rintro ⟨-, hnul⟩
      exact ⟨s', rfl, by rw [hcalls, hnul]⟩
  -- the run ends at the first write behind the buffer
  · rw [loop_overrun parsed chunks.flatten hholds hfits]
    constructor
    · rintro ⟨s', hs', -⟩
      cases hs'
    · rintro ⟨hfits', -⟩
      exact absurd hfits' hfits

/-- 32 bytes without a newline: the last terminator is written behind `readLine`. -/
theorem long_line_overrun :
    let bytes := List.replicate 32 (Char.ofNat 65)
    loops id ⟨Vector.replicate 32 nul, 0, []⟩ [bytes] = .error ⟨32⟩ ∧
      ¬Framed id ⟨Vector.replicate 32 nul, 0, []⟩ [bytes] := by
  intro bytes
  have hrun : loops id ⟨Vector.replicate 32 nul, 0, []⟩ [bytes] = .error ⟨32⟩ := by
    refine (loops_eq _ _ _).trans (@loop_overrun _ [] _ _ ⟨rfl, Nat.zero_le _, ?_⟩ ?_)
    · exact List.nil_prefix
    · decide
  refine ⟨hrun, ?_⟩
  rintro ⟨s', hs', -⟩
  rw [hrun] at hs'
  cases hs'

end Serial
end ArduinoGateway
end LamPI
