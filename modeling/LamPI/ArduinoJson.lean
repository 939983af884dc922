import LamPI.Library.Tokens
import Mathlib.Data.List.Nodup

/-!
# ArduinoJson — `JsonParser.cpp` of the library that the sketches are built with

The parser reads keys and values with or without quotes, skips comments, and stops behind the brace
that closes the object.  What is inside of a nested array or object is not kept here, as nothing
looks at it, and memory is taken to suffice.
-/

namespace LamPI
namespace ArduinoJson

open Tokens

/-! ## Skipping -/

mutual

def skipSpacesAndComments : List Char → List Char
  | '/' :: '*' :: ptr => skipCStyleComment ptr
  | '/' :: '/' :: ptr => skipCppStyleComment ptr
  | c :: ptr => if c ∈ [' ', '\t', '\r', '\n'] then skipSpacesAndComments ptr else c :: ptr
  | [] => []

def skipCStyleComment : List Char → List Char
  | '*' :: '/' :: ptr => skipSpacesAndComments ptr
  | _ :: ptr => skipCStyleComment ptr
  | [] => []

def skipCppStyleComment : List Char → List Char
  | c :: ptr => if c = '\n' then skipSpacesAndComments ptr else skipCppStyleComment ptr
  | [] => []

end

def skip (charToSkip : Char) (readPtr : List Char) : Option (List Char) :=
  match skipSpacesAndComments readPtr with
  | c :: ptr => if c = charToSkip then some (skipSpacesAndComments ptr) else none
  | [] => none

/-! ## Texts -/

def isLetterOrNumber (c : Char) : Bool :=
  c.isDigit || c.isLower || c.isUpper || c = '-' || c = '.'

def apostrophe : Char := Char.ofNat 39
def quote : Char := Char.ofNat 34

def isQuote (c : Char) : Bool := c = apostrophe || c = quote

def unescapeChar (c : Char) : Char :=
  if c = 'b' then Char.ofNat 8
  else if c = 'f' then Char.ofNat 12
  else if c = 'n' then '\n'
  else if c = 'r' then '\r'
  else if c = 't' then '\t'
  else c

/-- The loop of `JsonParser::parseString` for a text in quotes, which the end of the input closes
too. -/
def parseQuoted (stopChar : Char) : List Char → List Char × List Char
  | [] => ([], [])
  | c :: readPtr =>
      if c = stopChar then ([], readPtr)
      else if c = '\\' then
        match readPtr with
        | [] => ([], [])
        | e :: readPtr =>
            let r := parseQuoted stopChar readPtr
            (unescapeChar e :: r.1, r.2)
      else
        let r := parseQuoted stopChar readPtr
        (c :: r.1, r.2)

def parseString (readPtr : List Char) : List Char × List Char :=
  match readPtr with
  | [] => ([], [])
  | c :: ptr =>
      if isQuote c then parseQuoted c ptr
      else (readPtr.takeWhile isLetterOrNumber, readPtr.dropWhile isLetterOrNumber)

/-! ## Values -/

/-- `JsonVariant`, as far as a parser makes it. -/
inductive JsonVariant where
  | string (text : List Char)
  | unparsed (text : List Char)
  | nested
  deriving DecidableEq, Repr

abbrev JsonObject := List (List Char × JsonVariant)

def set (object : JsonObject) (key : List Char) (value : JsonVariant) : JsonObject :=
  if key ∈ object.map Prod.fst then
    object.map fun pair => if pair.1 = key then (key, value) else pair
  else object ++ [(key, value)]

mutual

/-- `JsonParser::parseAnythingTo`, with `nestingLimit` levels left.  The first argument bounds the
depth of the recursion. -/
def parseAnythingTo : ℕ → ℕ → List Char → Option (JsonVariant × List Char)
  | 0, _, _ => none
  | n + 1, nestingLimit, readPtr =>
      if nestingLimit = 0 then none
      else
        match skipSpacesAndComments readPtr with
        | '[' :: ptr => (parseArray n (nestingLimit - 1) ('[' :: ptr)).map fun r => (.nested, r)
        | '\x7b' :: ptr =>
            (parseObjectAt n (nestingLimit - 1) ('\x7b' :: ptr)).map fun r => (.nested, r.2)
        | [] => some (.unparsed [], [])
        | c :: ptr =>
            let r := parseString (c :: ptr)
            some (if isQuote c then .string r.1 else .unparsed r.1, r.2)
termination_by structural n _ _ => n

/-- `JsonParser::parseArray`, less the elements. -/
def parseArray : ℕ → ℕ → List Char → Option (List Char)
  | 0, _, _ => none
  | n + 1, nestingLimit, readPtr =>
      (skip '[' readPtr).bind fun readPtr =>
        match skip ']' readPtr with
        | some readPtr => some readPtr
        | none => parseElements n nestingLimit readPtr
termination_by structural n _ _ => n

/-- The loop of `JsonParser::parseArray`. -/
def parseElements : ℕ → ℕ → List Char → Option (List Char)
  | 0, _, _ => none
  | n + 1, nestingLimit, readPtr =>
      (parseAnythingTo n nestingLimit readPtr).bind fun (_, readPtr) =>
        match skip ']' readPtr with
        | some readPtr => some readPtr
        | none => (skip ',' readPtr).bind fun readPtr => parseElements n nestingLimit readPtr
termination_by structural n _ _ => n

def parseObjectAt : ℕ → ℕ → List Char → Option (JsonObject × List Char)
  | 0, _, _ => none
  | n + 1, nestingLimit, readPtr =>
      (skip '\x7b' readPtr).bind fun readPtr =>
        match skip '\x7d' readPtr with
        | some readPtr => some ([], readPtr)
        | none => parsePairs n nestingLimit [] readPtr
termination_by structural n _ _ => n

def parsePairs : ℕ → ℕ → JsonObject → List Char → Option (JsonObject × List Char)
  | 0, _, _, _ => none
  | n + 1, nestingLimit, object, readPtr =>
      let key := parseString readPtr
      (skip ':' key.2).bind fun readPtr =>
        (parseAnythingTo n nestingLimit readPtr).bind fun (value, readPtr) =>
          let object := set object key.1 value
          match skip '\x7d' readPtr with
          | some readPtr => some (object, readPtr)
          | none =>
              (skip ',' readPtr).bind fun readPtr => parsePairs n nestingLimit object readPtr
termination_by structural n _ _ _ => n

end

def DEFAULT_LIMIT : ℕ := 10

/-- `JsonBuffer::parseObject`: the pairs of the object, if it is one.  A C string ends with its
first NUL, and a character is passed at least every third call. -/
def parseObject (json : List Char) : Option JsonObject :=
  let json := json.takeWhile fun c => c ≠ Char.ofNat 0
  (parseObjectAt (3 * json.length + 3) DEFAULT_LIMIT json).map Prod.fst

def getText (object : JsonObject) (key : List Char) : Option (List Char) :=
  match object.lookup key with
  | some (.string text) => some text
  | some (.unparsed text) => if text = "null".toList then none else some text
  | some .nested => none
  | none => none

/-- `strtol`, which stays within the range of a `long`. -/
def strtol (text : List Char) : ℤ :=
  let n := atoi text
  if n < -2147483648 then -2147483648 else if 2147483647 < n then 2147483647 else n

def JsonVariant.asInteger : JsonVariant → ℤ
  | .string text => if text = "true".toList then 1 else strtol text
  | .unparsed text => if text = "true".toList then 1 else strtol text
  | .nested => 0

def getLong (object : JsonObject) (key : List Char) : Option ℤ :=
  (object.lookup key).map JsonVariant.asInteger

/-! ## The depth of the recursion -/

/-- Skipping only takes characters away. -/
theorem length_skip_comments_le (n : ℕ) : ∀ ptr : List Char, ptr.length ≤ n →
    (skipSpacesAndComments ptr).length ≤ ptr.length ∧
      (skipCStyleComment ptr).length ≤ ptr.length ∧
      (skipCppStyleComment ptr).length ≤ ptr.length := by
  induction n with
  | zero =>
      intro ptr hn
      have hnil : ptr = [] := List.length_eq_zero_iff.1 (Nat.le_zero.1 hn)
      subst hnil
      exact ⟨Nat.le_refl _, Nat.le_refl _, Nat.le_refl _⟩
  | succ n ih =>
      -- the three call each other, each time on a shorter text
      intro ptr hn
      refine ⟨?_, ?_, ?_⟩
      · unfold skipSpacesAndComments
        split
        · next ptr =>
          simp only [List.length_cons] at hn ⊢
          have := (ih ptr (by omega)).2.1
          omega
        · next ptr =>
          simp only [List.length_cons] at hn ⊢
          have := (ih ptr (by omega)).2.2
          omega
        · next c ptr _ _ =>
          simp only [List.length_cons] at hn ⊢
          split
          · have := (ih ptr (by omega)).1
            omega
          · exact Nat.le_refl _
        · exact Nat.le_refl _
      · unfold skipCStyleComment
        split
        · next ptr =>
          simp only [List.length_cons] at hn ⊢
          have := (ih ptr (by omega)).1
          omega
        · next ptr _ =>
          simp only [List.length_cons] at hn ⊢
          have := (ih ptr (by omega)).2.1
          omega
        · exact Nat.le_refl _
      · unfold skipCppStyleComment
        split
        · next c ptr =>
          simp only [List.length_cons] at hn ⊢
          have := ih ptr (by omega)
          split <;> omega
        · exact Nat.le_refl _

theorem length_skipSpacesAndComments_le (ptr : List Char) :
    (skipSpacesAndComments ptr).length ≤ ptr.length :=
  (length_skip_comments_le ptr.length ptr le_rfl).1

theorem length_skip_lt {c : Char} {readPtr rest : List Char} (h : skip c readPtr = some rest) :
    rest.length < readPtr.length := by
  have hspaces := length_skipSpacesAndComments_le readPtr
  unfold skip at h
  cases hptr : skipSpacesAndComments readPtr with
  | nil => simp [hptr] at h
  | cons a ptr =>
      rw [hptr] at h hspaces
      have hrest := length_skipSpacesAndComments_le ptr
      simp only [Option.ite_none_right_eq_some, Option.some.injEq] at h
      rw [List.length_cons] at hspaces
      rw [← h.2]
      omega

theorem length_parseQuoted_le (stopChar : Char) (readPtr : List Char) :
    (parseQuoted stopChar readPtr).2.length ≤ readPtr.length := by
  fun_induction parseQuoted stopChar readPtr with
  | case1 => exact Nat.le_refl _
  | case2 => exact Nat.le_succ _
  | case3 => exact Nat.zero_le _
  | case4 hstop e ptr r ih => exact ih.trans (Nat.le_add_right _ 2)
  | case5 c ptr hstop hescape r ih => exact ih.trans (Nat.le_succ _)

theorem length_parseString_le (readPtr : List Char) :
    (parseString readPtr).2.length ≤ readPtr.length := by
  unfold parseString
  split
  · exact Nat.le_refl _
  · next c ptr =>
    split
    · exact (length_parseQuoted_le c ptr).trans (Nat.le_succ _)
    · exact (List.dropWhile_suffix _).length_le

/-- What is left behind a value, an array or an object is no longer than the text, whatever bounds
the recursion. -/
structure Shortens (n : ℕ) : Prop where
  value : ∀ {limit ptr r}, parseAnythingTo n limit ptr = some r → r.2.length ≤ ptr.length
  array : ∀ {limit ptr rest}, parseArray n limit ptr = some rest → rest.length ≤ ptr.length
  elements : ∀ {limit ptr rest}, parseElements n limit ptr = some rest → rest.length ≤ ptr.length
  object : ∀ {limit ptr r}, parseObjectAt n limit ptr = some r → r.2.length ≤ ptr.length
  pairs : ∀ {limit object ptr r}, parsePairs n limit object ptr = some r →
    r.2.length ≤ ptr.length

theorem shortens_zero : Shortens 0 where
  value h := by
    rw [parseAnythingTo] at h
    cases h
  array h := by
    rw [parseArray] at h
    cases h
  elements h := by
    rw [parseElements] at h
    cases h
  object h := by
    rw [parseObjectAt] at h
    cases h
  pairs h := by
    rw [parsePairs] at h
    cases h

variable {n m : ℕ}

theorem Shortens.value_succ (h : Shortens n) {limit : ℕ} {readPtr : List Char}
    {r : JsonVariant × List Char} (hr : parseAnythingTo (n + 1) limit readPtr = some r) :
    r.2.length ≤ readPtr.length := by
  have hspaces := length_skipSpacesAndComments_le readPtr
  rw [parseAnythingTo] at hr
  split at hr
  · cases hr
  · split at hr
    · next ptr hptr =>
      rcases Option.map_eq_some_iff.1 hr with ⟨rest, hrest, rfl⟩
      rw [hptr] at hspaces
      exact (h.array hrest).trans hspaces
    · next ptr hptr =>
      rcases Option.map_eq_some_iff.1 hr with ⟨rest, hrest, rfl⟩
      rw [hptr] at hspaces
      exact (h.object hrest).trans hspaces
    · cases hr
      exact Nat.zero_le _
    · next c ptr _ _ hptr =>
      rw [hptr] at hspaces
      cases hr
      exact (length_parseString_le (c :: ptr)).trans hspaces

theorem Shortens.elements_succ (h : Shortens n) {limit : ℕ} {readPtr rest : List Char}
    (hr : parseElements (n + 1) limit readPtr = some rest) : rest.length ≤ readPtr.length := by
  rw [parseElements] at hr
  rcases Option.bind_eq_some_iff.1 hr with ⟨⟨value, ptr⟩, hvalue, hr⟩
  have hle := h.value hvalue
  dsimp only at hr hle
  split at hr
  · next hclose =>
    cases hr
    exact (length_skip_lt hclose).le.trans hle
  · rcases Option.bind_eq_some_iff.1 hr with ⟨ptr', hcomma, hr⟩
    exact ((h.elements hr).trans (length_skip_lt hcomma).le).trans hle

theorem Shortens.pairs_succ (h : Shortens n) {limit : ℕ} {object : JsonObject}
    {readPtr : List Char} {r : JsonObject × List Char}
    (hr : parsePairs (n + 1) limit object readPtr = some r) : r.2.length ≤ readPtr.length := by
  rw [parsePairs] at hr
  rcases Option.bind_eq_some_iff.1 hr with ⟨ptr, hcolon, hr⟩
  rcases Option.bind_eq_some_iff.1 hr with ⟨⟨value, ptr'⟩, hvalue, hr⟩
  have hle : ptr'.length ≤ readPtr.length :=
    ((h.value hvalue).trans (length_skip_lt hcolon).le).trans (length_parseString_le readPtr)
  dsimp only at hr
  split at hr
  · next hclose =>
    cases hr
    exact (length_skip_lt hclose).le.trans hle
  · rcases Option.bind_eq_some_iff.1 hr with ⟨ptr'', hcomma, hr⟩
    exact ((h.pairs hr).trans (length_skip_lt hcomma).le).trans hle

/-- Each function looks at what the others have left. -/
theorem shortens (n : ℕ) : Shortens n := by
  induction n with
  | zero => exact shortens_zero
  | succ n ih =>
      refine ⟨ih.value_succ, ?_, ih.elements_succ, ?_, ih.pairs_succ⟩
      · intro limit ptr rest hr
        rw [parseArray] at hr
        rcases Option.bind_eq_some_iff.1 hr with ⟨ptr', hopen, hr⟩
        have hle := (length_skip_lt hopen).le
        split at hr
        · next hclose =>
          cases hr
          exact (length_skip_lt hclose).le.trans hle
        · exact (ih.elements hr).trans hle
      · intro limit ptr r hr
        rw [parseObjectAt] at hr
        rcases Option.bind_eq_some_iff.1 hr with ⟨ptr', hopen, hr⟩
        have hle := (length_skip_lt hopen).le
        split at hr
        · next hclose =>
          cases hr
          exact (length_skip_lt hclose).le.trans hle
        · exact (ih.pairs hr).trans hle

/-- Two bounds on the recursion that both suffice for a text give the same. -/
structure Settles (n m : ℕ) : Prop where
  value : ∀ limit ptr, 3 * ptr.length + 2 ≤ n → 3 * ptr.length + 2 ≤ m →
    parseAnythingTo n limit ptr = parseAnythingTo m limit ptr
  array : ∀ limit ptr, 3 * ptr.length + 1 ≤ n → 3 * ptr.length + 1 ≤ m →
    parseArray n limit ptr = parseArray m limit ptr
  elements : ∀ limit ptr, 3 * ptr.length + 3 ≤ n → 3 * ptr.length + 3 ≤ m →
    parseElements n limit ptr = parseElements m limit ptr
  object : ∀ limit ptr, 3 * ptr.length + 1 ≤ n → 3 * ptr.length + 1 ≤ m →
    parseObjectAt n limit ptr = parseObjectAt m limit ptr
  pairs : ∀ limit object ptr, 3 * ptr.length + 3 ≤ n → 3 * ptr.length + 3 ≤ m →
    parsePairs n limit object ptr = parsePairs m limit object ptr

theorem Settles.value_succ (h : Settles n m) (limit : ℕ) (readPtr : List Char)
    (hn : 3 * readPtr.length + 2 ≤ n + 1) (hm : 3 * readPtr.length + 2 ≤ m + 1) :
    parseAnythingTo (n + 1) limit readPtr = parseAnythingTo (m + 1) limit readPtr := by
  have hspaces := length_skipSpacesAndComments_le readPtr
  rw [parseAnythingTo, parseAnythingTo]
  split
  · rfl
  · split
    · next ptr hptr =>
      rw [hptr] at hspaces
      rw [h.array _ _ (by omega) (by omega)]
    · next ptr hptr =>
      rw [hptr] at hspaces
      rw [h.object _ _ (by omega) (by omega)]
    · rfl
    · rfl

theorem Settles.array_succ (h : Settles n m) (limit : ℕ) (readPtr : List Char)
    (hn : 3 * readPtr.length + 1 ≤ n + 1) (hm : 3 * readPtr.length + 1 ≤ m + 1) :
    parseArray (n + 1) limit readPtr = parseArray (m + 1) limit readPtr := by
  rw [parseArray, parseArray]
  refine Option.bind_congr fun ptr hopen => ?_
  have hlt := length_skip_lt hopen
  rw [h.elements _ _ (by omega) (by omega)]

theorem Settles.object_succ (h : Settles n m) (limit : ℕ) (readPtr : List Char)
    (hn : 3 * readPtr.length + 1 ≤ n + 1) (hm : 3 * readPtr.length + 1 ≤ m + 1) :
    parseObjectAt (n + 1) limit readPtr = parseObjectAt (m + 1) limit readPtr := by
  rw [parseObjectAt, parseObjectAt]
  refine Option.bind_congr fun ptr hopen => ?_
  have hlt := length_skip_lt hopen
  rw [h.pairs _ _ _ (by omega) (by omega)]

/-- A value and the comma behind it pay for the two calls of a round. -/
theorem Settles.elements_succ (h : Settles n m) (limit : ℕ) (readPtr : List Char)
    (hn : 3 * readPtr.length + 3 ≤ n + 1) (hm : 3 * readPtr.length + 3 ≤ m + 1) :
    parseElements (n + 1) limit readPtr = parseElements (m + 1) limit readPtr := by
  rw [parseElements, parseElements, h.value _ _ (by omega) (by omega)]
  refine Option.bind_congr fun ⟨value, ptr⟩ hvalue => ?_
  have hle := (shortens m).value hvalue
  dsimp only at hle ⊢
  split
  · rfl
  · refine Option.bind_congr fun ptr' hcomma => ?_
    have hlt := length_skip_lt hcomma
    exact h.elements _ _ (by omega) (by omega)

theorem Settles.pairs_succ (h : Settles n m) (limit : ℕ) (object : JsonObject)
    (readPtr : List Char) (hn : 3 * readPtr.length + 3 ≤ n + 1)
    (hm : 3 * readPtr.length + 3 ≤ m + 1) :
    parsePairs (n + 1) limit object readPtr = parsePairs (m + 1) limit object readPtr := by
  have hkey := length_parseString_le readPtr
  -- the colon is before the value, so that a pair pays for more than it needs
  rw [parsePairs, parsePairs]
  refine Option.bind_congr fun ptr hcolon => ?_
  have hlt := length_skip_lt hcolon
  rw [h.value _ _ (by omega) (by omega)]
  refine Option.bind_congr fun ⟨value, ptr'⟩ hvalue => ?_
  have hle := (shortens m).value hvalue
  dsimp only at hle ⊢
  split
  · rfl
  · refine Option.bind_congr fun ptr'' hcomma => ?_
    have hlt' := length_skip_lt hcomma
    exact h.pairs _ _ _ (by omega) (by omega)

/-- The shorter the text, the less is needed. -/
theorem settles (n m : ℕ) : Settles n m := by
  induction n generalizing m with
  | zero =>
      refine ⟨?_, ?_, ?_, ?_, ?_⟩ <;> intros <;> omega
  | succ n ih =>
      cases m with
      | zero => refine ⟨?_, ?_, ?_, ?_, ?_⟩ <;> intros <;> omega
      | succ m =>
          exact ⟨(ih m).value_succ, (ih m).array_succ, (ih m).elements_succ, (ih m).object_succ,
            (ih m).pairs_succ⟩

/-- A deeper recursion does not parse more. -/
theorem parseObject_eq (json : List Char) (hjson : Char.ofNat 0 ∉ json) {n : ℕ}
    (hn : 3 * json.length + 1 ≤ n) :
    parseObject json = (parseObjectAt n DEFAULT_LIMIT json).map Prod.fst := by
  have hstring : json.takeWhile (fun c => c ≠ Char.ofNat 0) = json :=
    List.takeWhile_eq_self_iff.2 fun c hc => decide_eq_true fun heq => hjson (heq ▸ hc)
  rw [parseObject, hstring]
  exact congrArg (Option.map Prod.fst) ((settles _ _).object _ _ (by omega) hn)

/-! ## Objects of texts -/

/-- A text that can stand between quotes as it is. -/
def Plain (s : List Char) : Prop := ∀ c ∈ s, c ≠ quote ∧ c ≠ '\\' ∧ c ≠ Char.ofNat 0

instance (s : List Char) : Decidable (Plain s) := List.decidableBAll _ s

def quoted (s : List Char) : List Char := quote :: (s ++ [quote])

def pairText (pair : List Char × List Char) : List Char := quoted pair.1 ++ ':' :: quoted pair.2

def pairsBody : List (List Char × List Char) → List Char
  | [] => []
  | [pair] => pairText pair
  | pair :: pairs => pairText pair ++ ',' :: pairsBody pairs

def pairsText (pairs : List (List Char × List Char)) : List Char := pairsBody pairs ++ ['\x7d']

def objectText (pairs : List (List Char × List Char)) : List Char := '\x7b' :: pairsText pairs

theorem pairsText_singleton (pair : List Char × List Char) :
    pairsText [pair] = pairText pair ++ ['\x7d'] := rfl

theorem pairsText_cons_cons (pair next : List Char × List Char)
    (pairs : List (List Char × List Char)) :
    pairsText (pair :: next :: pairs) = pairText pair ++ ',' :: pairsText (next :: pairs) := by
  rw [pairsText, pairsBody, List.append_assoc, List.cons_append]
  · rfl
  · exact List.cons_ne_nil _ _

/-- The characters of an object, but for its braces. -/
theorem mem_pairsBody {pairs : List (List Char × List Char)} {c : Char}
    (h : c ∈ pairsBody pairs) :
    c ∈ [quote, ':', ','] ∨ ∃ pair ∈ pairs, c ∈ pair.1 ∨ c ∈ pair.2 := by
  have hquoted : ∀ s, c ∈ quoted s → c = quote ∨ c ∈ s := by
    intro s hc
    simpa [quoted, or_comm] using hc
  have hpair : ∀ pair, c ∈ pairText pair →
      c ∈ [quote, ':', ','] ∨ c ∈ pair.1 ∨ c ∈ pair.2 := by
    intro pair hc
    rcases List.mem_append.1 hc with hc | hc
    · rcases hquoted _ hc with rfl | hc
      · exact Or.inl List.mem_cons_self
      · exact Or.inr (Or.inl hc)
    · rcases List.mem_cons.1 hc with rfl | hc
      · exact Or.inl (by simp)
      · rcases hquoted _ hc with rfl | hc
        · exact Or.inl List.mem_cons_self
        · exact Or.inr (Or.inr hc)
  induction pairs with
  | nil => cases h
  | cons pair pairs ih =>
      -- the first pair, a comma or another pair
      have hsplit : c ∈ pairText pair ∨ c = ',' ∨ c ∈ pairsBody pairs := by
        cases pairs with
        | nil => exact Or.inl h
        | cons next pairs =>
            rw [pairsBody, List.mem_append, List.mem_cons] at h
            · exact h
            · exact List.cons_ne_nil _ _
      rcases hsplit with hc | rfl | hc
      · exact (hpair pair hc).imp_right fun hc => ⟨pair, List.mem_cons_self, hc⟩
      · exact Or.inl (by simp)
      · rcases ih hc with hc | ⟨p, hp, hc⟩
        · exact Or.inl hc
        · exact Or.inr ⟨p, List.mem_cons_of_mem pair hp, hc⟩

def stored (pair : List Char × List Char) : List Char × JsonVariant := (pair.1, .string pair.2)

theorem parseQuoted_plain {s : List Char} (hs : Plain s) (rest : List Char) :
    parseQuoted quote (s ++ quote :: rest) = (s, rest) := by
  induction s with
  | nil =>
      rw [List.nil_append, parseQuoted.eq_def]
      exact if_pos rfl
  | cons c s ih =>
      rcases hs c List.mem_cons_self with ⟨hquote, hescape, -⟩
      rw [List.cons_append, parseQuoted.eq_def]
      simp only [hquote, hescape, if_false, ih fun x hx => hs x (List.mem_cons_of_mem c hx)]

theorem parseString_quoted {s : List Char} (hs : Plain s) (rest : List Char) :
    parseString (quoted s ++ rest) = (s, rest) := by
  have hquote : isQuote quote = true := by decide
  rw [quoted, List.cons_append, List.append_assoc, List.singleton_append, parseString]
  simp only [hquote, if_true]
  exact parseQuoted_plain hs rest

/-- A text in quotes is a value. -/
theorem parseAnythingTo_quoted {s : List Char} (hs : Plain s) (n nestingLimit : ℕ)
    (rest : List Char) :
    parseAnythingTo (n + 1) (nestingLimit + 1) (quoted s ++ rest) = some (.string s, rest) := by
  have hvalue : parseAnythingTo (n + 1) (nestingLimit + 1) (quoted s ++ rest) =
      some (.string (parseString (quoted s ++ rest)).1, (parseString (quoted s ++ rest)).2) := rfl
  rw [hvalue, parseString_quoted hs]

theorem set_new {object : JsonObject} {key : List Char} (hnew : key ∉ object.map Prod.fst)
    (value : JsonVariant) : set object key value = object ++ [(key, value)] := if_neg hnew

/-- The pairs of an object are read one after the other. -/
theorem parsePairs_pairsText {pairs : List (List Char × List Char)} {object : JsonObject}
    {n : ℕ} (hne : pairs ≠ []) (hn : pairs.length < n)
    (hplain : ∀ pair ∈ pairs, Plain pair.1 ∧ Plain pair.2)
    (hkeys : (object.map Prod.fst ++ pairs.map Prod.fst).Nodup) (nestingLimit : ℕ) :
    parsePairs n (nestingLimit + 1) object (pairsText pairs) =
      some (object ++ pairs.map stored, []) := by
  induction pairs generalizing object n with
  | nil => exact absurd rfl hne
  | cons pair pairs ih =>
      obtain ⟨n, rfl⟩ : ∃ m, n = m + 2 := ⟨n - 2, by rw [List.length_cons] at hn; omega⟩
      rcases hplain pair List.mem_cons_self with ⟨hkey, hvalue⟩
      have hnew : pair.1 ∉ object.map Prod.fst := by
        intro hmem
        rw [List.map_cons, List.nodup_append] at hkeys
        exact hkeys.2.2 pair.1 hmem pair.1 List.mem_cons_self rfl
      -- one round of the loop, up to what follows the value
      have hround : ∀ rest, parsePairs (n + 2) (nestingLimit + 1) object (pairText pair ++ rest) =
          match skip '\x7d' rest with
          | some readPtr => some (object ++ [stored pair], readPtr)
          | none => (skip ',' rest).bind fun readPtr =>
              parsePairs (n + 1) (nestingLimit + 1) (object ++ [stored pair]) readPtr := by
        intro rest
        have hcolon : skip ':' (':' :: (quoted pair.2 ++ rest)) = some (quoted pair.2 ++ rest) :=
          rfl
        rw [parsePairs, pairText, List.append_assoc, List.cons_append, parseString_quoted hkey]
        simp only [hcolon, Option.bind_some, parseAnythingTo_quoted hvalue, set_new hnew]
        rfl
      cases pairs with
      | nil =>
          have hclose : skip '\x7d' ['\x7d'] = some [] := rfl
          rw [pairsText_singleton, hround, hclose]
          rfl
      | cons next pairs =>
          have hopen : skip '\x7d' (',' :: pairsText (next :: pairs)) = none := rfl
          have hcomma : skip ',' (',' :: pairsText (next :: pairs)) =
              some (pairsText (next :: pairs)) := by
            cases pairs <;> rfl
          rw [pairsText_cons_cons, hround, hopen]
          simp only [hcomma, Option.bind_some]
          rw [ih (List.cons_ne_nil _ _) (by simpa using hn)
            (fun p hp => hplain p (List.mem_cons_of_mem pair hp))
            (by simpa [stored, List.append_assoc] using hkeys)]
          simp

theorem length_lt_pairsText (pairs : List (List Char × List Char)) :
    pairs.length < (pairsText pairs).length := by
  induction pairs with
  | nil => exact Nat.one_pos
  | cons pair pairs ih =>
      cases pairs with
      | nil =>
          rw [pairsText_singleton, pairText, quoted, List.length_append, List.length_append]
          simp only [List.length_cons]
          omega
      | cons next pairs =>
          rw [pairsText_cons_cons, List.length_append]
          simp only [List.length_cons] at ih ⊢
          omega

/-- The parser reads what is written. -/
theorem parseObject_objectText {pairs : List (List Char × List Char)}
    (hplain : ∀ pair ∈ pairs, Plain pair.1 ∧ Plain pair.2) (hkeys : (pairs.map Prod.fst).Nodup) :
    parseObject (objectText pairs) = some (pairs.map stored) := by
  -- the text has no NUL, so that all of it is parsed
  have hnul : Char.ofNat 0 ∉ objectText pairs := by
    intro hc
    rcases List.mem_cons.1 hc with hc | hc
    · exact absurd hc (by decide)
    · rcases List.mem_append.1 hc with hc | hc
      · rcases mem_pairsBody hc with hc | ⟨pair, hpair, hc | hc⟩
        · exact absurd hc (by decide)
        · exact ((hplain pair hpair).1 _ hc).2.2 rfl
        · exact ((hplain pair hpair).2 _ hc).2.2 rfl
      · exact absurd hc (by decide)
  rw [parseObject_eq _ hnul (Nat.le_succ _)]
  cases pairs with
  | nil => rfl
  | cons pair pairs =>
      -- each pair takes less fuel than it has characters
      have hfuel : (pair :: pairs).length < 3 * (objectText (pair :: pairs)).length + 1 := by
        have hlength := length_lt_pairsText (pair :: pairs)
        have hobject : (objectText (pair :: pairs)).length =
            (pairsText (pair :: pairs)).length + 1 := List.length_cons
        omega
      have hopen : skip '\x7b' (objectText (pair :: pairs)) = some (pairsText (pair :: pairs)) := by
        cases pairs <;> rfl
      have hclose : skip '\x7d' (pairsText (pair :: pairs)) = none := by
        cases pairs <;> rfl
      rw [parseObjectAt, hopen, Option.bind_some, hclose]
      simp only [DEFAULT_LIMIT]
      rw [parsePairs_pairsText (List.cons_ne_nil _ _) hfuel hplain (by simpa using hkeys) 9]
      simp

end ArduinoJson
end LamPI
