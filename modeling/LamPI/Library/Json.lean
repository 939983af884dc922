import Mathlib.Data.List.Infix
import Mathlib.Data.Nat.Notation

/-!
# JSON

Every rule relates a text to what is left of it behind the construct, and to the value of the
construct.  The value of a string is a list of UTF-16 code units, so that every escape has one.

- `Value cs v rest` : the text `cs` begins with the value `v`, and `rest` follows
- `Text cs v`       : the whole text `cs` is the value `v`
- `Plain s`         : the characters of `s` stand for themselves in a string
- `text_objectText`  : plain strings between quotes are the members of an object
- `exists_lookup`    : a string that is not plain is not read as itself
-/

namespace JsonGrammar

/-! ## Values -/

inductive Json where
  | null
  | bool (b : Bool)
  | number (text : List Char)
  | string (units : List ℕ)
  | array (elements : List Json)
  | object (members : List (List ℕ × Json))

/-- The UTF-16 code units of a character. -/
def charUnits (c : Char) : List ℕ :=
  if c.toNat < 0x10000 then [c.toNat]
  else [0xD800 + (c.toNat - 0x10000) / 0x400, 0xDC00 + (c.toNat - 0x10000) % 0x400]

/-- The UTF-16 code units of a text. -/
def units (s : List Char) : List ℕ := s.flatMap charUnits

/-! ## Tokens -/

inductive Ws : List Char → List Char → Prop
  | none {cs : List Char} : Ws cs cs
  | skip {c : Char} {cs rest : List Char} (hc : c ∈ [' ', '\t', '\n', '\r']) (h : Ws cs rest) :
      Ws (c :: cs) rest

/-- A character that stands for itself in a string. -/
def Unescaped (c : Char) : Prop := 0x20 ≤ c.toNat ∧ c ≠ '"' ∧ c ≠ '\\'

instance (c : Char) : Decidable (Unescaped c) := by
  unfold Unescaped
  infer_instance

/-- The escapes of one character, and their code units. -/
def escapes : List (Char × ℕ) :=
  [('"', 0x22), ('\\', 0x5C), ('/', 0x2F), ('b', 0x08), ('f', 0x0C), ('n', 0x0A), ('r', 0x0D),
    ('t', 0x09)]

/-- The value of a hexadecimal digit. -/
def hexValue (c : Char) : Option ℕ :=
  if c.isDigit then some (c.toNat - 0x30)
  else if 0x41 ≤ c.toNat ∧ c.toNat ≤ 0x46 then some (c.toNat - 0x41 + 10)
  else if 0x61 ≤ c.toNat ∧ c.toNat ≤ 0x66 then some (c.toNat - 0x61 + 10)
  else none

/-- What is between the quotes of a string, and the quote that closes it. -/
inductive Chars : List Char → List ℕ → List Char → Prop
  | close {rest : List Char} : Chars ('"' :: rest) [] rest
  | char {c : Char} {cs rest : List Char} {us : List ℕ} (hc : Unescaped c) (h : Chars cs us rest) :
      Chars (c :: cs) (charUnits c ++ us) rest
  | escape {e : Char} {u : ℕ} {cs rest : List Char} {us : List ℕ} (he : (e, u) ∈ escapes)
      (h : Chars cs us rest) : Chars ('\\' :: e :: cs) (u :: us) rest
  | unicode {a b c d : Char} {ds : List ℕ} {cs rest : List Char} {us : List ℕ}
      (hds : [a, b, c, d].mapM hexValue = some ds) (h : Chars cs us rest) :
      Chars ('\\' :: 'u' :: a :: b :: c :: d :: cs) (ds.foldl (fun u d => u * 16 + d) 0 :: us) rest

inductive Digits : List Char → List Char → Prop
  | last {c : Char} {rest : List Char} (hc : c.isDigit) : Digits (c :: rest) rest
  | more {c : Char} {cs rest : List Char} (hc : c.isDigit) (h : Digits cs rest) :
      Digits (c :: cs) rest

/-- The part of a number before the point: no zero in front of other digits. -/
inductive Whole : List Char → List Char → Prop
  | zero {rest : List Char} : Whole ('0' :: rest) rest
  | digit {c : Char} {rest : List Char} (hc : c.isDigit) (h0 : c ≠ '0') : Whole (c :: rest) rest
  | digits {c : Char} {cs rest : List Char} (hc : c.isDigit) (h0 : c ≠ '0') (h : Digits cs rest) :
      Whole (c :: cs) rest

inductive Frac : List Char → List Char → Prop
  | none {cs : List Char} : Frac cs cs
  | point {cs rest : List Char} (h : Digits cs rest) : Frac ('.' :: cs) rest

inductive Exp : List Char → List Char → Prop
  | none {cs : List Char} : Exp cs cs
  | unsigned {e : Char} {cs rest : List Char} (he : e ∈ ['e', 'E']) (h : Digits cs rest) :
      Exp (e :: cs) rest
  | signed {e sign : Char} {cs rest : List Char} (he : e ∈ ['e', 'E']) (hsign : sign ∈ ['+', '-'])
      (h : Digits cs rest) : Exp (e :: sign :: cs) rest

inductive Number : List Char → List Char → Prop
  | positive {cs₁ cs₂ cs₃ rest : List Char} (hwhole : Whole cs₁ cs₂) (hfrac : Frac cs₂ cs₃)
      (hexp : Exp cs₃ rest) : Number cs₁ rest
  | negative {cs₁ cs₂ cs₃ rest : List Char} (hwhole : Whole cs₁ cs₂) (hfrac : Frac cs₂ cs₃)
      (hexp : Exp cs₃ rest) : Number ('-' :: cs₁) rest

/-! ## The grammar -/

mutual

inductive Value : List Char → Json → List Char → Prop
  | null {rest : List Char} : Value ('n' :: 'u' :: 'l' :: 'l' :: rest) .null rest
  | true {rest : List Char} : Value ('t' :: 'r' :: 'u' :: 'e' :: rest) (.bool Bool.true) rest
  | false {rest : List Char} :
      Value ('f' :: 'a' :: 'l' :: 's' :: 'e' :: rest) (.bool Bool.false) rest
  | number {text rest : List Char} (h : Number (text ++ rest) rest) :
      Value (text ++ rest) (.number text) rest
  | string {cs rest : List Char} {us : List ℕ} (h : Chars cs us rest) :
      Value ('"' :: cs) (.string us) rest
  | emptyArray {cs rest : List Char} (h : Ws cs (']' :: rest)) : Value ('[' :: cs) (.array []) rest
  | array {cs rest : List Char} {vs : List Json} (h : Elements cs vs rest) :
      Value ('[' :: cs) (.array vs) rest
  | emptyObject {cs rest : List Char} (h : Ws cs ('\x7d' :: rest)) :
      Value ('\x7b' :: cs) (.object []) rest
  | object {cs rest : List Char} {ms : List (List ℕ × Json)} (h : Members cs ms rest) :
      Value ('\x7b' :: cs) (.object ms) rest

/-- The elements of an array, and the bracket that closes it. -/
inductive Elements : List Char → List Json → List Char → Prop
  | last {cs cs₁ cs₂ rest : List Char} {v : Json} (hfront : Ws cs cs₁) (hvalue : Value cs₁ v cs₂)
      (hclose : Ws cs₂ (']' :: rest)) : Elements cs [v] rest
  | more {cs cs₁ cs₂ cs₃ rest : List Char} {v : Json} {vs : List Json} (hfront : Ws cs cs₁)
      (hvalue : Value cs₁ v cs₂) (hcomma : Ws cs₂ (',' :: cs₃)) (h : Elements cs₃ vs rest) :
      Elements cs (v :: vs) rest

/-- A member of an object: its name, a colon and its value. -/
inductive Member : List Char → List ℕ → Json → List Char → Prop
  | mk {cs cs₁ cs₂ cs₃ cs₄ rest : List Char} {us : List ℕ} {v : Json} (hfront : Ws cs ('"' :: cs₁))
      (hname : Chars cs₁ us cs₂) (hcolon : Ws cs₂ (':' :: cs₃)) (hback : Ws cs₃ cs₄)
      (hvalue : Value cs₄ v rest) : Member cs us v rest

/-- The members of an object, and the brace that closes it. -/
inductive Members : List Char → List (List ℕ × Json) → List Char → Prop
  | last {cs cs₁ rest : List Char} {us : List ℕ} {v : Json} (hmember : Member cs us v cs₁)
      (hclose : Ws cs₁ ('\x7d' :: rest)) : Members cs [(us, v)] rest
  | more {cs cs₁ cs₂ rest : List Char} {us : List ℕ} {v : Json} {ms : List (List ℕ × Json)}
      (hmember : Member cs us v cs₁) (hcomma : Ws cs₁ (',' :: cs₂)) (h : Members cs₂ ms rest) :
      Members cs ((us, v) :: ms) rest

end

/-- The whole text is a value, with nothing but white space around it. -/
def Text (cs : List Char) (v : Json) : Prop := ∃ cs₁ cs₂, Ws cs cs₁ ∧ Value cs₁ v cs₂ ∧ Ws cs₂ []

/-! ## Strings -/

/-- The characters stand for themselves in a string. -/
def Plain (s : List Char) : Prop := ∀ c ∈ s, Unescaped c

instance (s : List Char) : Decidable (Plain s) := List.decidableBAll _ s

variable {c : Char} {s k v cs rest : List Char} {us : List ℕ}

theorem length_charUnits_pos (c : Char) : 0 < (charUnits c).length := by
  unfold charUnits
  split
  · exact Nat.one_pos
  · exact Nat.two_pos

@[simp] theorem units_nil : units [] = [] := rfl

@[simp] theorem units_cons (c : Char) (s : List Char) : units (c :: s) = charUnits c ++ units s :=
  List.flatMap_cons

@[simp] theorem units_append (s t : List Char) : units (s ++ t) = units s ++ units t :=
  List.flatMap_append

/-- A plain text between quotes is read as itself. -/
theorem chars_plain_iff (hs : Plain s) :
    Chars (s ++ '"' :: cs) us rest ↔ us = units s ∧ rest = cs := by
  induction s generalizing us with
  | nil =>
      constructor
      · intro h
        cases h with
        | close => exact ⟨rfl, rfl⟩
        | char hc _ => exact absurd rfl hc.2.1
      · rintro ⟨rfl, rfl⟩
        exact Chars.close
  | cons c s ih =>
      have hc : Unescaped c := hs c List.mem_cons_self
      have hrest : Plain s := fun d hd => hs d (List.mem_cons_of_mem c hd)
      constructor
      · intro h
        -- only the rule for a character that stands for itself reads `c`
        generalize htext : (c :: s) ++ '"' :: cs = text at h
        cases h with
        | close =>
            injection htext with hquote
            exact absurd hquote hc.2.1
        | char _ h =>
            injection htext with hhead htail
            subst hhead htail
            rcases (ih hrest).1 h with ⟨rfl, rfl⟩
            exact ⟨(units_cons c s).symm, rfl⟩
        | escape _ _ =>
            injection htext with hback
            exact absurd hback hc.2.2
        | unicode _ _ =>
            injection htext with hback
            exact absurd hback hc.2.2
      · rintro ⟨rfl, rfl⟩
        rw [units_cons]
        exact Chars.char hc ((ih hrest).2 ⟨rfl, rfl⟩)

/-- An escape has one code unit, and its characters have more. -/
theorem length_lt_of_escape {raw : List Char} {u : ℕ} {c d : Char} (front : List Char)
    (h : us.length ≤ (units raw).length) :
    (u :: us).length < (units (c :: d :: front ++ raw)).length := by
  have hc := length_charUnits_pos c
  have hd := length_charUnits_pos d
  simp only [units_cons, units_append, List.cons_append, List.length_append, List.length_cons]
  omega

/-- What is read between the quotes is no longer than what stands there, and an escape makes it
shorter. -/
theorem Chars.exists_raw (h : Chars cs us rest) :
    ∃ raw, cs = raw ++ '"' :: rest ∧ us.length ≤ (units raw).length ∧
      (us.length = (units raw).length → Plain raw) := by
  induction h with
  | close => exact ⟨[], rfl, Nat.le_refl 0, fun _ c hc => absurd hc List.not_mem_nil⟩
  | @char c _ _ _ hc _ ih =>
      rcases ih with ⟨raw, rfl, hle, hplain⟩
      refine ⟨c :: raw, rfl, ?_, ?_⟩
      · rw [units_cons, List.length_append, List.length_append]
        exact Nat.add_le_add_left hle _
      · intro heq d hd
        rw [units_cons, List.length_append, List.length_append] at heq
        rcases List.mem_cons.1 hd with rfl | hd
        · exact hc
        · exact hplain (Nat.add_left_cancel heq) d hd
  | @escape e u _ _ _ _ _ ih =>
      rcases ih with ⟨raw, rfl, hle, -⟩
      have hlt := length_lt_of_escape (u := u) (c := '\\') (d := e) [] hle
      exact ⟨'\\' :: e :: raw, rfl, hlt.le, fun heq => absurd heq hlt.ne⟩
  | @unicode a b c d ds _ _ _ _ _ ih =>
      rcases ih with ⟨raw, rfl, hle, -⟩
      have hlt := length_lt_of_escape (u := ds.foldl (fun u d => u * 16 + d) 0) (c := '\\')
        (d := 'u') [a, b, c, d] hle
      exact ⟨'\\' :: 'u' :: a :: b :: c :: d :: raw, rfl, hlt.le, fun heq => absurd heq hlt.ne⟩

/-- Before a quote and a brace a text is read as something shorter, unless it is plain. -/
theorem Chars.closing (h : Chars (s ++ ['"', '\x7d']) us rest) :
    us.length ≤ (units s).length ∧ (us.length = (units s).length → Plain s) := by
  rcases h.exists_raw with ⟨raw, hraw, hle, hplain⟩
  rcases List.append_eq_append_iff.1 hraw with ⟨t, rfl, ht⟩ | ⟨t, rfl, ht⟩
  · -- the quote that closes the string is the first of the two characters
    cases t with
    | nil =>
        rw [List.append_nil] at hle hplain
        exact ⟨hle, hplain⟩
    | cons c t =>
        injection ht with _ ht
        rcases t with _ | ⟨d, t⟩
        · injection ht with hbrace
          exact absurd hbrace (by decide)
        · injection ht with _ ht
          cases t <;> cases ht
  · cases t with
    | nil =>
        rw [List.append_nil]
        exact ⟨hle, hplain⟩
    | cons c t =>
        -- it is one of the text, and what is behind it is not read
        have hc := length_charUnits_pos c
        simp only [units_append, units_cons, List.length_append]
        exact ⟨by omega, fun heq => by omega⟩

/-! ## Members with strings -/

/-- A string between quotes. -/
def quoted (s : List Char) : List Char := '"' :: (s ++ ['"'])

/-- A name and a string. -/
def memberText (name value : List Char) : List Char := quoted name ++ ':' :: quoted value

/-- An object of strings, of which the last one is given apart. -/
def objectText (pairs : List (List Char × List Char)) (name value : List Char) : List Char :=
  '\x7b' :: (pairs.flatMap (fun p => memberText p.1 p.2 ++ [',']) ++
    (memberText name value ++ ['\x7d']))

/-- The member that a name and a plain string are read as. -/
def stringMember (p : List Char × List Char) : List ℕ × Json := (units p.1, .string (units p.2))

variable {pairs : List (List Char × List Char)} {ms : List (List ℕ × Json)} {j : Json}

/-- Where there is no white space, none is skipped. -/
theorem Ws.eq (h : Ws (c :: cs) rest) (hc : c ∉ [' ', '\t', '\n', '\r']) : rest = c :: cs := by
  cases h with
  | none => rfl
  | skip hspace _ => exact absurd hspace hc

theorem Whole.head (h : Whole cs rest) : ∃ c cs', cs = c :: cs' ∧ c.isDigit := by
  cases h with
  | zero => exact ⟨_, _, rfl, by decide⟩
  | digit hc _ => exact ⟨_, _, rfl, hc⟩
  | digits hc _ _ => exact ⟨_, _, rfl, hc⟩

/-- A number begins with a digit or a minus sign. -/
theorem Number.head (h : Number cs rest) : ∃ c cs', cs = c :: cs' ∧ (c = '-' ∨ c.isDigit) := by
  cases h with
  | positive hwhole _ _ =>
      rcases hwhole.head with ⟨c, cs', rfl, hc⟩
      exact ⟨c, cs', rfl, Or.inr hc⟩
  | negative _ _ _ => exact ⟨_, _, rfl, Or.inl rfl⟩

/-- What begins with a quote is a string. -/
theorem value_quote_iff :
    Value ('"' :: cs) j rest ↔ ∃ us, j = .string us ∧ Chars cs us rest := by
  constructor
  · intro h
    generalize htext : '"' :: cs = text at h
    cases h with
    | @number text _ h =>
        rcases h.head with ⟨c, cs', hhead, hc⟩
        rw [← htext] at hhead
        injection hhead with hquote
        subst hquote
        rcases hc with hc | hc <;> exact absurd hc (by decide)
    | string h =>
        injection htext with _ htext
        rw [htext]
        exact ⟨_, rfl, h⟩
    | _ => cases htext
  · rintro ⟨us, rfl, h⟩
    exact Value.string h

/-- A plain name and a string are a member. -/
theorem member_quoted_iff (hk : Plain k) :
    Member (quoted k ++ ':' :: '"' :: cs) us j rest ↔
      us = units k ∧ ∃ vs, j = .string vs ∧ Chars cs vs rest := by
  have htext : quoted k ++ ':' :: '"' :: cs = '"' :: (k ++ '"' :: ':' :: '"' :: cs) := by
    rw [quoted, List.cons_append, List.append_assoc]
    rfl
  rw [htext]
  constructor
  · rintro ⟨hfront, hname, hcolon, hback, hvalue⟩
    injection hfront.eq (by decide) with _ hcs
    subst hcs
    rcases (chars_plain_iff hk).1 hname with ⟨rfl, rfl⟩
    injection hcolon.eq (by decide) with _ hcs
    subst hcs
    rw [hback.eq (by decide)] at hvalue
    exact ⟨rfl, value_quote_iff.1 hvalue⟩
  · rintro ⟨rfl, vs, rfl, hchars⟩
    exact Member.mk Ws.none ((chars_plain_iff hk).2 ⟨rfl, rfl⟩) Ws.none Ws.none
      (Value.string hchars)

theorem member_memberText_iff (hk : Plain k) (hv : Plain v) :
    Member (memberText k v ++ cs) us j rest ↔ (us, j) = stringMember (k, v) ∧ rest = cs := by
  have htext : memberText k v ++ cs = quoted k ++ ':' :: '"' :: (v ++ '"' :: cs) := by
    simp [memberText, quoted]
  rw [htext, member_quoted_iff hk]
  constructor
  · rintro ⟨rfl, vs, rfl, hchars⟩
    rcases (chars_plain_iff hv).1 hchars with ⟨rfl, rfl⟩
    exact ⟨rfl, rfl⟩
  · rintro ⟨hmember, rfl⟩
    injection hmember with hus hj
    exact ⟨hus, units v, hj, (chars_plain_iff hv).2 ⟨rfl, rfl⟩⟩

/-- A member with a plain string and a comma behind it is the first one. -/
theorem members_comma_iff (hk : Plain k) (hv : Plain v) :
    Members (memberText k v ++ ',' :: cs) ms rest ↔
      ∃ ms', ms = stringMember (k, v) :: ms' ∧ Members cs ms' rest := by
  constructor
  · intro h
    cases h with
    | last hmember hclose =>
        rcases (member_memberText_iff hk hv).1 hmember with ⟨-, rfl⟩
        injection hclose.eq (by decide) with hbrace
        exact absurd hbrace (by decide)
    | more hmember hcomma h =>
        rcases (member_memberText_iff hk hv).1 hmember with ⟨hm, rfl⟩
        injection hcomma.eq (by decide) with _ hcs
        subst hcs
        exact ⟨_, by rw [hm], h⟩
  · rintro ⟨ms', rfl, h⟩
    exact Members.more ((member_memberText_iff hk hv).2 ⟨rfl, rfl⟩) Ws.none h

/-- Plain strings are read one by one. -/
theorem members_flatMap_iff (hpairs : ∀ p ∈ pairs, Plain p.1 ∧ Plain p.2) :
    Members (pairs.flatMap (fun p => memberText p.1 p.2 ++ [',']) ++ cs) ms rest ↔
      ∃ ms', ms = pairs.map stringMember ++ ms' ∧ Members cs ms' rest := by
  induction pairs generalizing ms with
  | nil => exact ⟨fun h => ⟨ms, rfl, h⟩, fun ⟨_, hms, h⟩ => hms ▸ h⟩
  | cons p pairs ih =>
      rcases hpairs p List.mem_cons_self with ⟨hk, hv⟩
      have hpairs' : ∀ q ∈ pairs, Plain q.1 ∧ Plain q.2 :=
        fun q hq => hpairs q (List.mem_cons_of_mem p hq)
      rw [List.flatMap_cons, List.append_assoc, List.append_assoc, List.singleton_append,
        members_comma_iff hk hv]
      constructor
      · rintro ⟨ms', rfl, h⟩
        rcases (ih hpairs').1 h with ⟨ms'', rfl, hms''⟩
        exact ⟨ms'', rfl, hms''⟩
      · rintro ⟨ms', rfl, h⟩
        exact ⟨_, rfl, (ih hpairs').2 ⟨ms', rfl, h⟩⟩

/-- The last member, if it is read at all. -/
theorem Members.last_string (hk : Plain k)
    (h : Members (memberText k s ++ ['\x7d']) ms rest) :
    ∃ us ms', ms = (units k, .string us) :: ms' ∧ us.length ≤ (units s).length ∧
      (us.length = (units s).length → Plain s) := by
  have htext : memberText k s ++ ['\x7d'] = quoted k ++ ':' :: '"' :: (s ++ ['"', '\x7d']) := by
    simp [memberText, quoted]
  rw [htext] at h
  cases h with
  | last hmember _ =>
      rcases (member_quoted_iff hk).1 hmember with ⟨rfl, us, rfl, hchars⟩
      exact ⟨us, _, rfl, hchars.closing⟩
  | more hmember _ _ =>
      rcases (member_quoted_iff hk).1 hmember with ⟨rfl, us, rfl, hchars⟩
      exact ⟨us, _, rfl, hchars.closing⟩

/-! ## Objects of strings -/

theorem object_of_value (h : Value ('\x7b' :: cs) (.object ms) rest) :
    Ws cs ('\x7d' :: rest) ∨ Members cs ms rest := by
  generalize htext : '\x7b' :: cs = text at h
  cases h with
  | emptyObject h =>
      injection htext with _ htext
      exact Or.inl (htext ▸ h)
  | object h =>
      injection htext with _ htext
      exact Or.inr (htext ▸ h)

/-- The first member begins with a quote. -/
theorem exists_objectText_eq (pairs : List (List Char × List Char)) (k s : List Char) :
    ∃ cs, objectText pairs k s = '\x7b' :: '"' :: cs := by
  cases pairs with
  | nil => exact ⟨_, rfl⟩
  | cons p pairs => exact ⟨_, rfl⟩

/-- Plain strings are the members of their object. -/
theorem text_objectText (hpairs : ∀ p ∈ pairs, Plain p.1 ∧ Plain p.2) (hk : Plain k)
    (hs : Plain s) :
    Text (objectText pairs k s) (.object (pairs.map stringMember ++ [stringMember (k, s)])) := by
  refine ⟨_, [], Ws.none, Value.object ((members_flatMap_iff hpairs).2 ⟨_, rfl, ?_⟩), Ws.none⟩
  exact Members.last ((member_memberText_iff hk hs).2 ⟨rfl, rfl⟩) Ws.none

/-- The members before do not hide a member with another name. -/
theorem lookup_fresh (hfresh : units k ∉ pairs.map fun p => units p.1) :
    (pairs.map stringMember ++ (units k, j) :: ms).lookup (units k) = some j := by
  have hnone : (pairs.map stringMember).lookup (units k) = none := by
    rw [List.lookup_eq_none_iff]
    intro p hp
    rcases List.mem_map.1 hp with ⟨q, hq, rfl⟩
    rw [bne_iff_ne]
    exact fun heq => hfresh (List.mem_map.2 ⟨q, hq, heq.symm⟩)
  rw [List.lookup_append, hnone, List.lookup_cons_self]
  rfl

/-- Whatever the last string is, the object begins with the members before it, and its own value is
shorter, unless it is plain. -/
theorem exists_lookup (hpairs : ∀ p ∈ pairs, Plain p.1 ∧ Plain p.2) (hk : Plain k)
    (hfresh : units k ∉ pairs.map fun p => units p.1)
    (h : Text (objectText pairs k s) (.object ms)) :
    ∃ us, ms.lookup (units k) = some (.string us) ∧ us.length ≤ (units s).length ∧
      (us.length = (units s).length → Plain s) := by
  rcases h with ⟨cs₁, cs₂, hfront, hvalue, -⟩
  rw [hfront.eq (by decide)] at hvalue
  rcases object_of_value hvalue with hempty | hmembers
  · rcases exists_objectText_eq pairs k s with ⟨cs, hcs⟩
    injection hcs with _ hcs
    rw [hcs] at hempty
    injection hempty.eq (by decide) with hbrace
    exact absurd hbrace (by decide)
  · rcases (members_flatMap_iff hpairs).1 hmembers with ⟨ms', rfl, hlast⟩
    rcases hlast.last_string hk with ⟨us, ms'', rfl, hle⟩
    exact ⟨us, lookup_fresh hfresh, hle⟩

end JsonGrammar
