import Mathlib.Data.Int.Notation
import Mathlib.Data.List.TakeWhile
import Mathlib.Data.Nat.Notation

/-!
# Tokens

Reading a text token by token, as `strtok` does: every call takes the next token off what the call
before has left.  The tokens of a text are its non-empty pieces between separators.

A reader is a program that pulls tokens one by one and has a state of its own.  It fails where it
uses a token that is not there.
-/

namespace Tokens

variable {α : Type*} {sep : α → Bool}

/-- The next token, and what the call after it starts from. -/
def strtok (sep : α → Bool) (text : List α) : Option (List α) × List α :=
  match text.dropWhile sep with
  | [] => (none, [])
  | c :: rest =>
      (some ((c :: rest).takeWhile fun c => !sep c), ((c :: rest).dropWhile fun c => !sep c).tail)

/-- All tokens of a text. -/
def tokens (sep : α → Bool) (text : List α) : List (List α) :=
  (text.splitOnP sep).filter fun token => !token.isEmpty

@[simp] theorem tokens_nil : tokens sep [] = [] := rfl

theorem tokens_separator {c : α} (hc : sep c = true) (text : List α) :
    tokens sep (c :: text) = tokens sep text := by
  rw [tokens, List.splitOnP_cons_eq_if_modifyHead, if_pos hc]
  rfl

/-- Separators in front of a text make no difference. -/
theorem tokens_dropWhile (text : List α) :
    tokens sep (text.dropWhile sep) = tokens sep text := by
  induction text with
  | nil => rfl
  | cons c text ih =>
      cases hc : sep c with
      | true => rw [List.dropWhile_cons_of_pos hc, ih, tokens_separator hc]
      | false => rw [List.dropWhile_cons_of_neg (by simp [hc])]

/-- A token at the end of a text. -/
theorem tokens_singleton {token : List α} (hne : token ≠ []) (h : ∀ c ∈ token, sep c = false) :
    tokens sep token = [token] := by
  rw [tokens, List.splitOnP_eq_singleton h]
  simp [hne]

/-- A token in front of a separator. -/
theorem tokens_cons {token : List α} (hne : token ≠ []) (h : ∀ c ∈ token, sep c = false) {c : α}
    (hc : sep c = true) (text : List α) :
    tokens sep (token ++ c :: text) = token :: tokens sep text := by
  rw [tokens, List.splitOnP_append_cons_of_forall_mem h c hc]
  simp [hne, tokens]

/-- Words, each behind a separator, are the tokens of their text. -/
theorem tokens_words {c : α} (hc : sep c = true) {words : List (List α)}
    (hwords : ∀ word ∈ words, word ≠ [] ∧ ∀ x ∈ word, sep x = false) :
    tokens sep (words.flatMap fun word => c :: word) = words := by
  induction words with
  | nil => rfl
  | cons word words ih =>
      rcases hwords word List.mem_cons_self with ⟨hne, hword⟩
      have hlater := ih fun later hmem => hwords later (List.mem_cons_of_mem word hmem)
      rw [List.flatMap_cons, List.cons_append, tokens_separator hc]
      cases words with
      | nil => rw [List.flatMap_nil, List.append_nil, tokens_singleton hne hword]
      | cons next words =>
          rw [List.flatMap_cons, List.cons_append, tokens_separator hc] at hlater
          rw [List.flatMap_cons, List.cons_append, tokens_cons hne hword hc, hlater]

theorem dropWhile_head {p : α → Bool} {text rest : List α} {c : α}
    (h : text.dropWhile p = c :: rest) : p c = false := by
  have hne : text.dropWhile p ≠ [] := by simp [h]
  have hhead := List.head_dropWhile_not (p := p) hne
  simpa [h] using hhead

/-- `strtok` takes the first token off. -/
theorem strtok_eq (sep : α → Bool) (text : List α) :
    (strtok sep text).1 = (tokens sep text).head? ∧
      tokens sep (strtok sep text).2 = (tokens sep text).tail := by
  rw [← tokens_dropWhile text, strtok]
  cases hskip : text.dropWhile sep with
  | nil => exact ⟨rfl, rfl⟩
  | cons c rest =>
      have hc : sep c = false := dropWhile_head hskip
      have hne : (c :: rest).takeWhile (fun c => !sep c) ≠ [] := by simp [hc]
      have htoken : ∀ x ∈ (c :: rest).takeWhile (fun c => !sep c), sep x = false := by
        intro x hx
        simpa using List.mem_takeWhile_imp hx
      have hsplit := List.takeWhile_append_dropWhile (p := fun c => !sep c) (l := c :: rest)
      -- the token goes up to the next separator, or to the end
      cases hrest : (c :: rest).dropWhile (fun c => !sep c) with
      | nil =>
          have htokens := tokens_singleton hne htoken
          rw [hrest, List.append_nil] at hsplit
          simp only [hsplit] at htokens
          simp only [hsplit, hrest, htokens]
          exact ⟨rfl, rfl⟩
      | cons x rest' =>
          have hx : sep x = true := by simpa using dropWhile_head hrest
          have htokens := tokens_cons hne htoken hx rest'
          rw [← hrest, hsplit] at htokens
          simp only [hrest, htokens]
          exact ⟨rfl, rfl⟩

/-! ## Readers -/

/-- A program that reads tokens: what is left of the text, and the state of the program. -/
abbrev Reader (α σ β : Type) := StateT (List α × σ) Option β

section Reader

variable {α σ β : Type} {sep : α → Bool} {n : ℕ}

/-- The text to read from. -/
def start (text : List α) : Reader α σ Unit := fun s => some ((), text, s.2)

/-- `strtok` -/
def take (sep : α → Bool) : Reader α σ (Option (List α)) := fun s =>
  let found := strtok sep s.1
  some (found.1, found.2, s.2)

/-- The use of something that may not be there. -/
def need (found : Option β) : Reader α σ β := fun s => found.map fun x => (x, s)

/-- A token that is used. -/
def next (sep : α → Bool) : Reader α σ (List α) := take sep >>= need

/-- A step that reads nothing. -/
def update (f : σ → σ) : Reader α σ Unit := fun s => some ((), s.1, f s.2)

/-- The program does not fail. -/
def Runs (m : Reader α σ β) (s : List α × σ) : Prop := (m s).isSome

instance (m : Reader α σ β) (s : List α × σ) : Decidable (Runs m s) :=
  inferInstanceAs (Decidable ((m s).isSome = true))

theorem need_bind {γ : Type} (found : Option β) (k : β → Reader α σ γ) (s : List α × σ) :
    (need found >>= k) s = found.bind fun x => k x s := by
  cases found <;> rfl

/-- What a program does, by the state that it ends in. -/
theorem exists_run_iff {m : Reader α σ Unit} {s : List α × σ} {P : σ → Prop} :
    (∃ s', m s = some ((), s') ∧ P s'.2) ↔ ∃ x, (m s).map (fun r => r.2.2) = some x ∧ P x := by
  constructor
  · rintro ⟨s', hs', hP⟩
    exact ⟨s'.2, by rw [hs']; rfl, hP⟩
  · rintro ⟨x, hx, hP⟩
    rcases Option.map_eq_some_iff.1 hx with ⟨⟨_, s'⟩, hs', rfl⟩
    exact ⟨s', hs', hP⟩

/-- The first token is read. -/
theorem next_bind_of_tokens {k : List α → Reader α σ β} {s : List α × σ} {token : List α}
    {more : List (List α)} (h : tokens sep s.1 = token :: more) :
    ∃ rest, tokens sep rest = more ∧ (next sep >>= k) s = k token (rest, s.2) := by
  rcases strtok_eq sep s.1 with ⟨hfirst, hrest⟩
  rw [h] at hfirst hrest
  refine ⟨(strtok sep s.1).2, hrest, ?_⟩
  simp [next, take, need, bind, StateT.bind, hfirst]

/-- There is none: the program fails. -/
theorem next_bind_of_nil {k : List α → Reader α σ β} {s : List α × σ} (h : tokens sep s.1 = []) :
    (next sep >>= k) s = none := by
  have hfirst := (strtok_eq sep s.1).1
  rw [h] at hfirst
  simp [next, take, need, bind, StateT.bind, hfirst]

/-- Whether the program runs depends on the tokens only: it does if they have `P`. -/
def Reads (sep : α → Bool) (P : List (List α) → Prop) (m : Reader α σ Unit) : Prop :=
  ∀ s, Runs m s ↔ P (tokens sep s.1)

/-- The program uses `n` tokens, whatever they are: it runs exactly if there are so many. -/
def Needs (sep : α → Bool) (n : ℕ) (m : Reader α σ Unit) : Prop :=
  Reads sep (fun ts => n ≤ ts.length) m

theorem needs_update (f : σ → σ) : Needs sep 0 (update f : Reader α σ Unit) := fun _ => by
  simp [Runs, update]

/-- A token, and what is done with it. -/
theorem reads_next {P : List α → List (List α) → Prop} {k : List α → Reader α σ Unit}
    (hk : ∀ token, Reads sep (P token) (k token)) :
    Reads sep (fun ts => ∃ token more, ts = token :: more ∧ P token more) (next sep >>= k) := by
  intro s
  cases htokens : tokens sep s.1 with
  | nil =>
      unfold Runs
      rw [next_bind_of_nil htokens]
      simp
  | cons token more =>
      rcases next_bind_of_tokens (k := k) htokens with ⟨rest, hmore, hrun⟩
      have hrest := hk token (rest, s.2)
      unfold Runs at hrest ⊢
      rw [hrun, hrest, hmore]
      constructor
      · intro hP
        exact ⟨token, more, rfl, hP⟩
      · rintro ⟨token', more', heq, hP⟩
        cases heq
        exact hP

theorem needs_next {k : List α → Reader α σ Unit} (hk : ∀ token, Needs sep n (k token)) :
    Needs sep (n + 1) (next sep >>= k) := by
  intro s
  rw [reads_next hk s]
  constructor
  · rintro ⟨token, more, htokens, hmore⟩
    rw [htokens]
    exact Nat.succ_le_succ hmore
  · intro hlen
    cases htokens : tokens sep s.1 with
    | nil =>
        rw [htokens] at hlen
        exact absurd hlen (Nat.not_succ_le_zero n)
    | cons token more =>
        rw [htokens] at hlen
        exact ⟨token, more, rfl, Nat.le_of_succ_le_succ hlen⟩

/-- Whether the program runs is decided before a step that reads nothing. -/
theorem runs_bind_update {m : Reader α σ Unit} {f : σ → σ} {s : List α × σ} :
    Runs (do m; update f) s ↔ Runs m s := by
  unfold Runs
  cases hm : m s <;> simp [bind, StateT.bind, hm, update]

theorem reads_bind_update {P : List (List α) → Prop} {m : Reader α σ Unit} (hm : Reads sep P m)
    (f : σ → σ) : Reads sep P (do m; update f) := fun s => runs_bind_update.trans (hm s)

/-- What a program that does not fail makes of the tokens and of its state. -/
def Does (sep : α → Bool) (Q : List (List α) → σ → σ → Prop) (m : Reader α σ Unit) : Prop :=
  ∀ s s', m s = some ((), s') → Q (tokens sep s.1) s.2 s'.2

variable {Q : List (List α) → σ → σ → Prop}

theorem does_update {f : σ → σ} (h : ∀ ts x, Q ts x (f x)) : Does sep Q (update f) := by
  intro s s' hs
  cases hs
  exact h _ _

theorem does_next {k : List α → Reader α σ Unit}
    (hk : ∀ token, Does sep (fun ts => Q (token :: ts)) (k token)) : Does sep Q (next sep >>= k) := by
  intro s s' hs
  cases htokens : tokens sep s.1 with
  | nil =>
      rw [next_bind_of_nil htokens] at hs
      cases hs
  | cons token more =>
      rcases next_bind_of_tokens (k := k) htokens with ⟨rest, hmore, hrun⟩
      rw [hrun] at hs
      exact hmore ▸ hk token _ _ hs

theorem does_bind_update {m : Reader α σ Unit} {f : σ → σ}
    (hm : Does sep (fun ts x y => Q ts x (f y)) m) : Does sep Q (do m; update f) := by
  intro s s' hs
  cases hrun : m s with
  | none => simp [bind, StateT.bind, hrun] at hs
  | some r =>
      rcases r with ⟨⟨⟩, r⟩
      simp only [bind, StateT.bind, hrun, update] at hs
      cases hs
      exact hm s r hrun

end Reader

/-! ## Numbers -/

def isSpace (c : Char) : Bool := c = ' ' || (9 ≤ c.toNat && c.toNat ≤ 13)

/-- The number that the leading digits of a text denote. -/
def digits (text : List Char) : ℕ :=
  (text.takeWhile Char.isDigit).foldl (fun n c => n * 10 + (c.toNat - 48)) 0

/-- `atoi`, before the number is brought into the range of its type. -/
def atoi (text : List Char) : ℤ :=
  match text.dropWhile isSpace with
  | '-' :: rest => -(digits rest)
  | '+' :: rest => digits rest
  | rest => digits rest

/-- What `atoi` reads of the digits of a number. -/
theorem atoi_toDigits (n : ℕ) : atoi (Nat.toDigits 10 n) = n := by
  have hdigit : ∀ c ∈ Nat.toDigits 10 n, c.isDigit = true := fun c hc =>
    Nat.isDigit_of_mem_toDigits (by decide) (by decide) hc
  have hvalue : digits (Nat.toDigits 10 n) = n := by
    have hsame : (fun (n : ℕ) (c : Char) => n * 10 + (c.toNat - 48)) =
        fun n c => 10 * n + (c.toNat - '0'.toNat) := by
      funext n c
      rw [Nat.mul_comm]
      rfl
    rw [digits, List.takeWhile_eq_self_iff.2 hdigit, hsame, ← Nat.ofDigitChars_eq_foldl,
      Nat.ofDigitChars_ten_toDigits]
  -- the text begins with a digit, so there is nothing to skip and no sign
  generalize Nat.toDigits 10 n = text at hdigit hvalue
  cases text with
  | nil => rw [← hvalue]; rfl
  | cons c text =>
      have hc := hdigit c List.mem_cons_self
      have hspace : isSpace c = false := by
        have hlo : 48 ≤ c.toNat := (Char.isDigit_iff_toNat.1 hc).1
        have hblank : c ≠ ' ' := by
          rintro rfl
          exact absurd hc (by decide)
        have hcontrol : ¬c.toNat ≤ 13 := by omega
        simp [isSpace, hblank, hcontrol]
      unfold atoi
      rw [List.dropWhile_cons_of_neg (by rw [hspace]; exact Bool.false_ne_true)]
      split
      · next heq =>
        injection heq with hminus
        rw [hminus] at hc
        exact absurd hc (by decide)
      · next heq =>
        injection heq with hplus
        rw [hplus] at hc
        exact absurd hc (by decide)
      · rw [hvalue]

end Tokens
