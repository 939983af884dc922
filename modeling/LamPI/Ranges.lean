import LamPI.Library.Fields
import LamPI.Livolo.Receiver
import LamPI.Kopou.Receiver
import LamPI.Quhwa.Receiver
import LamPI.Auriol.Receiver
import LamPI.Remote.Receiver
import LamPI.Kaku.Receiver
import LamPI.Wt440.Receiver

/-!
# Ranges — what a delivered code may hold

No field of a code is checked when the code is delivered.  That it is in range all the same comes
from the state: it bounds the number of bits that the frame has appended to each field so far,
whatever the intervals were.
-/

namespace LamPI

open Fields

/-! ## Invariants of a decoder -/

/-- The step leads to a state with `I`, and hands over only codes with `P`. -/
def Keeps {δ γ : Type} (I : δ → Prop) (P : γ → Prop) (r : δ × Option (Completion γ)) : Prop :=
  I r.1 ∧ ∀ e ∈ r.2, P e.code

theorem Keeps.silent {δ γ : Type} {I : δ → Prop} {P : γ → Prop} {s : δ} (h : I s) :
    Keeps I P (s, none) := by
  refine ⟨h, ?_⟩
  intro e he
  cases he

theorem Keeps.complete {δ γ : Type} {I : δ → Prop} {P : γ → Prop} {s : δ} {e : Completion γ}
    (h : I s) (he : P e.code) : Keeps I P (s, some e) := by
  refine ⟨h, ?_⟩
  intro e' he'
  cases he'
  exact he

/-- A decoder whose steps keep an invariant delivers what its steps hand over. -/
theorem callbacks_forall {δ γ : Type} {decode : δ → ℕ → δ × Option (Completion γ)} {I : δ → Prop}
    {P : γ → Prop} (hstep : ∀ s gap, I s → Keeps I P (decode s gap)) {s : δ} (h : I s)
    (gaps : List ℕ) : ∀ c ∈ callbacks (Mealy.events decode s gaps), P c := by
  intro c hc
  rcases List.mem_map.1 (callbacks_subset_codes hc) with ⟨e, he, rfl⟩
  exact Mealy.events_forall hstep h gaps e he

/-! ## Livolo -/

namespace Livolo

structure Code.Fits (k : ℕ) (c : Code) : Prop where
  address : Fields.Fits 2 0 16 k c.address
  unit : Fields.Fits 2 16 7 k c.unit

def Code.InRange (c : Code) : Prop := c.address < 2 ^ 16 ∧ c.unit < 2 ^ 7

/-- A long pulse moves the state by two, and a short one by one; the bit is stored by the long one
or by the second of two short ones, so half of the state bounds the number of bits, also when the
state is not aligned. -/
def Decoder.Fits (s : Decoder) : Prop :=
  s.state = -1 ∨ ∃ k : ℕ, s.state = k ∧ s.receivedCode.Fits (k / 2)

variable {b : Board} {s : Decoder} {c : Code} {k : ℕ}

theorem Code.Fits.mono (h : c.Fits k) {l : ℕ} (hkl : k ≤ l) : c.Fits l :=
  ⟨h.address.mono Nat.two_pos hkl, h.unit.mono Nat.two_pos hkl⟩

theorem Code.Fits.inRange (h : c.Fits k) : c.InRange :=
  ⟨h.address.lt Nat.two_pos, h.unit.lt Nat.two_pos⟩

theorem Code.Fits.storeAddress (h : c.Fits k) (hk : k < 16) {bit : ℕ} (hbit : bit < 2) :
    (storeAddress bit c).Fits (k + 1) :=
  ⟨h.address.push_mod (Nat.zero_le k) (by omega) hbit _, h.unit.mono Nat.two_pos (Nat.le_succ k)⟩

theorem Code.Fits.storeUnit (h : c.Fits k) (hlo : 16 ≤ k) (hhi : k < 23) {bit : ℕ}
    (hbit : bit < 2) : (storeUnit bit c).Fits (k + 1) :=
  ⟨h.address.mono Nat.two_pos (Nat.le_succ k), h.unit.push_mod hlo (by omega) hbit _⟩

theorem advance_keeps (hstate : s.state + 1 = k) (h : s.receivedCode.Fits (k / 2)) :
    Keeps Decoder.Fits Code.InRange (advance s) := by
  unfold advance close
  split
  · exact Keeps.complete (Or.inl rfl) h.inRange
  · exact Keeps.silent (Or.inr ⟨k, hstate, h⟩)

/-- A bit is stored, aborts the frame or is only the first half of a `0`. -/
theorem decodeBit_keeps {store : ℕ → Code → Code} {duration : ℕ} (hstate : s.state = k)
    (h : s.receivedCode.Fits (k / 2))
    (hstore : ∀ bit < 2, (store bit s.receivedCode).Fits (k / 2 + 1)) :
    Keeps Decoder.Fits Code.InRange (decodeBit store s duration) := by
  unfold decodeBit
  split
  · have hnext : s.state + 1 + 1 = (k + 2 : ℕ) := by rw [hstate]; push_cast; ring
    refine advance_keeps hnext ?_
    rw [Nat.add_div_right k Nat.two_pos]
    exact hstore 1 Nat.one_lt_two
  · have hnext : s.state + 1 = (k + 1 : ℕ) := by rw [hstate]; push_cast; ring
    split
    · next hodd =>
      split
      · exact Keeps.silent (Or.inl rfl)
      · next hbit =>
        -- the second short pulse of a `0`
        have hhalf : (k + 1) / 2 = k / 2 + 1 := by omega
        refine advance_keeps hnext ?_
        rw [hhalf]
        exact hstore _ (by omega)
    · exact advance_keeps hnext (h.mono (Nat.div_le_div_right (Nat.le_succ k)))

theorem decode_keeps (s : Decoder) (gap : ℕ) (h : s.Fits) :
    Keeps Decoder.Fits Code.InRange (decode b s gap) := by
  unfold decode
  split
  · exact Keeps.silent (Or.inl rfl)
  · simp only
    split
    · next hidle =>
      split
      · have hnext : s.state + 1 = (0 : ℕ) := by rw [hidle]; rfl
        exact advance_keeps hnext ⟨fits_zero Nat.two_pos, fits_zero Nat.two_pos⟩
      · exact Keeps.silent h
    · next hne =>
      rcases h with hidle | ⟨k, hstate, hfits⟩
      · exact absurd hidle hne
      split
      · exact decodeBit_keeps hstate hfits fun bit hbit => hfits.storeAddress (by omega) hbit
      · split
        · exact decodeBit_keeps hstate hfits fun bit hbit =>
            hfits.storeUnit (by omega) (by omega) hbit
        · exact Keeps.silent (Or.inl rfl)

theorem callbacks_inRange (b : Board) (m : ℕ) (edge2 : ULong) (times : List ℕ) :
    ∀ c ∈ callbacks (Mealy.events (interruptHandler b) (init m edge2) times), c.InRange := by
  rw [interruptHandler, Sampled.events_eq rfl]
  exact callbacks_forall decode_keeps (Or.inl rfl) _

end Livolo

/-! ## Kopou -/

namespace Kopou

structure Code.Fits (k : ℕ) (c : Code) : Prop where
  address : Fields.Fits 2 0 16 k c.address
  unit : Fields.Fits 2 16 8 k c.unit

def Code.InRange (c : Code) : Prop := c.address < 2 ^ 16 ∧ c.unit < 2 ^ 8

def Decoder.Fits (s : Decoder) : Prop :=
  s.state = -1 ∨ ∃ k : ℕ, s.state = k ∧ s.receivedCode.Fits (k / 2)

variable {b : Board} {s : Decoder} {c : Code} {k : ℕ}

theorem Code.Fits.mono (h : c.Fits k) {l : ℕ} (hkl : k ≤ l) : c.Fits l :=
  ⟨h.address.mono Nat.two_pos hkl, h.unit.mono Nat.two_pos hkl⟩

theorem Code.Fits.inRange (h : c.Fits k) : c.InRange :=
  ⟨h.address.lt Nat.two_pos, h.unit.lt Nat.two_pos⟩

theorem Code.Fits.store (h : c.Fits (k / 2)) (hk : k < 48) {bit : ℕ} (hbit : bit < 2) :
    (store k bit c).Fits (k / 2 + 1) := by
  have hnext : k / 2 ≤ k / 2 + 1 := Nat.le_succ _
  unfold Kopou.store
  split
  · next h32 =>
    exact ⟨h.address.push_mod (Nat.zero_le _) (by omega) hbit _, h.unit.mono Nat.two_pos hnext⟩
  · next h32 =>
    exact ⟨h.address.mono Nat.two_pos hnext, h.unit.push_mod (by omega) (by omega) hbit _⟩

theorem advance_keeps (hstate : s.state + 1 = k) (h : s.receivedCode.Fits (k / 2)) :
    Keeps Decoder.Fits Code.InRange (advance s) := by
  unfold advance
  split
  · exact Keeps.complete (Or.inl rfl) h.inRange
  · exact Keeps.silent (Or.inr ⟨k, hstate, h⟩)

theorem decode_keeps (s : Decoder) (gap : ℕ) (h : s.Fits) :
    Keeps Decoder.Fits Code.InRange (decode b s gap) := by
  have hstep := stepTo_decode b s gap
  generalize decode b s gap = r at hstep ⊢
  cases hstep with
  | idle hidle => exact Keeps.silent h
  | reset => exact Keeps.silent (Or.inl rfl)
  | start hidle =>
      have hnext : s.state + 1 = (0 : ℕ) := by rw [hidle]; rfl
      exact advance_keeps hnext ⟨fits_zero Nat.two_pos, fits_zero Nat.two_pos⟩
  | first hne hhi heven rb =>
      rcases h with hidle | ⟨k, hstate, hfits⟩
      · exact absurd hidle hne
      have hnext : s.state + 1 = (k + 1 : ℕ) := by rw [hstate]; rfl
      exact advance_keeps hnext (hfits.mono (Nat.div_le_div_right (Nat.le_succ k)))
  | second hne hhi hodd hbit =>
      rcases h with hidle | ⟨k, hstate, hfits⟩
      · exact absurd hidle hne
      have hnext : s.state + 1 = (k + 1 : ℕ) := by rw [hstate]; rfl
      have hhalf : (k + 1) / 2 = k / 2 + 1 := by omega
      refine advance_keeps hnext ?_
      rw [hhalf, hstate]
      exact hfits.store (by omega) (by omega)

theorem callbacks_inRange (b : Board) (m : ℕ) (edge2 : ULong) (times : List ℕ) :
    ∀ c ∈ callbacks (Mealy.events (interruptHandler b) (init m edge2) times), c.InRange := by
  rw [interruptHandler, Sampled.events_eq rfl]
  exact callbacks_forall decode_keeps (Or.inl rfl) _

end Kopou

/-! ## Quhwa -/

namespace Quhwa

structure Code.Fits (k : ℕ) (c : Code) : Prop where
  address : Fields.Fits 2 0 27 k c.address
  unit : Fields.Fits 2 27 8 k c.unit

def Code.InRange (c : Code) : Prop := c.address < 2 ^ 27 ∧ c.unit < 2 ^ 8

def Decoder.Fits (s : Decoder) : Prop :=
  s.state = -1 ∨ ∃ k : ℕ, s.state = k ∧ s.receivedCode.Fits k

variable {b : Board} {s : Decoder} {c : Code} {k : ℕ}

theorem Code.Fits.inRange (h : c.Fits k) : c.InRange :=
  ⟨h.address.lt Nat.two_pos, h.unit.lt Nat.two_pos⟩

theorem Code.Fits.store (h : c.Fits k) (hk : k < 35) (bit : Bool) :
    (store k bit c).Fits (k + 1) := by
  have hbit : bit.toNat < 2 := Bool.toNat_lt bit
  have hnext : k ≤ k + 1 := Nat.le_succ k
  unfold Quhwa.store
  split
  · next h27 =>
    exact ⟨h.address.push_mod (Nat.zero_le k) (by omega) hbit _, h.unit.mono Nat.two_pos hnext⟩
  · next h27 =>
    exact ⟨h.address.mono Nat.two_pos hnext, h.unit.push_mod (by omega) (by omega) hbit _⟩

theorem advance_keeps (hstate : s.state + 1 = k) (h : s.receivedCode.Fits k) :
    Keeps Decoder.Fits Code.InRange (advance s) := by
  unfold advance
  split
  · exact Keeps.complete (Or.inl rfl) h.inRange
  · exact Keeps.silent (Or.inr ⟨k, hstate, h⟩)

theorem decode_keeps (s : Decoder) (gap : ℕ) (h : s.Fits) :
    Keeps Decoder.Fits Code.InRange (decode b s gap) := by
  have hstep := stepTo_decode b s gap
  generalize decode b s gap = r at hstep ⊢
  cases hstep with
  | idle hidle => exact Keeps.silent h
  | reset => exact Keeps.silent (Or.inl rfl)
  | start hidle bit =>
      have hnext : s.state + 1 = (0 : ℕ) := by rw [hidle]; rfl
      exact advance_keeps hnext ⟨fits_zero Nat.two_pos, fits_zero Nat.two_pos⟩
  | bit hne hhi rb bit =>
      rcases h with hidle | ⟨k, hstate, hfits⟩
      · exact absurd hidle hne
      have hnext : s.state + 1 = (k + 1 : ℕ) := by rw [hstate]; rfl
      refine advance_keeps hnext ?_
      rw [hstate]
      exact hfits.store (by omega) bit

theorem callbacks_inRange (b : Board) (m : ℕ) (edge2 : ULong) (times : List ℕ) :
    ∀ c ∈ callbacks (Mealy.events (interruptHandler b) (init m edge2) times), c.InRange := by
  rw [interruptHandler, Sampled.events_eq rfl]
  exact callbacks_forall decode_keeps (Or.inl rfl) _

end Quhwa

/-! ## Auriol -/

namespace Auriol

/-- The fields after `k` bits of a frame; the temperature is an `int` that is never negative. -/
structure Code.Fits (k : ℕ) (c : Code) : Prop where
  address : Fields.Fits 2 0 8 k c.address
  n1 : Fields.Fits 2 8 4 k c.n1
  temperature : ∃ t : ℕ, c.temperature = t ∧ Fields.Fits 2 12 12 k t
  n2 : Fields.Fits 2 24 7 k c.n2
  csum : c.csum < 2

/-- A delivered code has 8 bits of address, 4 and 7 of `n1` and `n2`, 12 of temperature and one of
`csum`. -/
def Code.InRange (c : Code) : Prop :=
  c.address < 2 ^ 8 ∧ c.n1 < 16 ∧ 0 ≤ c.temperature ∧ c.temperature < 2 ^ 12 ∧ c.n2 < 2 ^ 7 ∧
    c.csum < 2

structure Decoder.Fits (s : Decoder) : Prop where
  running : s.Running
  code : ∀ k : ℕ, s.state = k → s.receivedCode.Fits (k / 2)

variable {b : Board} {s : Decoder} {c : Code} {k : ℕ}

theorem fits_of_idle (hidle : s.state = -1) : s.Fits :=
  ⟨⟨hidle.ge, by omega⟩, fun k hk => by omega⟩

theorem Code.Fits.mono (h : c.Fits k) {l : ℕ} (hkl : k ≤ l) : c.Fits l := by
  rcases h.temperature with ⟨t, ht, hfits⟩
  exact ⟨h.address.mono Nat.two_pos hkl, h.n1.mono Nat.two_pos hkl,
    ⟨t, ht, hfits.mono Nat.two_pos hkl⟩, h.n2.mono Nat.two_pos hkl, h.csum⟩

theorem Code.Fits.inRange (h : c.Fits k) : c.InRange := by
  rcases h.temperature with ⟨t, ht, hfits⟩
  have hlt : t < 2 ^ 12 := hfits.lt Nat.two_pos
  rw [Code.InRange, ht]
  exact ⟨h.address.lt Nat.two_pos, h.n1.lt Nat.two_pos, Int.natCast_nonneg t, by exact_mod_cast hlt,
    h.n2.lt Nat.two_pos, h.csum⟩

/-- A shorter number fits the `int` of both boards. -/
theorem bmod_shift (b : Board) {t bit : ℕ} (h : t * 2 + bit < 2 ^ 12) :
    Int.bmod ((t : ℤ) * 2 + bit) (2 ^ b.uintBits) = (t * 2 + bit : ℕ) := by
  cases b with
  | avr =>
      push_cast
      exact Int.bmod_eq_of_le (by simp [Board.uintBits]; omega) (by simp [Board.uintBits]; omega)
  | esp8266 =>
      push_cast
      exact Int.bmod_eq_of_le (by simp [Board.uintBits]; omega) (by simp [Board.uintBits]; omega)

theorem Code.Fits.store (h : c.Fits (k / 2)) (hk : k < 64) (bit : Bool) :
    (store b k bit c).Fits (k / 2 + 1) := by
  have hbit : bit.toNat < 2 := Bool.toNat_lt bit
  have hnext : k / 2 ≤ k / 2 + 1 := Nat.le_succ _
  have hrest := h.mono hnext
  have hcsum : c.csum ^^^ bit.toNat < 2 := Nat.xor_lt_two_pow (n := 1) h.csum hbit
  unfold Auriol.store
  split
  · next h16 =>
    exact ⟨h.address.push_mod (Nat.zero_le _) (by omega) hbit _, hrest.n1, hrest.temperature,
      hrest.n2, hcsum⟩
  · next h16 =>
    split
    · next h24 =>
      exact ⟨hrest.address, h.n1.push_mod (by omega) (by omega) hbit _, hrest.temperature,
        hrest.n2, hcsum⟩
    · next h24 =>
      split
      · next h48 =>
        rcases h.temperature with ⟨t, ht, hfits⟩
        have hpush := hfits.push (by omega) (by omega) hbit
        refine ⟨hrest.address, hrest.n1, ⟨_, ?_, hpush⟩, hrest.n2, hcsum⟩
        rw [storeTemperature, ht]
        exact bmod_shift b (hpush.lt Nat.two_pos)
      · next h48 =>
        split
        · next h62 =>
          exact ⟨hrest.address, hrest.n1, hrest.temperature,
            h.n2.push_mod (by omega) (by omega) hbit _, hcsum⟩
        · exact ⟨hrest.address, hrest.n1, hrest.temperature, hrest.n2, hcsum⟩

/-- The code that an interval makes of the last one. -/
theorem Decoder.Fits.received (h : s.Fits) (gap : ℕ) (hk : s.state + 1 = k) :
    (received b s gap).Fits (k / 2) := by
  unfold Auriol.received
  split
  · exact ⟨fits_zero Nat.two_pos, fits_zero Nat.two_pos, ⟨0, rfl, fits_zero Nat.two_pos⟩,
      fits_zero Nat.two_pos, Nat.two_pos⟩
  · next hne =>
    have hlo := h.running.1
    have hhi := h.running.2
    rcases Int.eq_ofNat_of_zero_le (show 0 ≤ s.state by omega) with ⟨j, hj⟩
    have hcode := h.code j hj
    split
    · exact hcode.mono (Nat.div_le_div_right (by omega))
    · next hodd =>
      have hhalf : k / 2 = j / 2 + 1 := by omega
      rw [hhalf, hj]
      exact hcode.store (by omega) _

theorem decode_keeps (s : Decoder) (gap : ℕ) (h : s.Fits) :
    Keeps Decoder.Fits Code.InRange (decode b s gap) := by
  have hrunning := (tracks_decode b).1 s gap h.running
  by_cases htakes : Takes b s.state gap
  · rw [decode_takes h.running htakes, advance] at hrunning ⊢
    have hlo := h.running.1
    rcases Int.eq_ofNat_of_zero_le (show 0 ≤ s.state + 1 by omega) with ⟨k, hk⟩
    have hcode := h.received (b := b) gap hk
    split
    · exact Keeps.complete (fits_of_idle rfl) hcode.inRange
    · next hmore =>
      rw [if_neg hmore] at hrunning
      refine Keeps.silent ⟨hrunning, ?_⟩
      intro l hl
      have hkl : l = k := by
        have : (l : ℤ) = k := hl.symm.trans hk
        exact_mod_cast this
      rw [hkl]
      exact hcode
  · rcases decode_not_takes htakes with ⟨hstate, hsilent⟩
    refine ⟨fits_of_idle hstate, ?_⟩
    rw [hsilent]
    intro e he
    cases he

theorem callbacks_inRange (b : Board) (m : ℕ) (edge2 : ULong) (times : List ℕ) :
    ∀ c ∈ callbacks (Mealy.events (interruptHandler b) (init m edge2) times), c.InRange := by
  rw [interruptHandler, Sampled.events_eq rfl]
  exact callbacks_forall decode_keeps (fits_of_idle rfl) _

/-- No channel is read. -/
theorem advance_channel (h : s.receivedCode.channel = 0) :
    Keeps (fun s => s.receivedCode.channel = 0) (fun c : Code => c.channel = 0) (advance s) := by
  unfold advance
  split
  · exact Keeps.complete h h
  · exact Keeps.silent h

theorem decode_channel (s : Decoder) (gap : ℕ) (h : s.receivedCode.channel = 0) :
    Keeps (fun s => s.receivedCode.channel = 0) (fun c : Code => c.channel = 0)
      (decode b s gap) := by
  have hempty : ({ s with receivedCode := emptyCode } : Decoder).receivedCode.channel = 0 := rfl
  unfold decode
  dsimp only
  -- a new code at the sync gap, and fields that are not the channel after it
  split_ifs
  · exact advance_channel hempty
  all_goals first
    | exact Keeps.silent h
    | exact advance_channel h

theorem callbacks_channel (b : Board) (m : ℕ) (edge2 : ULong) (times : List ℕ) :
    ∀ c ∈ callbacks (Mealy.events (interruptHandler b) (init m edge2) times), c.channel = 0 := by
  rw [interruptHandler, Sampled.events_eq rfl]
  exact callbacks_forall decode_channel rfl _

end Auriol

/-! ## Remote -/

namespace Remote

def Decoder.Fits (s : Decoder) : Prop :=
  s.state = -1 ∨ ∃ k : ℕ, s.state = k ∧ Fields.Fits 3 0 12 (k / 4) s.receivedCode

def Received.InRange (r : Received) : Prop := r.code < 3 ^ 12

variable {b : Board} {s : Decoder} {k : ℕ}

theorem trit_lt {rb : BitVec 8} {t : ℕ} (h : trit rb = some t) : t < 3 := by
  unfold trit at h
  split at h
  · cases h; decide
  · split at h
    · cases h; decide
    · split at h
      · cases h; decide
      · cases h

theorem advance_keeps (hstate : s.state + 1 = k)
    (h : Fields.Fits 3 0 12 (k / 4) s.receivedCode) :
    Keeps Decoder.Fits Received.InRange (advance s) :=
  Keeps.silent (Or.inr ⟨k, hstate, h⟩)

theorem decodePart_keeps (hstate : s.state = k) (hk : k < 48)
    (h : Fields.Fits 3 0 12 (k / 4) s.receivedCode) :
    Keeps Decoder.Fits Received.InRange (decodePart s) := by
  have hnext : s.state + 1 = (k + 1 : ℕ) := by rw [hstate]; rfl
  unfold decodePart
  split
  · next hlast =>
    have hdigit : (k + 1) / 4 = k / 4 + 1 := by omega
    simp only
    split
    · next t htrit =>
      refine advance_keeps hnext ?_
      rw [hdigit]
      exact h.push_add (Nat.zero_le _) (by omega) (trit_lt htrit) _
    · exact Keeps.silent (Or.inl rfl)
  · exact advance_keeps hnext (h.mono (by decide) (Nat.div_le_div_right (Nat.le_succ k)))

theorem complete_keeps (h : s.receivedCode < 3 ^ 12) :
    Keeps Decoder.Fits Received.InRange (complete s) := by
  unfold complete
  refine Keeps.complete ?_ h
  split
  · exact Or.inl rfl
  · exact Or.inr ⟨0, rfl, fits_zero (by decide)⟩

theorem decode_keeps (s : Decoder) (duration : ℕ) (h : s.Fits) :
    Keeps Decoder.Fits Received.InRange (decode b s duration) := by
  unfold decode
  split
  · next hidle =>
    split
    · have hnext : s.state + 1 = (0 : ℕ) := by rw [hidle]; rfl
      exact advance_keeps hnext (fits_zero (by decide))
    · exact Keeps.silent h
  · next hne =>
    rcases h with hidle | ⟨k, hstate, hfits⟩
    · exact absurd hidle hne
    split
    · split
      · exact decodePart_keeps hstate (by omega) hfits
      · split
        · exact decodePart_keeps hstate (by omega) hfits
        · exact Keeps.silent (Or.inl rfl)
    · split
      · split
        · exact Keeps.silent (Or.inl rfl)
        · have hnext : s.state + 1 = (k + 1 : ℕ) := by rw [hstate]; rfl
          exact advance_keeps hnext (hfits.mono (by decide) (Nat.div_le_div_right (Nat.le_succ k)))
      · split
        · exact Keeps.silent (Or.inl rfl)
        · exact complete_keeps (hfits.lt (by decide))

theorem callbacks_inRange (b : Board) (m : ℕ) (edge0 edge2 : ULong) (times : List ℕ) :
    ∀ r ∈ callbacks (Mealy.events (interruptHandler b) (init m edge0 edge2) times), r.InRange := by
  rw [interruptHandler, Filtered.events_eq]
  exact callbacks_forall decode_keeps (Or.inl rfl) _

end Remote

/-! ## KlikAanKlikUit -/

namespace Kaku

/-- The fields after `k` bits of a frame; between the address and the unit are the group bit and
the switch type. -/
structure Code.Fits (k : ℕ) (c : Code) : Prop where
  address : Fields.Fits 2 0 26 k c.address
  unit : Fields.Fits 2 28 4 k c.unit
  dimLevel : Fields.Fits 2 32 4 k c.dimLevel

def Code.InRange (c : Code) : Prop := c.address < 2 ^ 26 ∧ c.unit < 2 ^ 4 ∧ c.dimLevel < 2 ^ 4

/-- From state 2 on four states read a bit.  Before that the code is the one of an earlier frame, and
in the states outside a frame, where the counter may even wrap, nothing is stored. -/
structure Decoder.Fits (s : Decoder) : Prop where
  lo : -32768 ≤ s.state
  hi : s.state < 32768
  inRange : s.receivedCode.InRange
  bits : ∀ k : ℕ, s.state = (k + 1 : ℕ) → s.receivedCode.Fits ((k - 1) / 4)

variable {b : Board} {s : Decoder} {c : Code} {k : ℕ}

theorem Code.Fits.mono (h : c.Fits k) {l : ℕ} (hkl : k ≤ l) : c.Fits l :=
  ⟨h.address.mono Nat.two_pos hkl, h.unit.mono Nat.two_pos hkl, h.dimLevel.mono Nat.two_pos hkl⟩

theorem Code.Fits.inRange (h : c.Fits k) : c.InRange :=
  ⟨h.address.lt Nat.two_pos, h.unit.lt Nat.two_pos, h.dimLevel.lt Nat.two_pos⟩

/-- A decoder that has given up or begins a frame. -/
theorem fits_of_nonpos (hlo : -32768 ≤ s.state) (hhi : s.state ≤ 0) (hc : s.receivedCode.InRange) :
    s.Fits :=
  ⟨hlo, by omega, hc, fun k hk => by omega⟩

theorem advance_keeps (hlo : -32768 ≤ s.state) (hhi : s.state < 32768)
    (hc : s.receivedCode.InRange)
    (hbits : ∀ k : ℕ, s.state = k → s.receivedCode.Fits ((k - 1) / 4)) :
    Keeps Decoder.Fits Code.InRange (advance s) := by
  refine Keeps.silent ?_
  by_cases hwrap : s.state = 32767
  · have hmin : Int.bmod (s.state + 1) 65536 = -32768 := by rw [hwrap]; decide
    rw [hmin]
    exact fits_of_nonpos le_rfl (by simp only; omega) hc
  · have hnext : Int.bmod (s.state + 1) 65536 = s.state + 1 :=
      Int.bmod_eq_of_le (by omega) (by omega)
    rw [hnext]
    refine ⟨by simp only; omega, by simp only; omega, hc, ?_⟩
    intro k hk
    refine hbits k ?_
    have hsucc : s.state + 1 = (k : ℤ) + 1 := by exact_mod_cast hk
    omega

theorem Code.Fits.shiftAddress (h : c.Fits k) (hk : k < 26) : (shiftAddress c).Fits (k + 1) := by
  have hnext := h.mono (Nat.le_succ k)
  exact ⟨h.address.push_mod (Nat.zero_le k) (by omega) Nat.two_pos _, hnext.unit, hnext.dimLevel⟩

theorem Code.Fits.storeAddress (h : c.Fits k) (hk : k < 26) (bit : Bool) :
    (storeAddress bit (Kaku.shiftAddress c)).Fits (k + 1) := by
  have hnext := h.mono (Nat.le_succ k)
  exact ⟨h.address.push_or (Nat.zero_le k) (by omega) (Bool.toNat_lt bit) _, hnext.unit,
    hnext.dimLevel⟩

theorem Code.Fits.shiftUnit (h : c.Fits k) (hlo : 28 ≤ k) (hhi : k < 32) :
    (shiftUnit c).Fits (k + 1) := by
  have hnext := h.mono (Nat.le_succ k)
  exact ⟨hnext.address, h.unit.push_mod hlo (by omega) Nat.two_pos _, hnext.dimLevel⟩

theorem Code.Fits.storeUnit (h : c.Fits k) (hlo : 28 ≤ k) (hhi : k < 32) (bit : Bool) :
    (storeUnit bit (Kaku.shiftUnit c)).Fits (k + 1) := by
  have hnext := h.mono (Nat.le_succ k)
  exact ⟨hnext.address, h.unit.push_or hlo (by omega) (Bool.toNat_lt bit) _, hnext.dimLevel⟩

theorem Code.Fits.shiftDimLevel (h : c.Fits k) (hlo : 32 ≤ k) (hhi : k < 36) :
    (shiftDimLevel c).Fits (k + 1) := by
  have hnext := h.mono (Nat.le_succ k)
  exact ⟨hnext.address, hnext.unit, h.dimLevel.push_mod hlo (by omega) Nat.two_pos _⟩

theorem Code.Fits.storeDimLevel (h : c.Fits k) (hlo : 32 ≤ k) (hhi : k < 36) (bit : Bool) :
    (storeDimLevel bit (Kaku.shiftDimLevel c)).Fits (k + 1) := by
  have hnext := h.mono (Nat.le_succ k)
  exact ⟨hnext.address, hnext.unit, h.dimLevel.push_or hlo (by omega) (Bool.toNat_lt bit) _⟩

/-- The state that has read the last part of a bit moves on with what it has stored. -/
theorem advance_stored (hstate : s.state = (4 * k + 5 : ℕ)) (hk : k < 36)
    (h : s.receivedCode.Fits (k + 1)) : Keeps Decoder.Fits Code.InRange (advance s) := by
  refine advance_keeps (by omega) (by omega) h.inRange ?_
  intro l hl
  have hlast : (l - 1) / 4 = k + 1 := by omega
  rw [hlast]
  exact h

theorem storeBit_keeps {store : Bool → Code → Code} (hstate : s.state = (4 * k + 5 : ℕ))
    (hk : k < 36) (hc : s.receivedCode.InRange)
    (hstore : ∀ bit, (store bit s.receivedCode).Fits (k + 1)) :
    Keeps Decoder.Fits Code.InRange (storeBit store s) := by
  unfold storeBit
  split
  · exact advance_stored hstate hk (hstore false)
  · exact advance_stored hstate hk (hstore true)
  · exact Keeps.silent (fits_of_nonpos (by simp [Decoder.reset]) (by simp [Decoder.reset]) hc)

theorem storeSwitch_keeps (hstate : s.state = (4 * k + 5 : ℕ)) (hk : k < 36)
    (h : s.receivedCode.Fits (k + 1)) : Keeps Decoder.Fits Code.InRange (storeSwitch s) := by
  have hstored : ∀ t, (storeSwitchType t s.receivedCode).Fits (k + 1) :=
    fun _ => ⟨h.address, h.unit, h.dimLevel⟩
  unfold storeSwitch
  split
  · exact advance_stored hstate hk (hstored .off)
  · exact advance_stored hstate hk (hstored .on)
  · exact advance_stored hstate hk (hstored .dim)
  · exact Keeps.silent
      (fits_of_nonpos (by simp [Decoder.reset]) (by simp [Decoder.reset]) h.inRange)

/-- The bit is stored in every fourth state of a frame only, and never in a negative one. -/
theorem state_of_last_part (h : Int.tmod s.state 4 = 1) (h1 : s.state ≠ 1) :
    ∃ k : ℕ, s.state = (4 * k + 5 : ℕ) := by
  have hpos : 0 ≤ s.state := by
    by_contra hneg
    have hnonneg : 0 ≤ Int.tmod (-s.state) 4 := Int.tmod_nonneg 4 (by omega)
    rw [Int.neg_tmod] at hnonneg
    omega
  rw [Int.tmod_eq_emod_of_nonneg hpos] at h
  refine ⟨((s.state - 5) / 4).toNat, ?_⟩
  omega

/-- Any other state moves on with the code as it is. -/
theorem Decoder.Fits.advance (h : s.Fits) (h0 : s.state ≠ 0) (rb : BitVec 8) :
    Keeps Decoder.Fits Code.InRange (advance { s with receivedBit := rb }) := by
  refine advance_keeps h.lo h.hi h.inRange ?_
  intro k hk
  have hk' : s.state = (k - 1 + 1 : ℕ) := by
    have hstate : s.state = k := hk
    omega
  exact (h.bits (k - 1) hk').mono (Nat.div_le_div_right (Nat.sub_le _ 1))

theorem decodeBit_keeps (h : s.Fits) (h0 : s.state ≠ 0) (h1 : s.state ≠ 1) (rb : BitVec 8) :
    Keeps Decoder.Fits Code.InRange (decodeBit { s with receivedBit := rb }) := by
  unfold decodeBit
  simp only
  split
  · next hlast =>
    rcases state_of_last_part hlast h1 with ⟨k, hk⟩
    have hfits : s.receivedCode.Fits k := by
      have hbits := h.bits (4 * k + 4) hk
      have hread : (4 * k + 4 - 1) / 4 = k := by omega
      rwa [hread] at hbits
    have hnext := hfits.mono (Nat.le_succ k)
    split
    · have hk26 : k < 26 := by omega
      exact storeBit_keeps hk (by omega) (hfits.shiftAddress hk26).inRange
        (hfits.storeAddress hk26)
    · split
      · exact storeBit_keeps hk (by omega) h.inRange
          fun _ => ⟨hnext.address, hnext.unit, hnext.dimLevel⟩
      · split
        · exact storeSwitch_keeps hk (by omega) hnext
        · split
          · have hlo : 28 ≤ k := by omega
            have hhi : k < 32 := by omega
            exact storeBit_keeps hk (by omega) (hfits.shiftUnit hlo hhi).inRange
              (hfits.storeUnit hlo hhi)
          · split
            · have hlo : 32 ≤ k := by omega
              have hhi : k < 36 := by omega
              exact storeBit_keeps hk hhi (hfits.shiftDimLevel hlo hhi).inRange
                (hfits.storeDimLevel hlo hhi)
            · exact h.advance h0 rb
  · exact h.advance h0 rb

theorem complete_keeps (h : s.receivedCode.InRange) :
    Keeps Decoder.Fits Code.InRange (complete s) := by
  have hcode : (if s.state = 147 then { s.receivedCode with dimLevelPresent := true }
      else s.receivedCode).InRange := by
    split
    · exact h
    · exact h
  have hstate : ∀ reached : Bool, -32768 ≤ (if reached then (-1 : ℤ) else 0) ∧
      (if reached then (-1 : ℤ) else 0) ≤ 0 := by decide
  unfold complete
  exact Keeps.complete (fits_of_nonpos (hstate _).1 (hstate _).2 hcode) hcode

theorem decode_keeps (s : Decoder) (duration : ℕ) (h : s.Fits) :
    Keeps Decoder.Fits Code.InRange (decode b s duration) := by
  have hreset : ∀ rb, Keeps Decoder.Fits Code.InRange
      ({ s.reset with receivedBit := rb }, (none : Option (Completion Code))) := fun rb =>
    Keeps.silent (fits_of_nonpos (by simp [Decoder.reset]) (by simp [Decoder.reset]) h.inRange)
  unfold decode
  split
  · next hidle =>
    split
    · refine advance_keeps h.lo h.hi h.inRange ?_
      intro k hk
      have hstate : s.state = k := hk
      omega
    · exact Keeps.silent h
  · split
    · next hzero =>
      -- the fields are cleared before the first bit
      have hclear : (cleanUp s.receivedCode).Fits 0 :=
        ⟨fits_zero Nat.two_pos, fits_zero Nat.two_pos, fits_zero Nat.two_pos⟩
      split
      · exact hreset s.receivedBit
      · exact advance_keeps h.lo h.hi hclear.inRange fun k _ => hclear.mono (Nat.zero_le _)
    · next h0 =>
      split
      · split
        · exact hreset s.receivedBit
        · exact h.advance h0 s.receivedBit
      · next h1 =>
        split
        · unfold decodePart
          split
          · exact decodeBit_keeps h h0 h1 _
          · split
            · exact decodeBit_keeps h h0 h1 _
            · split
              · exact complete_keeps h.inRange
              · exact hreset _
        · exact h.advance h0 s.receivedBit

theorem callbacks_inRange (b : Board) (m : ℕ) (edge0 edge2 : ULong) (times : List ℕ) :
    ∀ c ∈ callbacks (Mealy.events (interruptHandler b) (init m edge0 edge2) times),
      c.InRange := by
  have hclear : noCode.Fits 0 :=
    ⟨fits_zero Nat.two_pos, fits_zero Nat.two_pos, fits_zero Nat.two_pos⟩
  have hidle : (init m edge0 edge2).decoder.state = -1 := rfl
  rw [interruptHandler, Filtered.events_eq]
  exact callbacks_forall decode_keeps (fits_of_nonpos (by omega) (by omega) hclear.inRange) _

end Kaku

/-! ## WT440 -/

namespace Wt440

/-- Each field is no more than its type holds: bytes, and an `int16_t`. -/
structure Code.Typed (c : Code) : Prop where
  address : c.address < 2 ^ 8
  channel : c.channel < 2 ^ 8
  temperature : |c.temperature| ≤ 2 ^ 15
  humidity : c.humidity < 2 ^ 8

variable {s : Decoder} {c : Code}

theorem typed_storeAddress (bit : Bool) (h : c.Typed) : (storeAddress bit c).Typed :=
  ⟨Nat.mod_lt _ (by decide), h.channel, h.temperature, h.humidity⟩

theorem typed_storeChannel (bit : Bool) (h : c.Typed) : (storeChannel bit c).Typed :=
  ⟨h.address, Nat.mod_lt _ (by decide), h.temperature, h.humidity⟩

theorem typed_storeHumidity (bit : Bool) (h : c.Typed) : (storeHumidity bit c).Typed :=
  ⟨h.address, h.channel, h.temperature, Nat.mod_lt _ (by decide)⟩

theorem typed_storeTemperature (bit : Bool) (h : c.Typed) :
    (storeTemperature bit c).Typed := by
  refine ⟨h.address, h.channel, abs_le.2 ⟨?_, ?_⟩, h.humidity⟩
  · exact Int.le_bmod (x := c.temperature * 2 + bit.toNat) (m := 65536) (by decide)
  · have hlt := Int.bmod_lt (x := c.temperature * 2 + bit.toNat) (m := 65536) (by decide)
    exact le_of_lt hlt

theorem advance_keeps (h : s.receivedCode.Typed) :
    Keeps (fun s => s.receivedCode.Typed) Code.Typed (advance s) := by
  unfold advance close
  split
  · exact Keeps.complete h h
  · exact Keeps.silent h

theorem decodeAddress_keeps (duration : ℕ) (h : s.receivedCode.Typed) :
    Keeps (fun s => s.receivedCode.Typed) Code.Typed (decodeAddress s duration) := by
  unfold decodeAddress
  split
  · exact advance_keeps (typed_storeAddress false h)
  · split
    · exact advance_keeps (typed_storeAddress true h)
    · exact advance_keeps h

theorem decodeField_keeps {store : Bool → Code → Code} (duration : ℕ)
    (hstore : ∀ bit c, c.Typed → (store bit c).Typed) (h : s.receivedCode.Typed) :
    Keeps (fun s => s.receivedCode.Typed) Code.Typed (decodeField store s duration) := by
  have hbody : ∀ s' : Decoder, s'.receivedCode = s.receivedCode →
      Keeps (fun s => s.receivedCode.Typed) Code.Typed
        (if s'.state % 2 = 1 then
          advance { s' with receivedCode := store s'.receivedBit s'.receivedCode }
        else advance s') := by
    intro s' hs'
    rw [← hs'] at h
    split
    · exact advance_keeps (hstore _ _ h)
    · exact advance_keeps h
  refine hbody _ ?_
  split <;> rfl

theorem decodeState_keeps (duration : ℕ) (h : s.receivedCode.Typed) :
    Keeps (fun s => s.receivedCode.Typed) Code.Typed (decodeState s duration) := by
  unfold decodeState
  split
  · split
    · exact Keeps.silent h
    · split
      · exact advance_keeps ⟨h.address, h.channel, h.temperature, h.humidity⟩
      · exact advance_keeps h
  · split
    · split
      · exact Keeps.silent h
      · exact advance_keeps ⟨h.address, h.channel, h.temperature, h.humidity⟩
    · split
      · exact decodeAddress_keeps duration h
      · split
        · exact decodeField_keeps duration (fun bit c => typed_storeChannel bit) h
        · split
          · exact decodeField_keeps duration
              (fun bit c h => ⟨h.address, h.channel, h.temperature, h.humidity⟩) h
          · split
            · exact decodeField_keeps duration (fun bit c => typed_storeHumidity bit) h
            · split
              · exact decodeField_keeps duration (fun bit c => typed_storeTemperature bit) h
              · split
                · exact decodeField_keeps duration
                    (fun bit c h => ⟨h.address, h.channel, h.temperature, h.humidity⟩) h
                · exact Keeps.silent h

theorem typed_emptyCode : emptyCode.Typed := ⟨by decide, by decide, by decide, by decide⟩

theorem decode_keeps (s : Decoder) (gap : ℕ) (h : s.receivedCode.Typed) :
    Keeps (fun s => s.receivedCode.Typed) Code.Typed (decode s gap) := by
  unfold decode
  split
  · exact Keeps.silent h
  · split
    · exact Keeps.silent h
    · dsimp only
      split
      · exact Keeps.silent h
      · split
        · split
          · exact advance_keeps (typed_emptyCode)
          · exact Keeps.silent h
        · exact decodeState_keeps _ h

theorem callbacks_typed (m : ℕ) (edge2 : ULong) (times : List ℕ) :
    ∀ c ∈ callbacks (Mealy.events interruptHandler (init m edge2) times), c.Typed := by
  have hempty : { emptyCode with sync := 0 }.Typed := ⟨by decide, by decide, by decide, by decide⟩
  rw [interruptHandler, Sampled.events_eq rfl]
  exact callbacks_forall decode_keeps hempty _

end Wt440

/-! ## The six receivers -/

/-- Whatever the edges are, a code that reaches the callback is in range. -/
theorem callbacks_in_range (b : Board) (m : ℕ) (edge0 edge2 : ULong) (times : List ℕ) :
    (∀ c ∈ callbacks (Mealy.events (Kaku.interruptHandler b) (Kaku.init m edge0 edge2) times),
      c.address < 2 ^ 26 ∧ c.unit < 16 ∧ c.dimLevel < 16) ∧
    (∀ r ∈ callbacks (Mealy.events (Remote.interruptHandler b) (Remote.init m edge0 edge2) times),
      r.code < 3 ^ 12) ∧
    (∀ c ∈ callbacks (Mealy.events (Livolo.interruptHandler b) (Livolo.init m edge2) times),
      c.address < 2 ^ 16 ∧ c.unit < 2 ^ 7) ∧
    (∀ c ∈ callbacks (Mealy.events (Kopou.interruptHandler b) (Kopou.init m edge2) times),
      c.address < 2 ^ 16 ∧ c.unit < 2 ^ 8) ∧
    (∀ c ∈ callbacks (Mealy.events (Quhwa.interruptHandler b) (Quhwa.init m edge2) times),
      c.address < 2 ^ 27 ∧ c.unit < 2 ^ 8) ∧
    (∀ c ∈ callbacks (Mealy.events (Auriol.interruptHandler b) (Auriol.init m edge2) times),
      c.address < 2 ^ 8 ∧ c.n1 < 16 ∧ 0 ≤ c.temperature ∧ c.temperature < 2 ^ 12 ∧
        c.n2 < 2 ^ 7 ∧ c.csum < 2) :=
  ⟨Kaku.callbacks_inRange b m edge0 edge2 times, Remote.callbacks_inRange b m edge0 edge2 times,
    Livolo.callbacks_inRange b m edge2 times, Kopou.callbacks_inRange b m edge2 times,
    Quhwa.callbacks_inRange b m edge2 times, Auriol.callbacks_inRange b m edge2 times⟩

end LamPI
