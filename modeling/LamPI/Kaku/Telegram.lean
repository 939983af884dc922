import LamPI.Kaku.Frame

/-!
# KlikAanKlikUit telegrams

The bits of a frame and its content determine each other, and a decoder at the start of a
well-formed frame delivers the content, with one exception: `dimLevelPresent` stays set.
-/

namespace LamPI
namespace Kaku

open BigEndian

variable {b : Board} {q d : ℕ} {s : Decoder} {c : Code} {ys : List Symbol} {ps : List Bool}

/-! ## From the content to the code -/

/-- `dimLevel` of a frame; without dim bits it is 0. -/
def dimValue : Option (Fin 16) → ℕ
  | none => 0
  | some d => d

def delivered (c : Code) (y : Telegram) : Code :=
  { period := c.period
    address := y.address
    groupBit := y.groupBit
    switchType := y.switchType
    unit := y.unit
    dimLevelPresent := c.dimLevelPresent || y.dim.isSome
    dimLevel := dimValue y.dim }

/-- Shifting and setting the lowest bit of a register of `2 ^ (w + 1)` values. -/
theorem shift_or (w n : ℕ) (bit : Bool) :
    n * 2 % 2 ^ (w + 1) ||| bit.toNat = (n * 2 + bit.toNat) % 2 ^ (w + 1) := by
  have hbit : bit.toNat < 2 ^ 1 := Bool.toNat_lt bit
  have hshift : n * 2 % 2 ^ (w + 1) = 2 ^ 1 * (n % 2 ^ w) := by
    rw [pow_succ, Nat.mul_mod_mul_right]
    ring
  have hlt : 2 ^ 1 * (n % 2 ^ w) + bit.toNat < 2 ^ (w + 1) := by
    have hmod : n % 2 ^ w < 2 ^ w := Nat.mod_lt _ (Nat.two_pow_pos w)
    rw [pow_succ]
    omega
  calc n * 2 % 2 ^ (w + 1) ||| bit.toNat
      = 2 ^ 1 * (n % 2 ^ w) + bit.toNat := by
        rw [hshift, ← Nat.two_pow_add_eq_or_of_lt hbit]
    _ = (2 ^ 1 * (n % 2 ^ w) + bit.toNat) % 2 ^ (w + 1) := (Nat.mod_eq_of_lt hlt).symm
    _ = (n * 2 + bit.toNat) % 2 ^ (w + 1) := by
        rw [← hshift, Nat.mod_add_mod]

theorem foldl_address (bs : List Bool) (c : Code) :
    bs.foldl (fun c bit => storeAddress bit (shiftAddress c)) c =
      { c with address := bs.foldl (fun a bit => (a * 2 + bit.toNat) % 2 ^ 32) c.address } := by
  refine List.foldl_hom (fun a => { c with address := a }) fun a bit => ?_
  rw [← shift_or 31]
  rfl

theorem foldl_unit (bs : List Bool) (c : Code) :
    bs.foldl (fun c bit => storeUnit bit (shiftUnit c)) c =
      { c with unit := bs.foldl (fun a bit => (a * 2 + bit.toNat) % 2 ^ 8) c.unit } := by
  refine List.foldl_hom (fun a => { c with unit := a }) fun a bit => ?_
  rw [← shift_or 7]
  rfl

theorem foldl_dimLevel (bs : List Bool) (c : Code) :
    bs.foldl (fun c bit => storeDimLevel bit (shiftDimLevel c)) c =
      { c with dimLevel := bs.foldl (fun a bit => (a * 2 + bit.toNat) % 2 ^ 8) c.dimLevel } := by
  refine List.foldl_hom (fun a => { c with dimLevel := a }) fun a bit => ?_
  rw [← shift_or 7]
  rfl

/-- Bits whose places belong to one field. -/
theorem foldlIdx_field {k : ℕ} {g : Code → Bool → Code} {bs : List Bool} {c : Code}
    (h : ∀ j, k ≤ j → j < k + bs.length → ∀ c y, push j c y = g c y.isOne) :
    (bs.map Symbol.ofBool).foldlIdx push c k = bs.foldl g c := by
  rw [foldlIdx_of_range (g := fun c y => g c y.isOne), List.foldl_map]
  · simp only [isOne_ofBool]
  · intro j hj hj'
    rw [List.length_map] at hj'
    funext c y
    exact h j hj hj' c y

theorem length_symbols (y : Telegram) :
    y.symbols.length = 32 ∧ y.dim = none ∨ y.symbols.length = 36 ∧ y.dim.isSome = true := by
  unfold Telegram.symbols
  cases y.dim with
  | none => exact Or.inl ⟨by simp [dimBits], rfl⟩
  | some d => exact Or.inr ⟨by simp [dimBits], rfl⟩

/-- The code after the bits of a telegram. -/
theorem readCode_symbols (c : Code) (y : Telegram) :
    readCode (cleanUp c) y.symbols =
      { c with
        address := y.address, groupBit := y.groupBit, switchType := y.switchType,
        unit := y.unit, dimLevel := dimValue y.dim } := by
  -- each field is pushed by its own branch, on what the ones before have left
  have haddress : ∀ c : Code, c.address = 0 →
      ((bits 26 y.address).map Symbol.ofBool).foldlIdx push c 0 =
        { c with address := y.address } := by
    intro c hc
    rw [foldlIdx_field (g := fun c bit => storeAddress bit (shiftAddress c)), foldl_address, hc,
      foldl_bits_mod (by rw [length_bits]; decide), ofBits_bits_of_lt y.address.isLt]
    intro j _ hj c x
    rw [length_bits] at hj
    rw [push, if_pos (by omega)]
  have hunit : ∀ c : Code, c.unit = 0 →
      ((bits 4 y.unit).map Symbol.ofBool).foldlIdx push c 28 = { c with unit := y.unit } := by
    intro c hc
    rw [foldlIdx_field (g := fun c bit => storeUnit bit (shiftUnit c)), foldl_unit, hc,
      foldl_bits_mod (by rw [length_bits]; decide), ofBits_bits_of_lt y.unit.isLt]
    intro j hj hj' c x
    rw [length_bits] at hj'
    rw [push, if_neg (by omega), if_neg (by omega), if_neg (by omega), if_pos (by omega)]
  have hdim : ∀ c : Code, c.dimLevel = 0 →
      ((dimBits y.dim).map Symbol.ofBool).foldlIdx push c 32 =
        { c with dimLevel := dimValue y.dim } := by
    intro c hc
    rw [foldlIdx_field (g := fun c bit => storeDimLevel bit (shiftDimLevel c)), foldl_dimLevel, hc]
    · cases y.dim with
      | none => rfl
      | some d =>
          rw [dimBits, foldl_bits_mod (by rw [length_bits]; decide),
            ofBits_bits_of_lt d.isLt, dimValue]
    · intro j hj _ c x
      rw [push, if_neg (by omega), if_neg (by omega), if_neg (by omega), if_neg (by omega)]
  -- the fields in their order
  rw [readCode, Telegram.symbols, List.map_append, List.map_append, foldlIdx_append,
    foldlIdx_append, haddress _ rfl]
  simp only [List.map_cons, List.map_nil, List.foldlIdx_cons, List.foldlIdx_nil,
    List.length_append, List.length_map, length_bits, List.length_cons, List.length_nil,
    foldlIdx_append]
  rw [hunit _ rfl, hdim _ rfl]
  simp [push, storeGroupBit, storeSwitchType, cleanUp]

/-- The code of a complete frame. -/
theorem frameCode_symbols (c : Code) (y : Telegram) :
    frameCode c y.symbols = delivered c y := by
  rw [frameCode, readCode_symbols]
  rcases length_symbols y with ⟨hlen, hdim⟩ | ⟨hlen, hdim⟩
  · rw [if_neg (by omega), delivered, hdim]
    simp
  · rw [if_pos hlen, delivered, hdim]
    simp

/-! ## From the bits to the content -/

theorem map_ofBool_isOne {l : List Symbol} (h : ∀ y ∈ l, y ≠ .dim) :
    (l.map Symbol.isOne).map Symbol.ofBool = l := by
  induction l with
  | nil => rfl
  | cons y l ih =>
      have hy : Symbol.ofBool y.isOne = y := by
        cases y with
        | zero => rfl
        | one => rfl
        | dim => exact absurd rfl (h .dim (by simp))
      rw [List.map_cons, List.map_cons, hy, ih (fun x hx => h x (by simp [hx]))]

theorem bits_ofBits_of_length {n : ℕ} {bs : List Bool} (h : bs.length = n) :
    bits n (ofBits bs) = bs := by
  rw [← h]
  exact bits_ofBits bs

/-- The bits of a frame: address, group, switch type, unit and, perhaps, dim level. -/
theorem exists_fields (hlen : ys.length = 32 ∨ ys.length = 36) :
    ∃ (as : List Symbol) (g w : Symbol) (us ds : List Symbol),
      ys = (as ++ [g]) ++ (w :: (us ++ ds)) ∧ as.length = 26 ∧ us.length = 4 ∧
        (ds.length = 0 ∨ ds.length = 4) := by
  -- behind the 26 symbols of the address there are the group bit and the switch type
  rcases hrest : ys.drop 26 with _ | ⟨g, _ | ⟨w, rest⟩⟩
  · have hzero := congrArg List.length hrest
    rw [List.length_drop, List.length_nil] at hzero
    omega
  · have hone := congrArg List.length hrest
    rw [List.length_drop, List.length_singleton] at hone
    omega
  · have hcount := congrArg List.length hrest
    rw [List.length_drop, List.length_cons, List.length_cons] at hcount
    refine ⟨ys.take 26, g, w, rest.take 4, rest.drop 4, ?_, ?_, ?_, ?_⟩
    · rw [List.take_append_drop, List.append_assoc, List.singleton_append, ← hrest,
        List.take_append_drop]
    · rw [List.length_take]
      omega
    · rw [List.length_take]
      omega
    · rw [List.length_drop]
      omega

/-- A stretch of bits in places that admit them, and not in that of the switch type. -/
theorem ne_dim_of_allowed (hallowed : ∀ i, ∀ h : i < ys.length, Allowed i ys[i])
    (pre l post : List Symbol) (hsplit : ys = pre ++ (l ++ post))
    (hplace : 27 < pre.length ∨ pre.length + l.length ≤ 27) : ∀ y ∈ l, y ≠ .dim := by
  intro y hy hdim
  rcases List.append_of_mem hy with ⟨u, v, rfl⟩
  have hys : ys = (pre ++ u) ++ y :: (v ++ post) := by
    rw [hsplit]
    simp
  have hlt : (pre ++ u).length < ys.length := by
    rw [hys]
    simp
  have hallow : Allowed (pre ++ u).length y := by
    have hget := hallowed (pre ++ u).length hlt
    simpa [hys] using hget
  have hswitch : (pre ++ u).length = 27 := hallow hdim
  rw [List.length_append] at hswitch
  rw [List.length_append, List.length_cons] at hplace
  omega

theorem ofBits_isOne_lt {l : List Symbol} {n : ℕ} (hl : l.length = n) :
    ofBits (l.map Symbol.isOne) < 2 ^ n := by
  rw [← hl, ← List.length_map (f := Symbol.isOne)]
  exact ofBits_lt _

theorem exists_dim {ds : List Symbol} (hds : ds.length = 0 ∨ ds.length = 4) :
    ∃ dim : Option (Fin 16), dimBits dim = ds.map Symbol.isOne := by
  rcases hds with hds | hds
  · refine ⟨none, ?_⟩
    rw [List.eq_nil_of_length_eq_zero hds]
    rfl
  · exact ⟨some ⟨_, ofBits_isOne_lt hds⟩, bits_ofBits_of_length (by rw [List.length_map, hds])⟩

/-- 32 or 36 bits in places that admit them are the bits of a telegram. -/
theorem exists_telegram (hallowed : ∀ i, ∀ h : i < ys.length, Allowed i ys[i])
    (hlen : ys.length = 32 ∨ ys.length = 36) : ∃ y : Telegram, y.symbols = ys := by
  rcases exists_fields hlen with ⟨as, g, w, us, ds, rfl, has, hus, hds⟩
  -- only the place of `w` admits a bit that is no digit
  have hleft : ∀ y ∈ as ++ [g], y ≠ .dim := by
    refine ne_dim_of_allowed hallowed [] _ _ rfl (Or.inr ?_)
    rw [List.length_append, has]
    exact le_rfl
  have hright : ∀ y ∈ us ++ ds, y ≠ .dim := by
    refine ne_dim_of_allowed hallowed (as ++ [g] ++ [w]) _ [] (by simp) (Or.inl ?_)
    simp [has]
  rcases exists_dim hds with ⟨dim, hdim⟩
  have haddress : bits 26 (ofBits (as.map Symbol.isOne)) = as.map Symbol.isOne :=
    bits_ofBits_of_length (by rw [List.length_map, has])
  have hunit : bits 4 (ofBits (us.map Symbol.isOne)) = us.map Symbol.isOne :=
    bits_ofBits_of_length (by rw [List.length_map, hus])
  have hjoin : as.map Symbol.isOne ++ [g.isOne] = (as ++ [g]).map Symbol.isOne := by simp
  refine ⟨⟨⟨_, ofBits_isOne_lt has⟩, g.isOne, w.switchType, ⟨_, ofBits_isOne_lt hus⟩, dim⟩, ?_⟩
  rw [Telegram.symbols]
  simp only [haddress, hunit, hdim, symbol_switchType]
  rw [← List.map_append (f := Symbol.isOne), map_ofBool_isOne hright, hjoin,
    map_ofBool_isOne hleft]

/-! ## Reading a frame -/

/-- The places of a telegram admit its bits. -/
theorem allowed_symbols (y : Telegram) (i : ℕ) (h : i < y.symbols.length) :
    Allowed i y.symbols[i] := by
  intro hdim
  have hbit : ∀ bit, Symbol.ofBool bit ≠ .dim := by decide
  have hget : y.symbols[i]? = some .dim := by rw [List.getElem?_eq_getElem h, hdim]
  have hleft : ((bits 26 y.address ++ [y.groupBit]).map Symbol.ofBool).length = 27 := by simp
  rw [Telegram.symbols] at hget
  by_cases hlt : i < 27
  · rw [List.getElem?_append_left (by rw [hleft]; exact hlt), List.getElem?_map] at hget
    rcases Option.map_eq_some_iff.1 hget with ⟨bit, -, heq⟩
    exact absurd heq (hbit bit)
  · rw [List.getElem?_append_right (by rw [hleft]; omega), hleft] at hget
    cases hrest : i - 27 with
    | zero => omega
    | succ k =>
        rw [hrest, List.getElem?_cons_succ, List.getElem?_map] at hget
        rcases Option.map_eq_some_iff.1 hget with ⟨bit, -, heq⟩
        exact absurd heq (hbit bit)

/-- The decoder reads a frame bit by bit, and a bit part by part. -/
theorem decode_readsParts (b : Board) (q : ℕ) (c : Code) (f : RepeatFilter Code) :
    Mealy.ReadsParts (decode b) parts (fun p d => Band b q (part p) d) Allowed
      (fun ys ps s => s.Reading b q c ys ps ∧ s.filter = f) 4 36 := by
  refine ⟨length_parts, fun _ _ _ h => h.1.parts, ?_, ?_⟩
  · rintro ys ps s p d ⟨h, hf⟩ hys hps hd
    have hstate := h.state
    rcases decode_part_more h (by omega) (by omega) hd with ⟨s', hdecode, hreading, hfilter⟩
    rw [hdecode]
    exact ⟨⟨hreading, hfilter.trans hf⟩, rfl⟩
  · rintro ys ps s p d y ⟨h, hf⟩ - hy hallowed hd
    rcases decode_part_last h hy hallowed hd with ⟨s', hdecode, hreading, hfilter⟩
    rw [hdecode]
    exact ⟨⟨hreading, hfilter.trans hf⟩, rfl⟩

def counted (c : Code) (f : RepeatFilter Code) (y : Telegram) : RepeatFilter Code :=
  f.count sameCode (delivered c y)

/-- The decoder reads a telegram up to its last bit without an event. -/
theorem run_symbols {y : Telegram} {w : List ℕ} (h : s.AtStart b q)
    (hw : List.Forall₂ (Band b q) ([.short, .start] ++ (y.symbols.flatMap parts).map part) w) :
    (Mealy.final (decode b) s w).Reading b q s.receivedCode y.symbols [] ∧
      Mealy.events (decode b) s w = [] ∧ (Mealy.final (decode b) s w).filter = s.filter := by
  rcases forall₂_append_left hw with ⟨w₁, w₂, rfl, hstart, hsymbols⟩
  rcases hstart with _ | ⟨hpulse, hgap⟩
  rcases hgap with _ | ⟨hgap, hnil⟩
  cases hnil
  -- the two intervals of the start pulse
  rcases (decode_startPulse h).1 hpulse with ⟨s₁, e₁, hin, hfilter₁⟩
  rcases (decode_startGap hin).1 hgap with ⟨s₂, e₂, hreading, hfilter₂⟩
  -- then the parts of the symbols, by induction on these
  have hlen : y.symbols.length ≤ 36 := by
    rcases length_symbols y with ⟨hlen, -⟩ | ⟨hlen, -⟩ <;> omega
  have hallowed : ∀ k, ∀ hk : k < y.symbols.length, Allowed (([] : List Symbol).length + k)
      y.symbols[k] := by
    intro k hk
    rw [List.length_nil, Nat.zero_add]
    exact allowed_symbols y k hk
  rcases (decode_readsParts b q s.receivedCode s₂.filter).run ⟨hreading, rfl⟩ hallowed
    (by simpa using hlen) (List.nil_append _) (List.forall₂_map_left_iff.1 hsymbols) with
    ⟨⟨hread, hfilter⟩, hquiet⟩
  rw [Mealy.final_append, Mealy.events_append, Mealy.final_cons, Mealy.events_cons, e₁,
    Mealy.final_cons, Mealy.events_cons, e₂]
  exact ⟨hread, hquiet, hfilter.trans (hfilter₂.trans hfilter₁)⟩

/-- A well-formed frame is completed. -/
theorem run_frame {y : Telegram} {f : List ℕ} (h : s.AtStart b q) (hf : IsFrame b q y f) :
    (Mealy.final (decode b) s f).Between b q (delivered s.receivedCode y)
        (counted s.receivedCode s.filter y) ∧
      Mealy.events (decode b) s f =
        [(counted s.receivedCode s.filter y).completion (delivered s.receivedCode y)] := by
  rw [IsFrame, layout, ← List.append_assoc] at hf
  rcases forall₂_append_left hf with ⟨w, stop, rfl, hw, hstop⟩
  rcases hstop with _ | ⟨hpulse, hgap⟩
  rcases hgap with _ | ⟨hgap, hnil⟩
  cases hnil
  rcases run_symbols h hw with ⟨hreading, hquiet, hfilter⟩
  have hcount : y.symbols.length = 32 ∨ y.symbols.length = 36 := by
    rcases length_symbols y with ⟨hlen, -⟩ | ⟨hlen, -⟩
    · exact Or.inl hlen
    · exact Or.inr hlen
  -- the stop pulse is one part more
  have hmore : (Mealy.final (decode b) s w).state ≠ 147 := by
    rw [hreading.state, List.length_nil]
    omega
  rcases decode_part_more (p := false) hreading (by decide) hmore hpulse with
    ⟨s₁, e₁, hstopping, hfilter₁⟩
  rcases decode_stop hstopping hcount hgap with ⟨s₂, e₂, hbetween⟩
  rw [hfilter₁, hfilter, frameCode_symbols] at e₂ hbetween
  rw [Mealy.final_append, Mealy.events_append, hquiet, Mealy.final_cons, Mealy.events_cons, e₁,
    Mealy.final_cons, Mealy.events_cons, e₂]
  exact ⟨hbetween, rfl⟩

end Kaku
end LamPI
