import LamPI.Auriol.Receiver

/-!
# Auriol bands

The handler lets a space of 3800 µs pass as a long one, and then reads it as a short one.  Every
other width in the two bands is read as the bit of its band.
-/

namespace LamPI
namespace Auriol

open BigEndian

/-! ## Bits by band -/

/-- The intervals that the width checks admit for a bit. -/
inductive Band (b : Board) : Bool → List ℕ → Prop
  | zero {p d : ℕ} (hp : Pulse b p) (hlo : min1period ≤ b.uint d) (hhi : b.uint d ≤ max1period) :
      Band b false [p, d]
  | one {p d : ℕ} (hp : Pulse b p) (hlo : min2period ≤ b.uint d) (hhi : b.uint d ≤ max2period) :
      Band b true [p, d]

def bandCode (bs : List Bool) : Code :=
  { address := ofBits (bs.take 8)
    temperature := ofBits ((bs.drop 12).take 12)
    humidity := 0
    channel := 0
    n1 := ofBits ((bs.drop 8).take 4)
    n2 := ofBits ((bs.drop 24).take 7)
    csum := (parity bs).toNat }

variable {b : Board} {bs : List Bool} {ws : List (List ℕ)}

/-- The decoder reads the bit of the band unless the width is 3800 µs. -/
theorem Band.word {bit : Bool} {w : List ℕ} (hw : Band b bit w) :
    ∃ bit', Word b bit' w ∧ (bit' = bit ↔ ∀ d ∈ w, b.uint d ≠ min2period) := by
  have hpulse : ∀ {p : ℕ}, Pulse b p → b.uint p ≠ min2period := fun hp heq => by
    have hmax := hp.2
    rw [heq] at hmax
    exact absurd hmax (by decide)
  cases hw with
  | @zero p d hp hlo hhi =>
      -- the whole band of a 0 is below the threshold
      have hspace : Space b d :=
        ⟨hlo, hhi.trans (by decide), fun h => absurd hhi (Nat.not_le.2 h.1)⟩
      have hlt : b.uint d < min2period := hhi.trans_lt (by decide)
      have hbit : bitOf b d = false := decide_eq_false (Nat.not_lt.2 hlt.le)
      refine ⟨bitOf b d, Word.bit hp hspace, iff_of_true hbit ?_⟩
      simp only [List.mem_cons, List.not_mem_nil, or_false]
      rintro x (rfl | rfl)
      · exact hpulse hp
      · exact hlt.ne
  | @one p d hp hlo hhi =>
      -- that of a 1 begins at it, and only what is above it is read as a 1
      have hspace : Space b d :=
        ⟨hlo.trans' (by decide), hhi, fun h => absurd hlo (Nat.not_le.2 h.2)⟩
      have hbit : bitOf b d = true ↔ b.uint d ≠ min2period := by
        rw [bitOf, decide_eq_true_iff]
        omega
      refine ⟨bitOf b d, Word.bit hp hspace, hbit.trans ?_⟩
      simp [hpulse hp]

theorem exists_words_of_bands (hws : List.Forall₂ (Band b) bs ws) :
    ∃ bs', List.Forall₂ (Word b) bs' ws ∧ bs'.length = bs.length ∧
      (bs' = bs ↔ ∀ d ∈ ws.flatten, b.uint d ≠ min2period) := by
  induction hws with
  | nil => exact ⟨[], List.Forall₂.nil, rfl, by simp⟩
  | cons hw _ ih =>
      rcases hw.word with ⟨bit', hword, hbit⟩
      rcases ih with ⟨bs', hwords, hlen, hbits⟩
      refine ⟨bit' :: bs', List.Forall₂.cons hword hwords, by simp [hlen], ?_⟩
      rw [List.cons.injEq, hbit, hbits, List.flatten_cons]
      simp only [List.mem_append, or_imp, forall_and]

/-! ## The fields -/

/-- Storing bits in one field shifts them into its register, and adds them to `csum`. -/
theorem foldl_field {α : Type} {s : Bool → Code → Code} {f : α → Bool → α} (put : α → ℕ → Code)
    (hstore : ∀ x y bit, s bit (put x y) = put (f x bit) (y ^^^ bit.toNat)) (bs : List Bool)
    (x : α) (p : Bool) :
    bs.foldl (fun c bit => s bit c) (put x p.toNat) =
      put (bs.foldl f x) (p ^^ parity bs).toNat := by
  rw [foldl_store (g := fun y bit => y ^^^ bit.toNat) put hstore, foldl_xor_toNat]

/-- Bits that all go into one field. -/
theorem foldlIdx_field {s : Bool → Code → Code} {k n : ℕ} {c : Code} (hlen : bs.length = n)
    (hstore : ∀ j, k ≤ j → j < k + n → store b (2 * j + 1 : ℕ) = s) :
    bs.foldlIdx (pushBit b) c k = bs.foldl (fun c bit => s bit c) c := by
  apply foldlIdx_of_range
  intro j hj hj'
  funext c bit
  rw [pushBit, hstore j hj (by omega)]

/-- The bits of a frame are stored field by field. -/
theorem foldlIdx_fields {as ns ts us : List Bool} {p : Bool} (has : as.length = 8)
    (hns : ns.length = 4) (hts : ts.length = 12) (hus : us.length = 7) :
    (as ++ (ns ++ (ts ++ (us ++ [p])))).foldlIdx (pushBit b) emptyCode =
      { address := ofBits as, temperature := ofBits ts, humidity := 0, channel := 0,
        n1 := ofBits ns, n2 := ofBits us,
        csum := (parity as ^^ parity ns ^^ parity ts ^^ parity us ^^ p).toNat } := by
  -- no register is too small for its bits
  have haddress : as.foldl (fun a bit => (a * 2 + bit.toNat) % 2 ^ 32) 0 = ofBits as :=
    foldl_bits_mod (Nat.pow_le_pow_right (by decide) (by omega))
  have hn1 : ns.foldl (fun a bit => (a * 2 + bit.toNat) % 256) 0 = ofBits ns :=
    foldl_bits_mod (by rw [hns]; decide)
  have htemperature : ts.foldl (fun (a : ℤ) bit => Int.bmod (a * 2 + bit.toNat) (2 ^ b.uintBits)) 0
      = ofBits ts :=
    foldl_bmod (Nat.pow_le_pow_right (by decide) (by rw [hts]; cases b <;> decide))
  have hn2 : us.foldl (fun a bit => (a * 2 + bit.toNat) % 256) 0 = ofBits us :=
    foldl_bits_mod (by rw [hus]; decide)
  have h₁ : as.foldl (fun c bit => storeAddress bit c) emptyCode =
      { emptyCode with address := ofBits as, csum := (parity as).toNat } := by
    have h := foldl_field (s := storeAddress) (f := fun a bit => (a * 2 + bit.toNat) % 2 ^ 32)
      (fun a p => { emptyCode with address := a, csum := p }) (fun _ _ _ => rfl) as 0 false
    rwa [haddress, Bool.false_xor] at h
  have h₂ : ns.foldl (fun c bit => storeN1 bit c)
      { emptyCode with address := ofBits as, csum := (parity as).toNat } =
      { emptyCode with
        address := ofBits as, n1 := ofBits ns, csum := (parity as ^^ parity ns).toNat } := by
    have h := foldl_field (s := storeN1) (f := fun a bit => (a * 2 + bit.toNat) % 256)
      (fun a p => { emptyCode with address := ofBits as, n1 := a, csum := p })
      (fun _ _ _ => rfl) ns 0 (parity as)
    rwa [hn1] at h
  have h₃ : ts.foldl (fun c bit => storeTemperature b bit c)
      { emptyCode with
        address := ofBits as, n1 := ofBits ns, csum := (parity as ^^ parity ns).toNat } =
      { emptyCode with
        address := ofBits as, n1 := ofBits ns, temperature := ofBits ts,
        csum := (parity as ^^ parity ns ^^ parity ts).toNat } := by
    have h := foldl_field (s := storeTemperature b)
      (f := fun (a : ℤ) bit => Int.bmod (a * 2 + bit.toNat) (2 ^ b.uintBits))
      (fun a p => { emptyCode with
        address := ofBits as, n1 := ofBits ns, temperature := a, csum := p })
      (fun _ _ _ => rfl) ts 0 (parity as ^^ parity ns)
    rwa [htemperature] at h
  have h₄ : us.foldl (fun c bit => storeN2 bit c)
      { emptyCode with
        address := ofBits as, n1 := ofBits ns, temperature := ofBits ts,
        csum := (parity as ^^ parity ns ^^ parity ts).toNat } =
      { emptyCode with
        address := ofBits as, n1 := ofBits ns, temperature := ofBits ts, n2 := ofBits us,
        csum := (parity as ^^ parity ns ^^ parity ts ^^ parity us).toNat } := by
    have h := foldl_field (s := storeN2) (f := fun a bit => (a * 2 + bit.toNat) % 256)
      (fun a p => { emptyCode with
        address := ofBits as, n1 := ofBits ns, temperature := ofBits ts, n2 := a, csum := p })
      (fun _ _ _ => rfl) us 0 (parity as ^^ parity ns ^^ parity ts)
    rwa [hn2] at h
  rw [foldlIdx_append, foldlIdx_append, foldlIdx_append, foldlIdx_append,
    foldlIdx_field has (fun j h h' => if_pos (by omega)),
    foldlIdx_field (s := storeN1) hns (fun j h h' => by
      rw [store, if_neg (by omega), if_pos (by omega)]),
    foldlIdx_field (s := storeTemperature b) hts (fun j h h' => by
      rw [store, if_neg (by omega), if_neg (by omega), if_pos (by omega)]),
    foldlIdx_field (s := storeN2) hus (fun j h h' => by
      rw [store, if_neg (by omega), if_neg (by omega), if_neg (by omega), if_pos (by omega)]),
    h₁, h₂, h₃, h₄]
  -- the last bit only goes into the checksum
  have hlast := foldl_xor_toNat (parity as ^^ parity ns ^^ parity ts ^^ parity us) [p]
  rw [parity_cons, parity_nil, Bool.xor_false] at hlast
  rw [← hlast, has, hns, hts, hus]
  rfl

theorem exists_fields (h : bs.length = 32) :
    ∃ as ns ts us p, as.length = 8 ∧ ns.length = 4 ∧ ts.length = 12 ∧ us.length = 7 ∧
      bs = as ++ (ns ++ (ts ++ (us ++ [p]))) := by
  obtain ⟨p, hp⟩ : ∃ p, bs.drop 31 = [p] := List.length_eq_one_iff.1 (by simp [h])
  have hdrop : ∀ m n : ℕ, bs.drop (m + n) = (bs.drop m).drop n := fun m n => by
    rw [List.drop_drop]
  refine ⟨bs.take 8, (bs.drop 8).take 4, (bs.drop 12).take 12, (bs.drop 24).take 7, p,
    by simp [h], by simp [h], by simp [h], by simp [h], ?_⟩
  rw [← hp, hdrop 24 7, List.take_append_drop, hdrop 12 12, List.take_append_drop, hdrop 8 4,
    List.take_append_drop, List.take_append_drop]

theorem bandCode_append {as ns ts us : List Bool} {p : Bool} (has : as.length = 8)
    (hns : ns.length = 4) (hts : ts.length = 12) (hus : us.length = 7) :
    bandCode (as ++ (ns ++ (ts ++ (us ++ [p])))) =
      { address := ofBits as, temperature := ofBits ts, humidity := 0, channel := 0,
        n1 := ofBits ns, n2 := ofBits us,
        csum := (parity as ^^ parity ns ^^ parity ts ^^ parity us ^^ p).toNat } := by
  have htake : ∀ (l r : List Bool) (n : ℕ), l.length = n → (l ++ r).take n = l ∧
      (l ++ r).drop n = r := by
    rintro l r n rfl
    exact ⟨List.take_left, List.drop_left⟩
  have hdrop : ∀ (l : List Bool) (m n : ℕ), l.drop (m + n) = (l.drop m).drop n := fun l m n => by
    rw [List.drop_drop]
  rw [bandCode, hdrop _ 12 12, hdrop _ 8 4, (htake as _ 8 has).1, (htake as _ 8 has).2,
    (htake ns _ 4 hns).1, (htake ns _ 4 hns).2, (htake ts _ 12 hts).1, (htake ts _ 12 hts).2,
    (htake us _ 7 hus).1]
  simp only [parity_append, parity_cons, parity_nil, Bool.xor_false, Bool.xor_assoc]

/-- The code of 32 bits. -/
theorem foldlIdx_pushBit (h : bs.length = 32) :
    bs.foldlIdx (pushBit b) emptyCode = bandCode bs := by
  rcases exists_fields h with ⟨as, ns, ts, us, p, has, hns, hts, hus, rfl⟩
  rw [foldlIdx_fields has hns hts hus, bandCode_append has hns hts hus]

/-- The code determines the bits: the last one by the checksum. -/
theorem bandCode_inj {bs' : List Bool} (h : bs.length = 32) (h' : bs'.length = 32)
    (heq : bandCode bs = bandCode bs') : bs = bs' := by
  rcases exists_fields h with ⟨as, ns, ts, us, p, has, hns, hts, hus, rfl⟩
  rcases exists_fields h' with ⟨as', ns', ts', us', p', has', hns', hts', hus', rfl⟩
  rw [bandCode_append has hns hts hus, bandCode_append has' hns' hts' hus'] at heq
  injection heq with ha ht _ _ hn hu hc
  obtain rfl := ofBits_inj (has.trans has'.symm) ha
  obtain rfl := ofBits_inj (hns.trans hns'.symm) hn
  obtain rfl := ofBits_inj (hts.trans hts'.symm) (Int.ofNat_inj.1 ht)
  obtain rfl := ofBits_inj (hus.trans hus'.symm) hu
  have hp : p = p' := by
    revert hc
    generalize (parity as ^^ parity ns ^^ parity ts ^^ parity us) = q
    cases q <;> cases p <;> cases p' <;> decide
  rw [hp]

/-! ## The frame -/

/-- After an accepted sync gap 32 bits within the bands are read as what they are exactly if none
of the spaces is 3800 µs long. -/
theorem decodes_by_band_iff {s : Decoder} (hs : s.state = 0) (hcode : s.receivedCode = emptyCode)
    (hbs : bs.length = 32) (hws : List.Forall₂ (Band b) bs ws) :
    codes (Mealy.events (decode b) s ws.flatten) = [bandCode bs] ↔
      ∀ d ∈ ws.flatten, b.uint d ≠ 3800 := by
  rcases exists_words_of_bands hws with ⟨bs', hwords, hlen, hbits⟩
  have hframe : InFrame s.filter 0 emptyCode s := ⟨hs, hcode, rfl⟩
  have hlen' : bs'.length = 32 := hlen.trans hbs
  have hevents := (run_payload hframe hlen' hwords).2
  rw [foldlIdx_pushBit hlen'] at hevents
  have hread : codes (Mealy.events (decode b) s ws.flatten) = [bandCode bs'] := by
    rw [hevents]
    rfl
  have hsame : bandCode bs' = bandCode bs ↔ bs' = bs :=
    ⟨bandCode_inj hlen' hbs, fun h => by rw [h]⟩
  rw [hread, List.singleton_inj, hsame]
  exact hbits

/-- 32 ones with spaces of 4000 µs. -/
theorem decodes_by_band_ones :
    codes (Mealy.events (decode .avr) { (init 1 0).decoder with state := 0 }
        (List.replicate 32 [500, 4000]).flatten) = [bandCode (List.replicate 32 true)] ↔
      ∀ d ∈ (List.replicate 32 [500, 4000]).flatten, Board.avr.uint d ≠ 3800 :=
  decodes_by_band_iff rfl rfl rfl
    (Mealy.forall₂_replicate (Band.one ⟨by decide, by decide⟩ (by decide) (by decide)) 32)

/-- With spaces of 3800 µs they are read as zeros. -/
theorem not_decodes_by_band :
    ¬∀ (b : Board) (s : Decoder) (bs : List Bool) (ws : List (List ℕ)), s.state = 0 →
      s.receivedCode = emptyCode → bs.length = 32 → List.Forall₂ (Band b) bs ws →
      codes (Mealy.events (decode b) s ws.flatten) = [bandCode bs] := by
  intro h
  have hcode := h .avr { (init 1 0).decoder with state := 0 } (List.replicate 32 true)
    (List.replicate 32 [500, 3800]) rfl rfl rfl
    (Mealy.forall₂_replicate (Band.one ⟨by decide, by decide⟩ (by decide) (by decide)) 32)
  have hzero : codes (Mealy.events (decode .avr) { (init 1 0).decoder with state := 0 }
      (List.replicate 32 [500, 3800]).flatten) = [emptyCode] := by decide +kernel
  rw [hzero] at hcode
  exact absurd hcode (by decide)

end Auriol
end LamPI
