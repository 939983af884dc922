import LamPI.Library.Bystander
import LamPI.Remote.RoundTrip

/-!
# The Remote receiver as a bystander

A gap sets the period of the parts that are read after it.  Every trit has a long part, so that the
decoder gives up at the fourth part at the latest if none of them is a long one of that period.
-/

namespace LamPI
namespace Remote

open PulseLine Bystander

variable {b : Board} {s : Decoder} {gap gap' d q : ℕ}

/-! ## The decoder -/

/-- At the period `q` the interval is a short part, or none at all. -/
def Short (b : Board) (q d : ℕ) : Prop :=
  Band b q .short d ∨ ∀ p, ¬Band b q (part p) d

/-- The intervals are short, or gaps that begin periods at which all others are short. -/
structure Heard (b : Board) (gap gap' d : ℕ) : Prop where
  length : d ≤ 3720 ∨ gap ≤ d ∧ d ≤ gap'
  short : ∀ q, gap / 31 ≤ q → 31 * q ≤ gap' → Short b q d

/-- A decoder that reads a telegram has read short parts only. -/
def Decoder.Misled (b : Board) (gap gap' : ℕ) (s : Decoder) : Prop :=
  s.state = -1 ∨ ∃ q k, gap / 31 ≤ q ∧ 31 * q ≤ gap' ∧ s.Reading b q [] (List.replicate k false)

/-- No trit consists of short parts. -/
theorem parts_ne_short : ∀ t : Trit, parts t ≠ List.replicate 3 false ++ [false] := by decide

theorem misled_decode (hs : s.Misled b gap gap') (hgap' : gap' < 65536) (hd : Heard b gap gap' d) :
    (decode b s d).1.Misled b gap gap' ∧ (decode b s d).2 = none := by
  rcases hs with hidle | ⟨q, k, hq, hq', hreading⟩
  · by_cases hsync : 3720 < d
    · have hlong := hd.length.resolve_left (Nat.not_le.2 hsync)
      rcases decode_sync (b := b) hidle hsync with ⟨s', hdecode, hreading, -⟩
      have hu : b.uint (d / 31) = d / 31 := b.uint_of_lt (by omega)
      rw [hdecode]
      exact ⟨Or.inr ⟨_, 0, by omega, by omega, hreading⟩, rfl⟩
    · rw [decode_idle hidle (Nat.le_of_not_lt hsync)]
      exact ⟨Or.inl hidle, rfl⟩
  · have hk : k < 4 := by
      have hparts := hreading.parts
      rwa [List.length_replicate] at hparts
    rcases hd.short q hq hq' with hshort | hnone
    · have hband : Band b q (part false) d := hshort
      by_cases hlast : k = 3
      -- the fourth part
      · subst hlast
        rcases decode_part_rubbish hreading (by decide) rfl parts_ne_short hband with
          ⟨s', hdecode, hstate, -⟩
        rw [hdecode]
        exact ⟨Or.inl hstate, rfl⟩
      · rcases decode_part_inner hreading (by decide)
          (by rw [List.length_replicate]; omega) hband with ⟨s', hdecode, hnext, -⟩
        rw [hdecode]
        refine ⟨Or.inr ⟨q, k + 1, hq, hq', ?_⟩, rfl⟩
        rw [List.replicate_succ']
        exact hnext
    · rcases decode_no_part hreading (by decide) hnone with ⟨s', hdecode, hstate, -⟩
      rw [hdecode]
      exact ⟨Or.inl hstate, rfl⟩

/-- Without a long part the decoder does not get beyond the first trit. -/
theorem silent_of_short (hs : s.state = -1) (hgap' : gap' < 65536) {ds : List ℕ}
    (hds : ∀ d ∈ ds, Heard b gap gap' d) : Mealy.events (decode b) s ds = [] := by
  have hstep : ∀ s d, Decoder.Misled b gap gap' s → Heard b gap gap' d →
      (decode b s d).1.Misled b gap gap' ∧ (decode b s d).2 = none :=
    fun s d hs hd => misled_decode hs hgap' hd
  exact (run_silent hstep (Or.inl hs) hds).2

/-! ## The handler -/

structure Listening (b : Board) (s : State) (t : ℕ) : Prop where
  enabled : s.enabled = true
  state : s.decoder.state = -1
  skip : s.lowPass.skip = false
  pending : b.uint (s.lowPass.edge2 - s.lowPass.edge0).toNat ≤ 3720
  pause : b.uint (micros t - s.lowPass.edge2).toNat ≤ 3720

/-- Only an accepted gap can raise the threshold of the filter. -/
theorem open_decode_of {m : ℕ} (hd : 3720 < d → d < 65536 ∧ 5 * (d / 31) ≤ 10 * m)
    (h : Open m s) : Open m (decode b s d).1 := by
  by_cases hs : s.state = -1
  · by_cases hsync : 3720 < d
    · rcases hd hsync with ⟨hlt, hle⟩
      rcases decode_sync (b := b) (d := d) hs hsync with ⟨s', hdecode, hstart, -⟩
      rw [hdecode]
      intro _
      rw [hstart.tuned.min1Period, b.uint_of_lt (n := d / 31) (by omega), b.uint_of_lt (by omega)]
      omega
    · rw [decode_idle hs (Nat.le_of_not_lt hsync)]
      exact h
  · intro _
    rw [decode_min1Period hs]
    exact h hs

variable {r : State} {t m last : ℕ} {ds : List ℕ}

/-- While no pulse is shorter than what the filter lets through, the decoder gets the transmission. -/
theorem Listening.events_eq (h : Listening b r t) (hgap' : gap' < 65536) (hm : gap' ≤ 62 * m)
    (hds : ∀ d ∈ ds ++ [last], m ≤ d ∧ d ≤ gap') :
    Mealy.events (interruptHandler b) r (stamps t (0 :: (ds ++ [last]))) =
      Mealy.events (decode b) r.decoder ds := by
  refine Filtered.events_first (D := pulseDecoder b) (I := Open m) (m := m) h.enabled h.skip
    (decide_eq_false (by rw [h.state]; decide)) (fun hne => absurd h.state hne) ?_
    (decode_idle h.state h.pending) (decode_idle h.state h.pause) ?_ ?_
  · intro dec hopen hactive
    have hnonneg : 0 ≤ dec.state := of_decide_eq_true hactive
    exact hopen (by omega)
  · intro dec d hd hopen
    refine open_decode_of (fun hgap => ?_) hopen
    rcases List.mem_cons.1 hd with rfl | hd
    · exact absurd h.pause (Nat.not_le.2 hgap)
    · have hle := (hds d hd).2
      omega
  · intro d hd
    have hle := hds d hd
    omega

end Remote
end LamPI
