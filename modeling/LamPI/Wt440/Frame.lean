import LamPI.Wt440.Receiver
import LamPI.Library.Digits

/-!
# WT440 frames

A bit is two short pulses or a long one, and a frame the leader and 32 bits.  A decoder at the start
of a frame delivers its fields; the parity is accumulated on the way, and nothing tests it.
-/

namespace LamPI
namespace Wt440

open BigEndian

/-! ## Code words -/

inductive Word : Bool → List ℕ → Prop
  | one {d e : ℕ} (hd : Short d) (he : Short e) : Word true [d, e]
  | zero {d : ℕ} (hd : Long d) : Word false [d]

def store (k : ℕ) : Bool → Code → Code :=
  if k < 8 then storeAddress else if k < 10 then storeChannel else if k < 13 then storeWconst
  else if k < 20 then storeHumidity else if k < 35 then storeTemperature else storePar

def pushBit (k : ℕ) (c : Code) (bit : Bool) : Code := store k bit c

def InFrame (f : RepeatFilter Code) (k : ℕ) (c : Code) (s : Decoder) : Prop :=
  s.state = 2 * k ∧ s.skip = false ∧ s.receivedCode = c ∧ s.filter = f

variable {f : RepeatFilter Code} {k : ℕ} {c : Code} {s : Decoder} {bit : Bool} {w : List ℕ}

/-- An interval of a frame passes the filter. -/
theorem decode_pass {gap : ℕ} (hskip : s.skip = false) (hs : 0 ≤ s.state)
    (hlo : min1period ≤ gap) (hhi : gap % 65536 ≤ max2period) :
    decode s gap = decodeState s (gap % 65536) := by
  rw [decode, if_neg (by simp [hskip]), if_neg (by omega)]
  simp only
  rw [if_neg (by omega), if_neg (by omega)]

/-- Both halves of a bit are decoded by the states of its field. -/
theorem decodeState_eq {duration : ℕ} (hk : 4 ≤ k) (hk' : k < 36)
    (hs : s.state = 2 * k ∨ s.state = 2 * k + 1) :
    decodeState s duration =
      if k < 8 then decodeAddress s duration else decodeField (store k) s duration := by
  unfold decodeState store
  rw [if_neg (by omega), if_neg (by omega)]
  -- two states a bit: the bounds of the source are twice the places of the fields
  by_cases h8 : k < 8
  · rw [if_pos h8, if_pos (by omega)]
  · simp only [if_neg h8]
    rw [if_neg (by omega)]
    by_cases h10 : k < 10
    · rw [if_pos h10, if_pos (by omega)]
    · rw [if_neg h10, if_neg (by omega)]
      by_cases h13 : k < 13
      · rw [if_pos h13, if_pos (by omega)]
      · rw [if_neg h13, if_neg (by omega)]
        by_cases h20 : k < 20
        · rw [if_pos h20, if_pos (by omega)]
        · rw [if_neg h20, if_neg (by omega)]
          by_cases h35 : k < 35
          · rw [if_pos h35, if_pos (by omega)]
          · rw [if_neg h35, if_neg (by omega), if_pos (by omega)]

/-- A long pulse at a bit boundary is a 0. -/
theorem decodeState_long {duration : ℕ} (hk : 4 ≤ k) (hk' : k < 36) (hs : InFrame f k c s)
    (hlong : max1period < duration) :
    ∃ s', decodeState s duration = close s' ∧ InFrame f (k + 1) (pushBit k c false) s' := by
  rcases hs with ⟨hstate, hskip, rfl, rfl⟩
  rw [decodeState_eq hk hk' (Or.inl hstate)]
  by_cases h8 : k < 8
  · rw [if_pos h8, decodeAddress, if_pos hlong, advance]
    refine ⟨_, rfl, ?_, hskip, ?_, rfl⟩
    · simp only
      push_cast
      omega
    · simp only [pushBit, store, if_pos h8]
  · rw [if_neg h8, decodeField]
    simp only [if_pos hlong]
    rw [if_pos (by omega), advance]
    refine ⟨_, rfl, ?_, hskip, rfl, rfl⟩
    simp only
    push_cast
    omega

/-- The first short pulse of a 1 stores nothing. -/
theorem decodeState_short {duration : ℕ} (hk : 4 ≤ k) (hk' : k < 36) (hs : InFrame f k c s)
    (hshort : duration ≤ max1period) :
    ∃ s', decodeState s duration = (s', none) ∧ s'.state = 2 * k + 1 ∧ s'.skip = false ∧
      s'.receivedCode = c ∧ s'.filter = f := by
  rcases hs with ⟨hstate, hskip, rfl, rfl⟩
  have hclose : ∀ t : Decoder, t.state = s.state + 1 → close t = (t, none) :=
    fun t ht => close_of_lt (by omega)
  rw [decodeState_eq hk hk' (Or.inl hstate)]
  by_cases h8 : k < 8
  · rw [if_pos h8, decodeAddress, if_neg (by omega), if_neg (by omega), advance, hclose _ rfl]
    exact ⟨_, rfl, by rw [← hstate], hskip, rfl, rfl⟩
  · rw [if_neg h8, decodeField]
    simp only [if_neg (Nat.not_lt.2 hshort)]
    rw [if_neg (by omega), advance, hclose _ rfl]
    exact ⟨_, rfl, by rw [← hstate], hskip, rfl, rfl⟩

/-- The second one stores the bit. -/
theorem decodeState_short_second {duration : ℕ} (hk : 4 ≤ k) (hk' : k < 36)
    (hstate : s.state = 2 * k + 1) (hskip : s.skip = false) (hshort : duration ≤ max1period) :
    ∃ s', decodeState s duration = close s' ∧
      InFrame s.filter (k + 1) (pushBit k s.receivedCode true) s' := by
  rw [decodeState_eq hk hk' (Or.inr hstate)]
  by_cases h8 : k < 8
  · rw [if_pos h8, decodeAddress, if_neg (by omega), if_pos (by omega), advance]
    refine ⟨_, rfl, ?_, hskip, ?_, rfl⟩
    · simp only
      push_cast
      omega
    · simp only [pushBit, store, if_pos h8]
  · rw [if_neg h8, decodeField]
    simp only [if_neg (Nat.not_lt.2 hshort)]
    rw [if_pos (by omega), advance]
    refine ⟨_, rfl, ?_, hskip, rfl, rfl⟩
    simp only
    push_cast
    omega

/-- The pulses of one bit, up to the test for the end of the frame. -/
theorem run_word (hk : 4 ≤ k) (hk' : k < 36) (hs : InFrame f k c s) (hw : Word bit w) :
    ∃ s', InFrame f (k + 1) (pushBit k c bit) s' ∧
      Mealy.final decode s w = (close s').1 ∧ Mealy.events decode s w = (close s').2.toList := by
  have hs0 : 0 ≤ s.state := by rw [hs.1]; omega
  cases hw with
  | @zero d hd =>
      have hpass := decode_pass hs.2.1 hs0 hd.min1period_le hd.2
      rcases decodeState_long hk hk' hs hd.1 with ⟨s', hlong, hs'⟩
      refine ⟨s', hs', ?_⟩
      rw [Mealy.final_cons, Mealy.events_cons, hpass, hlong]
      exact ⟨rfl, List.append_nil _⟩
  | @one d e hd he =>
      have hd' := decode_pass hs.2.1 hs0 hd.1 hd.le_max2period
      rcases decodeState_short hk hk' hs hd.2 with ⟨t, hshort, hstate, hskip, rfl, rfl⟩
      have he' := decode_pass hskip (by omega) he.1 he.le_max2period
      rcases decodeState_short_second hk hk' hstate hskip he.2 with ⟨s', hsecond, hs'⟩
      refine ⟨s', hs', ?_⟩
      rw [Mealy.final_cons, Mealy.events_cons, hd', hshort, Mealy.final_cons, Mealy.events_cons,
        he', hsecond]
      exact ⟨rfl, List.append_nil _⟩

theorem run_word_inner (hk : 4 ≤ k) (hk' : k < 35) (hs : InFrame f k c s) (hw : Word bit w) :
    InFrame f (k + 1) (pushBit k c bit) (Mealy.final decode s w) ∧
      Mealy.events decode s w = [] := by
  rcases run_word hk (by omega) hs hw with ⟨s', hs', hfinal, hevents⟩
  have hlt : s'.state < 72 := by
    rw [hs'.1]
    omega
  rw [hfinal, hevents, close_of_lt hlt]
  exact ⟨hs', rfl⟩

/-- What a completed frame leaves behind: its code has been counted, and the decoder waits for the
next first pulse if `_minRepeats` has been reached. -/
def Finished (f : RepeatFilter Code) (c : Code) (s : Decoder) : Prop :=
  s.state = (if (f.count sameCode c).reached then -1 else 0) ∧ s.skip = false ∧
    s.filter = f.count sameCode c

theorem run_word_last (hs : InFrame f 35 c s) (hw : Word bit w) :
    (Finished f (pushBit 35 c bit) (Mealy.final decode s w) ∧
        (Mealy.final decode s w).receivedCode = pushBit 35 c bit) ∧
      Mealy.events decode s w =
        [(f.count sameCode (pushBit 35 c bit)).completion (pushBit 35 c bit)] := by
  rcases run_word (by omega) (by omega) hs hw with
    ⟨s', ⟨hstate, hskip, hcode, hfilter⟩, hfinal, hevents⟩
  have hend : (72 : ℤ) ≤ s'.state := by rw [hstate]; decide
  rw [hfinal, hevents, close, if_pos hend, hcode, hfilter]
  exact ⟨⟨⟨rfl, hskip, rfl⟩, rfl⟩, rfl⟩

/-! ## Frames -/

/-- The code after the leader: the first bits shift `sync` by two and flip `par`, the last ones
shift it by one. -/
def leaderCode : Code := { emptyCode with sync := 64 }

/-- The first pulse of a frame. -/
theorem decode_first (hs : s.state = -1) (hskip : s.skip = false) {d : ℕ} (hd : First d) :
    ∃ s', decode s d = (s', none) ∧ s'.state = 1 ∧ s'.skip = false ∧
      s'.receivedCode = emptyCode ∧ s'.filter = s.filter := by
  have hlong : ¬max2period < d % 65536 := by
    have := hd.2
    unfold max1period max2period at *
    omega
  have hfirst : min1period < d % 65536 ∧ d % 65536 < max1period := hd
  have hclose : ∀ t : Decoder, t.state = s.state + 1 + 1 → close t = (t, none) :=
    fun t ht => close_of_lt (by omega)
  rw [decode, if_neg (by simp [hskip]), if_neg (by omega)]
  simp only
  rw [if_neg hlong, if_pos hs, if_pos hfirst, advance, hclose _ rfl]
  exact ⟨_, rfl, by rw [hs]; rfl, hskip, rfl, rfl⟩

/-- The other short pulses of the leader. -/
theorem decode_start {j : ℤ} (h0 : 0 ≤ j) (h4 : j < 4) (hs : s.state = j) (hskip : s.skip = false)
    {d : ℕ} (hd : Short d) :
    ∃ s', decode s d = (s', none) ∧ s'.state = j + 1 ∧ s'.skip = false ∧
      s'.receivedCode =
        (if j % 2 = 1 then storeStart s.receivedCode else s.receivedCode) ∧
      s'.filter = s.filter := by
  subst hs
  have hclose : ∀ t : Decoder, t.state = s.state + 1 → close t = (t, none) :=
    fun t ht => close_of_lt (by omega)
  rw [decode_pass hskip h0 hd.1 hd.le_max2period, decodeState, if_pos h4,
    if_neg (Nat.not_lt.2 hd.2)]
  split <;> rw [advance, hclose _ rfl] <;> exact ⟨_, rfl, rfl, hskip, rfl, rfl⟩

/-- The long pulses of the leader. -/
theorem decode_sync {j : ℤ} (h4 : 4 ≤ j) (h8 : j < 8) (hs : s.state = j) (hskip : s.skip = false)
    {d : ℕ} (hd : SyncPulse d) :
    ∃ s', decode s d = (s', none) ∧ s'.state = j + 2 ∧ s'.skip = false ∧
      s'.receivedCode = storeSync s.receivedCode ∧ s'.filter = s.filter := by
  subst hs
  have hlong : ¬(d % 65536 < min2period ∨ max2period < d % 65536) := by
    rintro (h | h)
    · exact absurd hd.1 (Nat.not_le.2 h)
    · exact absurd hd.2 (Nat.not_le.2 h)
  have hclose : ∀ t : Decoder, t.state = s.state + 1 + 1 → close t = (t, none) :=
    fun t ht => close_of_lt (by omega)
  rw [decode_pass hskip (by omega) hd.min1period_le hd.2, decodeState, if_neg (by omega), if_pos h8,
    if_neg hlong, advance, hclose _ rfl]
  exact ⟨_, rfl, by simp only; omega, hskip, rfl, rfl⟩

def leaderStores (c : Code) : Code := storeSync (storeSync (storeStart (storeStart c)))

/-- The leader shifts `sync`, and flips the parity twice. -/
theorem leaderStores_eq (c : Code) :
    leaderStores c = { c with sync := (leaderStores c).sync } := by
  simp [leaderStores, storeSync, storeStart]

/-- The leader from its second pulse on. -/
theorem run_leader_rest (hs : s.state = 1) (hskip : s.skip = false) {d₂ d₃ d₄ d₅ d₆ : ℕ}
    (h₂ : Short d₂) (h₃ : Short d₃) (h₄ : Short d₄) (h₅ : SyncPulse d₅) (h₆ : SyncPulse d₆) :
    InFrame s.filter 4 (leaderStores s.receivedCode)
        (Mealy.final decode s [d₂, d₃, d₄, d₅, d₆]) ∧
      Mealy.events decode s [d₂, d₃, d₄, d₅, d₆] = [] := by
  rcases decode_start (by decide) (by decide) hs hskip h₂ with
    ⟨s₂, e₂, hs₂, hskip₂, hcode₂, hfilter₂⟩
  rcases decode_start (by decide) (by decide) hs₂ hskip₂ h₃ with
    ⟨s₃, e₃, hs₃, hskip₃, hcode₃, hfilter₃⟩
  rcases decode_start (by decide) (by decide) hs₃ hskip₃ h₄ with
    ⟨s₄, e₄, hs₄, hskip₄, hcode₄, hfilter₄⟩
  -- its two zeros, a long interval each
  rcases decode_sync (by decide) (by decide) hs₄ hskip₄ h₅ with
    ⟨s₅, e₅, hs₅, hskip₅, hcode₅, hfilter₅⟩
  rcases decode_sync (by decide) (by decide) hs₅ hskip₅ h₆ with
    ⟨s₆, e₆, hs₆, hskip₆, hcode₆, hfilter₆⟩
  have hcode : s₆.receivedCode = leaderStores s.receivedCode := by
    rw [hcode₆, hcode₅, hcode₄, hcode₃, hcode₂]
    rfl
  have hfilter : s₆.filter = s.filter := by
    rw [hfilter₆, hfilter₅, hfilter₄, hfilter₃, hfilter₂]
  simp only [Mealy.final_cons, Mealy.events_cons, Mealy.final_nil, Mealy.events_nil, e₂, e₃, e₄,
    e₅, e₆]
  exact ⟨⟨hs₆, hskip₆, hcode, hfilter⟩, rfl⟩

/-- From an idle decoder the leader `1100` is read without a word of its own for the start. -/
theorem run_leader (hs : s.state = -1) (hskip : s.skip = false) {d₁ d₂ d₃ d₄ d₅ d₆ : ℕ}
    (h₁ : First d₁) (h₂ : Short d₂) (h₃ : Short d₃) (h₄ : Short d₄) (h₅ : SyncPulse d₅)
    (h₆ : SyncPulse d₆) :
    InFrame s.filter 4 leaderCode (Mealy.final decode s [d₁, d₂, d₃, d₄, d₅, d₆]) ∧
      Mealy.events decode s [d₁, d₂, d₃, d₄, d₅, d₆] = [] := by
  rcases decode_first hs hskip h₁ with ⟨s₁, e₁, hs₁, hskip₁, hcode₁, hfilter₁⟩
  rcases run_leader_rest hs₁ hskip₁ h₂ h₃ h₄ h₅ h₆ with ⟨hleader, hquiet⟩
  have hcode : leaderStores s₁.receivedCode = leaderCode := by
    rw [hcode₁]
    decide
  rw [hcode, hfilter₁] at hleader
  rw [Mealy.final_cons, Mealy.events_cons, e₁, hquiet]
  exact ⟨hleader, rfl⟩

/-- In state 0 the leader is read with the code that is there. -/
theorem run_leader_again (hs : s.state = 0) (hskip : s.skip = false) {d₁ d₂ d₃ d₄ d₅ d₆ : ℕ}
    (h₁ : Short d₁) (h₂ : Short d₂) (h₃ : Short d₃) (h₄ : Short d₄) (h₅ : SyncPulse d₅)
    (h₆ : SyncPulse d₆) :
    InFrame s.filter 4 (leaderStores s.receivedCode)
        (Mealy.final decode s [d₁, d₂, d₃, d₄, d₅, d₆]) ∧
      Mealy.events decode s [d₁, d₂, d₃, d₄, d₅, d₆] = [] := by
  rcases decode_start (by decide) (by decide) hs hskip h₁ with
    ⟨s₁, e₁, hs₁, hskip₁, hcode₁, hfilter₁⟩
  rcases run_leader_rest hs₁ hskip₁ h₂ h₃ h₄ h₅ h₆ with ⟨hleader, hquiet⟩
  have hcode : s₁.receivedCode = s.receivedCode := by
    rw [hcode₁]
    rfl
  rw [hcode, hfilter₁] at hleader
  rw [Mealy.final_cons, Mealy.events_cons, e₁, hquiet]
  exact ⟨hleader, rfl⟩

/-- After the leader the code words of 32 bits complete a frame, whatever the code was. -/
theorem run_payload (hs : InFrame f 4 c s) {bs : List Bool} {ws : List (List ℕ)}
    (hbs : bs.length = 32) (hws : List.Forall₂ Word bs ws) :
    (Finished f (bs.foldlIdx pushBit c 4) (Mealy.final decode s ws.flatten) ∧
        (Mealy.final decode s ws.flatten).receivedCode = bs.foldlIdx pushBit c 4) ∧
      Mealy.events decode s ws.flatten =
        [(f.count sameCode (bs.foldlIdx pushBit c 4)).completion (bs.foldlIdx pushBit c 4)] := by
  have hne : bs ≠ [] := by
    rintro rfl
    exact absurd hbs (by decide)
  exact Mealy.run_frame
    (R := fun k c t => 4 ≤ k ∧ InFrame f k c t)
    (Q := fun c t => Finished f c t ∧ t.receivedCode = c)
    (e := fun c => [(f.count sameCode c).completion c]) (W := Word) (n := 35)
    (fun k c t bit w hk h hw =>
      have hword := run_word_inner h.1 hk h.2 hw
      ⟨⟨by omega, hword.1⟩, hword.2⟩)
    (fun c t bit w h hw => run_word_last h.2 hw) ⟨le_rfl, hs⟩ hws hne (by omega)

/-- A leader and the code words of 32 bits complete a frame. -/
theorem run_frame (hs : s.state = -1) (hskip : s.skip = false) {d₁ d₂ d₃ d₄ d₅ d₆ : ℕ}
    (h₁ : First d₁) (h₂ : Short d₂) (h₃ : Short d₃) (h₄ : Short d₄) (h₅ : Long d₅)
    (h₆ : Long d₆) {bs : List Bool} {ws : List (List ℕ)} (hbs : bs.length = 32)
    (hws : List.Forall₂ Word bs ws) :
    Finished s.filter (bs.foldlIdx pushBit leaderCode 4)
        (Mealy.final decode s ([d₁, d₂, d₃, d₄, d₅, d₆] ++ ws.flatten)) ∧
      Mealy.events decode s ([d₁, d₂, d₃, d₄, d₅, d₆] ++ ws.flatten) =
        [(s.filter.count sameCode (bs.foldlIdx pushBit leaderCode 4)).completion
          (bs.foldlIdx pushBit leaderCode 4)] := by
  rcases run_leader hs hskip h₁ h₂ h₃ h₄ h₅.sync h₆.sync with ⟨hleader, hquiet⟩
  rcases run_payload hleader hbs hws with ⟨⟨hdone, -⟩, hout⟩
  rw [Mealy.final_append, Mealy.events_append, hquiet, hout]
  exact ⟨hdone, rfl⟩

/-! ## The code of a frame -/

variable {bs : List Bool}

/-- Storing bits in one field shifts them into its register, and flips the parity by `flip`. -/
theorem foldl_field {α : Type} {store : Bool → Code → Code} {shift : α → Bool → α}
    {flip : Bool → Bool} (put : α → Bool → Code)
    (hstore : ∀ a p bit, store bit (put a p) = put (shift a bit) (p ^^ flip bit)) (a : α)
    (p : Bool) :
    bs.foldl (fun c bit => store bit c) (put a p) =
      put (bs.foldl shift a) ((bs.map flip).foldl xor p) := by
  rw [foldl_store (g := fun p bit => p ^^ flip bit) put hstore, List.foldl_map]

theorem foldl_storeAddress :
    bs.foldl (fun c bit => storeAddress bit c) c =
      { c with
        address := bs.foldl (fun a bit => (a * 2 + bit.toNat) % 256) c.address
        par := (bs.map id).foldl xor c.par } :=
  foldl_field (fun a p => { c with address := a, par := p }) (fun _ _ _ => rfl) _ _

theorem foldl_storeChannel :
    bs.foldl (fun c bit => storeChannel bit c) c =
      { c with
        channel := bs.foldl (fun a bit => (a * 2 + bit.toNat) % 256) c.channel
        par := (bs.map id).foldl xor c.par } :=
  foldl_field (fun a p => { c with channel := a, par := p }) (fun _ _ _ => rfl) _ _

/-- The parity of the constant is that of its length. -/
theorem foldl_storeWconst :
    bs.foldl (fun c bit => storeWconst bit c) c =
      { c with
        wconst := bs.foldl (fun a bit => (a * 2 + bit.toNat) % 256) c.wconst
        par := (bs.map fun _ => true).foldl xor c.par } :=
  foldl_field (fun a p => { c with wconst := a, par := p }) (fun _ _ _ => rfl) _ _

theorem foldl_storeHumidity :
    bs.foldl (fun c bit => storeHumidity bit c) c =
      { c with
        humidity := bs.foldl (fun a bit => (a * 2 + bit.toNat) % 256) c.humidity
        par := (bs.map id).foldl xor c.par } :=
  foldl_field (fun a p => { c with humidity := a, par := p }) (fun _ _ _ => rfl) _ _

theorem foldl_storeTemperature :
    bs.foldl (fun c bit => storeTemperature bit c) c =
      { c with
        temperature :=
          bs.foldl (fun (a : ℤ) bit => Int.bmod (a * 2 + bit.toNat) 65536) c.temperature
        par := (bs.map id).foldl xor c.par } :=
  foldl_field (fun a p => { c with temperature := a, par := p }) (fun _ _ _ => rfl) _ _

/-- The code that a frame of an address, a channel, a constant, a humidity, a temperature and a
parity bit stands for. -/
def frameCode (as cs ws hs ts : List Bool) (p : Bool) : Code :=
  { sync := 64, address := ofBits as, channel := ofBits cs, wconst := ofBits ws,
    temperature := ofBits ts, humidity := ofBits hs,
    par := parity as ^^ parity cs ^^ true ^^ parity hs ^^ parity ts ^^ p }

/-- The bits of a frame are stored field by field. -/
theorem foldlIdx_fields {as cs ws hs ts : List Bool} (has : as.length = 4) (hcs : cs.length = 2)
    (hws : ws.length = 3) (hhs : hs.length = 7) (hts : ts.length = 15) (p : Bool) (c : Code) :
    (as ++ (cs ++ (ws ++ (hs ++ (ts ++ [p]))))).foldlIdx pushBit c 4 =
      storePar p (ts.foldl (fun c b => storeTemperature b c)
        (hs.foldl (fun c b => storeHumidity b c) (ws.foldl (fun c b => storeWconst b c)
          (cs.foldl (fun c b => storeChannel b c) (as.foldl (fun c b => storeAddress b c) c))))) := by
  -- the places from `k` on belong to one field, which `g` stores
  have hfield : ∀ (k n : ℕ) (g : Bool → Code → Code) (bs : List Bool) (c : Code),
      bs.length = n → (∀ j, k ≤ j → j < k + n → store j = g) →
      bs.foldlIdx pushBit c k = bs.foldl (fun c b => g b c) c := by
    intro k n g bs c hlen hg
    apply foldlIdx_of_range
    intro j hj hj'
    funext c b
    rw [pushBit, hg j hj (by omega)]
  rw [foldlIdx_append, foldlIdx_append, foldlIdx_append, foldlIdx_append, foldlIdx_append, has,
    hcs, hws, hhs, hts,
    hfield 4 4 storeAddress as _ has (fun j h h' => if_pos (by omega)),
    hfield 8 2 storeChannel cs _ hcs (fun j h h' => by
      rw [store, if_neg (by omega), if_pos (by omega)]),
    hfield 10 3 storeWconst ws _ hws (fun j h h' => by
      rw [store, if_neg (by omega), if_neg (by omega), if_pos (by omega)]),
    hfield 13 7 storeHumidity hs _ hhs (fun j h h' => by
      rw [store, if_neg (by omega), if_neg (by omega), if_neg (by omega), if_pos (by omega)]),
    hfield 20 15 storeTemperature ts _ hts (fun j h h' => by
      rw [store, if_neg (by omega), if_neg (by omega), if_neg (by omega), if_neg (by omega),
        if_pos (by omega)])]
  rfl

theorem foldlIdx_pushBit {as cs ws hs ts : List Bool} {p : Bool} (has : as.length = 4)
    (hcs : cs.length = 2) (hws : ws.length = 3) (hhs : hs.length = 7) (hts : ts.length = 15) :
    (as ++ (cs ++ (ws ++ (hs ++ (ts ++ [p]))))).foldlIdx pushBit leaderCode 4 =
      frameCode as cs ws hs ts p := by
  have hreg : ∀ bs : List Bool, bs.length ≤ 8 →
      bs.foldl (fun a b => (a * 2 + b.toNat) % 256) 0 = ofBits bs :=
    fun bs h => foldl_bits_mod (Nat.pow_le_pow_right (by decide) h : 2 ^ bs.length ≤ 2 ^ 8)
  -- fifteen bits leave the sign bit of an `int16_t` alone
  have htemperature : 2 ^ (ts.length + 1) ≤ 65536 := by rw [hts]; decide
  rw [foldlIdx_fields has hcs hws hhs hts, foldl_storeAddress, foldl_storeChannel,
    foldl_storeWconst, foldl_storeHumidity, foldl_storeTemperature]
  simp only [leaderCode, emptyCode, hreg as (by omega), hreg cs (by omega), hreg ws (by omega),
    hreg hs (by omega), foldl_bmod htemperature, hws, foldl_xor, List.map_id, List.map_const']
  simp [storePar, frameCode]

/-! ## Windows -/

theorem next_short {state : ℤ} {d : ℕ} (h0 : 0 ≤ state) (h71 : state < 71)
    (hsync : state < 4 ∨ 8 ≤ state) (hd : Short d) : next state d = .go (state + 1) := by
  have hlong : ¬max1period < d % 65536 := Nat.not_lt.2 hd.2
  have hposition : position state = state := max_eq_left h0
  have htakes : Takes state d := by
    rw [takes_iff_accepts h0 hd.1]
    exact ⟨hd.le_max2period, fun _ => hd.2, by omega⟩
  have hhalf : halfBits state (d % 65536) = 1 := by
    rw [halfBits]
    rcases hsync with h4 | h8
    · rw [if_pos h4]
    · rw [if_neg (by omega), if_neg (by omega), if_neg hlong]
  rw [next, if_pos htakes, hposition, hhalf, if_neg (by omega)]

theorem next_long {state : ℤ} {d : ℕ} (h4 : 4 ≤ state) (h70 : state < 70) (hd : Long d) :
    next state d = .go (state + 2) := by
  have hposition : position state = state := max_eq_left (by omega)
  have htakes : Takes state d := by
    rw [takes_iff_accepts (by omega) hd.min1period_le]
    exact ⟨hd.2, by omega, fun _ _ => hd.1.le⟩
  have hhalf : halfBits state (d % 65536) = 2 := by
    rw [halfBits, if_neg (by omega)]
    split
    · rfl
    · rw [if_pos hd.1]
  rw [next, if_pos htakes, hposition, hhalf, if_neg (by omega)]

theorem next_first {d : ℕ} (hd : First d) : next (-1) d = .go 1 := by
  have htakes : Takes (-1) d := by
    rw [Takes, if_pos rfl]
    exact hd
  rw [next, if_pos htakes]
  rfl

theorem next_sync {j : ℤ} (h4 : 4 ≤ j) (h8 : j < 8) {d : ℕ} (hd : SyncPulse d) :
    next j d = .go (j + 2) := by
  have hposition : position j = j := max_eq_left (by omega)
  have htakes : Takes j d := by
    rw [takes_iff_accepts (by omega) hd.min1period_le]
    exact ⟨hd.2, by omega, fun _ _ => hd.1⟩
  rw [next, if_pos htakes, hposition, halfBits, if_neg (by omega), if_pos h8, if_neg (by omega)]

/-- The last pulse of a frame. -/
theorem next_end {state : ℤ} {d : ℕ} (h : state = 70 ∧ Long d ∨ state = 71 ∧ Short d) :
    next state d = .done := by
  rcases h with ⟨rfl, hd⟩ | ⟨rfl, hd⟩
  · have htakes : Takes 70 d := by
      rw [takes_iff_accepts (by decide) hd.min1period_le]
      exact ⟨hd.2, by omega, by omega⟩
    have hhalf : halfBits (position 70) (d % 65536) = 2 := by
      rw [show position 70 = 70 from rfl, halfBits, if_neg (by omega), if_neg (by omega),
        if_pos hd.1]
    rw [next, if_pos htakes, hhalf, if_pos (by decide)]
  · have htakes : Takes 71 d := by
      rw [takes_iff_accepts (by decide) hd.1]
      exact ⟨hd.le_max2period, by omega, by omega⟩
    have hpos := halfBits_pos (position 71) (d % 65536)
    have hposition : position 71 = 71 := rfl
    rw [next, if_pos htakes, if_pos (by omega)]

theorem words_complete {ws : List (List ℕ)} (hws : List.Forall₂ Word bs ws) (hk : 4 ≤ k)
    (hlen : k + bs.length = 36) (hne : bs ≠ []) :
    Scanner.Completes next (2 * k) ws.flatten := by
  induction hws generalizing k with
  | nil => exact absurd rfl hne
  | @cons bit w bs ws hw hws ih =>
      rw [List.length_cons] at hlen
      -- the words after this one complete the frame, unless this is the last one
      have hrest : k < 35 → Scanner.Completes next (2 * (k + 1 : ℕ)) ws.flatten := by
        intro hk35
        exact ih (by omega) (by omega) (by rintro rfl; simp at hlen; omega)
      have hlast : ¬k < 35 → ws = [] := by
        intro hk35
        obtain rfl : bs = [] := List.eq_nil_of_length_eq_zero (by omega)
        cases hws
        rfl
      have hnext : (2 * (k + 1 : ℕ) : ℤ) = 2 * k + 2 := by omega
      rw [List.flatten_cons]
      cases hw with
      | @one d e hd he =>
          rw [List.cons_append, List.cons_append, List.nil_append,
            Scanner.completes_cons_go (next_short (by omega) (by omega) (by omega) hd)]
          by_cases hk35 : k < 35
          · rw [Scanner.completes_cons_go (next_short (by omega) (by omega) (by omega) he)]
            rw [hnext] at hrest
            have hsum : (2 * k + 1 + 1 : ℤ) = 2 * k + 2 := by ring
            rw [hsum]
            exact hrest hk35
          · rw [Scanner.completes_cons_done (next_end (Or.inr ⟨by omega, he⟩)), hlast hk35]
            rfl
      | @zero d hd =>
          rw [List.singleton_append]
          by_cases hk35 : k < 35
          · rw [Scanner.completes_cons_go (next_long (by omega) (by omega) hd), ← hnext]
            exact hrest hk35
          · rw [Scanner.completes_cons_done (next_end (Or.inl ⟨by omega, hd⟩)), hlast hk35]
            rfl

/-- A leader and the code words of 32 bits are a window. -/
theorem frame_completes {d₁ d₂ d₃ d₄ d₅ d₆ : ℕ} (h₁ : First d₁) (h₂ : Short d₂) (h₃ : Short d₃)
    (h₄ : Short d₄) (h₅ : Long d₅) (h₆ : Long d₆) {ws : List (List ℕ)} (hbs : bs.length = 32)
    (hws : List.Forall₂ Word bs ws) :
    Scanner.Completes next (-1) ([d₁, d₂, d₃, d₄, d₅, d₆] ++ ws.flatten) := by
  have hwords := words_complete hws le_rfl (by omega) (by rintro rfl; simp at hbs)
  simp only [List.cons_append, List.nil_append]
  rw [Scanner.completes_cons_go (next_first h₁),
    Scanner.completes_cons_go (next_short (by decide) (by decide) (by decide) h₂),
    Scanner.completes_cons_go (next_short (by decide) (by decide) (by decide) h₃),
    Scanner.completes_cons_go (next_short (by decide) (by decide) (by decide) h₄),
    Scanner.completes_cons_go (next_long (by decide) (by decide) h₅),
    Scanner.completes_cons_go (next_long (by decide) (by decide) h₆)]
  exact hwords

/-- The pulses of two code words with a common beginning are those of the same bit. -/
theorem words_unique {bs' : List Bool} {ws ws' : List (List ℕ)} (hws : List.Forall₂ Word bs ws)
    (hws' : List.Forall₂ Word bs' ws') (h : ws.flatten = ws'.flatten) : bs = bs' := by
  have hdisjoint : ∀ {d : ℕ}, Short d → Long d → False :=
    fun hs hl => absurd hs.2 (Nat.not_le.2 hl.1)
  -- the first interval of a word tells the two words apart
  induction hws generalizing bs' ws' with
  | nil =>
      cases hws' with
      | nil => rfl
      | cons hw' _ => cases hw' <;> simp at h
  | cons hw hws ih =>
      cases hws' with
      | nil => cases hw <;> simp at h
      | cons hw' hws' =>
          cases hw with
          | one hd he =>
              cases hw' with
              | one hd' he' =>
                  simp only [List.flatten_cons, List.cons_append, List.nil_append,
                    List.cons.injEq] at h
                  rw [ih hws' h.2.2]
              | zero hd' =>
                  simp only [List.flatten_cons, List.cons_append, List.nil_append,
                    List.cons.injEq] at h
                  exact (hdisjoint hd (h.1 ▸ hd')).elim
          | zero hd =>
              cases hw' with
              | one hd' he' =>
                  simp only [List.flatten_cons, List.cons_append, List.nil_append,
                    List.cons.injEq] at h
                  exact (hdisjoint hd' (h.1 ▸ hd)).elim
              | zero hd' =>
                  simp only [List.flatten_cons, List.cons_append, List.nil_append,
                    List.cons.injEq] at h
                  rw [ih hws' h.2]

end Wt440
end LamPI
