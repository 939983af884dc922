import LamPI.Livolo.RoundTrip
import LamPI.Kopou.Receiver
import LamPI.Quhwa.RoundTrip
import LamPI.Wt440.Consecutive
import LamPI.Auriol.Receiver

/-!
# MinRepeats — when the callback is called

Every receiver promises to call back when the same code has been received `minRepeats` times in a
row.  Here frames are sent one by one, with a pause before each that the receiver takes for
nothing, and the promise is compared with what the filter does: its counter is a byte, and two
of the comparisons with `previousCode` leave fields out.
-/

namespace LamPI

open PulseLine EqualRuns

/-! ## Livolo -/

namespace Livolo

def Code.payload (c : Code) : ℕ × ℕ × ℕ := (c.address, c.unit, c.level)

/-- A start pulse and the code words of 23 bits. -/
inductive IsSentAs (b : Board) (bs : List Bool) : List ℕ → Prop
  | intro {gap : ℕ} {ws : List (List ℕ)} (hbs : bs.length = 23) (hlo : 440 < b.uint gap)
      (hhi : b.uint gap < 600) (hws : List.Forall₂ Word bs ws) : IsSentAs b bs (gap :: ws.flatten)

def Pause (b : Board) (p : List ℕ) : Prop := ∀ d ∈ p, ¬(440 < b.uint d ∧ b.uint d < 600)

/-- The comparison covers the payload. -/
theorem same_iff (c d : Code) : Same sameCode c d ↔ c.payload = d.payload := by
  simp [Same, sameCode, Code.payload, and_assoc]

theorem events_sent {b : Board} {s : Decoder} {xs : List (List Bool)} {ws : List ℕ}
    (h : Sent (Pause b) (IsSentAs b) xs ws) (hs : s.state = -1) :
    Mealy.events (decode b) s ws = s.filter.feed sameCode (xs.map frameCode) := by
  refine h.events_eq_of_ignored Decoder.filter (fun s => s.state = -1)
    (fun s p hs hp d hd => decode_idle hs (hp d hd)) ?_ hs
  rintro s x w hs ⟨hbs, hlo, hhi, hws⟩
  exact run_frame hs hlo hhi hbs hws

/-- The callback comes after `m` frames, as long as 256 frames in a row do not say the same. -/
theorem callsBack_iff {b : Board} {m : ℕ} (hpos : 1 ≤ m) (hbyte : m ≤ 255) (edge2 : ULong)
    {xs : List (List Bool)} {times : List ℕ}
    (h : Sent (Pause b) (IsSentAs b) xs (measured edge2 times)) :
    let es := Mealy.events (interruptHandler b) (init m edge2) times
    codes es = xs.map frameCode ∧
      (CallsBackAfter m (fun c d => c.payload = d.payload) es ↔
        NoRun 256 (fun c d => c.payload = d.payload) (xs.map frameCode)) := by
  intro es
  have hes : es = (init m edge2).decoder.filter.feed sameCode (xs.map frameCode) :=
    (Sampled.events_eq rfl times).trans (events_sent h rfl)
  rw [hes, RepeatFilter.codes_feed]
  exact ⟨rfl, RepeatFilter.callsBackAfter_iff_noRun (equivalence_of_key same_iff) rfl rfl rfl hpos
    hbyte _ fun c _ d _ => same_iff c d⟩

end Livolo

/-! ## Kopou -/

namespace Kopou

def Code.payload (c : Code) : ℕ × ℕ × ℕ := (c.address, c.unit, c.level)

/-- A start pulse of the given length and the code words of 24 bits. -/
inductive IsSentAs (b : Board) (x : ℕ × List Bool) : List ℕ → Prop
  | intro {gap : ℕ} {ws : List (List ℕ)} (hx : x.1 = b.uint gap) (hbs : x.2.length = 24)
      (hgap : Start b gap) (hws : List.Forall₂ Word x.2 ws) : IsSentAs b x (gap :: ws.flatten)

def Pause (b : Board) (p : List ℕ) : Prop := ∀ d ∈ p, ¬Start b d

/-- The comparison covers the payload. -/
theorem same_iff (c d : Code) : Same sameCode c d ↔ c.payload = d.payload := by
  simp [Same, sameCode, Code.payload, and_assoc]

theorem events_sent {b : Board} {s : Decoder} {xs : List (ℕ × List Bool)} {ws : List ℕ}
    (h : Sent (Pause b) (IsSentAs b) xs ws) (hs : s.state = -1) :
    Mealy.events (decode b) s ws =
      s.filter.feed sameCode (xs.map fun x => frameCode x.1 x.2) := by
  refine h.events_eq_of_ignored Decoder.filter (fun s => s.state = -1)
    (fun s p hs hp d hd => decode_idle hs (hp d hd)) ?_ hs
  rintro s x w hs ⟨hx, hbs, hgap, hws⟩
  rw [hx]
  exact run_frame hs hgap hbs hws

/-- The callback comes after `m` frames, as long as 256 frames in a row do not say the same. -/
theorem callsBack_iff {b : Board} {m : ℕ} (hpos : 1 ≤ m) (hbyte : m ≤ 255) (edge2 : ULong)
    {xs : List (ℕ × List Bool)} {times : List ℕ}
    (h : Sent (Pause b) (IsSentAs b) xs (measured edge2 times)) :
    let es := Mealy.events (interruptHandler b) (init m edge2) times
    codes es = xs.map (fun x => frameCode x.1 x.2) ∧
      (CallsBackAfter m (fun c d => c.payload = d.payload) es ↔
        NoRun 256 (fun c d => c.payload = d.payload) (xs.map fun x => frameCode x.1 x.2)) := by
  intro es
  have hes : es = (init m edge2).decoder.filter.feed sameCode
      (xs.map fun x => frameCode x.1 x.2) :=
    (Sampled.events_eq rfl times).trans (events_sent h rfl)
  rw [hes, RepeatFilter.codes_feed]
  exact ⟨rfl, RepeatFilter.callsBackAfter_iff_noRun (equivalence_of_key same_iff) rfl rfl rfl hpos
    hbyte _ fun c _ d _ => same_iff c d⟩

end Kopou

/-! ## Quhwa -/

namespace Quhwa

def Code.payload (c : Code) : ℕ × ℕ × ℕ := (c.address, c.unit, c.level)

/-- A start pulse of the given length and 35 bits. -/
inductive IsSentAs (b : Board) (x : ℕ × List Bool) : List ℕ → Prop
  | intro {gap : ℕ} {ws : List ℕ} (hx : x.1 = b.uint gap) (hbs : x.2.length = 35)
      (hgap : Start b gap) (hws : List.Forall₂ Bit x.2 ws) : IsSentAs b x (gap :: ws)

def Pause (b : Board) (p : List ℕ) : Prop := ∀ d ∈ p, ¬Start b d

/-- The comparison leaves out the level, which every frame sets to 1. -/
theorem same_iff (c d : Code) :
    Same sameCode c d ↔ (c.address, c.unit) = (d.address, d.unit) := by
  simp [Same, sameCode]

theorem events_sent {b : Board} {s : Decoder} {xs : List (ℕ × List Bool)} {ws : List ℕ}
    (h : Sent (Pause b) (IsSentAs b) xs ws) (hs : s.state = -1) :
    Mealy.events (decode b) s ws =
      s.filter.feed sameCode (xs.map fun x => frameCode x.1 x.2) := by
  refine h.events_eq_of_ignored Decoder.filter (fun s => s.state = -1)
    (fun s p hs hp d hd => decode_idle hs (hp d hd)) ?_ hs
  rintro s x w hs ⟨hx, hbs, hgap, hws⟩
  rw [hx]
  exact run_frame hs hgap hbs hws

/-- The callback comes after `m` frames, as long as 256 frames in a row do not say the same. -/
theorem callsBack_iff {b : Board} {m : ℕ} (hpos : 1 ≤ m) (hbyte : m ≤ 255) (edge2 : ULong)
    {xs : List (ℕ × List Bool)} {times : List ℕ}
    (h : Sent (Pause b) (IsSentAs b) xs (measured edge2 times)) :
    let es := Mealy.events (interruptHandler b) (init m edge2) times
    codes es = xs.map (fun x => frameCode x.1 x.2) ∧
      (CallsBackAfter m (fun c d => c.payload = d.payload) es ↔
        NoRun 256 (fun c d => c.payload = d.payload) (xs.map fun x => frameCode x.1 x.2)) := by
  intro es
  have hes : es = (init m edge2).decoder.filter.feed sameCode
      (xs.map fun x => frameCode x.1 x.2) :=
    (Sampled.events_eq rfl times).trans (events_sent h rfl)
  rw [hes, RepeatFilter.codes_feed]
  refine ⟨rfl, RepeatFilter.callsBackAfter_iff_noRun (equivalence_of_key same_iff) rfl rfl rfl hpos
    hbyte _ fun c hc d hd => ?_⟩
  -- the level is that of the start pulse
  have hlevel : ∀ e ∈ xs.map (fun x => frameCode x.1 x.2), e.level = 1 := by
    intro e he
    rcases List.mem_map.1 he with ⟨x, -, rfl⟩
    rfl
  rw [same_iff, Code.payload, Code.payload, hlevel c hc, hlevel d hd]
  simp

end Quhwa

/-! ## WT440 -/

namespace Wt440

def Code.payload (c : Code) : ℕ × ℕ × ℕ × ℤ × ℕ :=
  (c.address, c.channel, c.wconst, c.temperature, c.humidity)

/-- An interval that aborts a frame, and others that a waiting receiver ignores. -/
inductive Pause : List ℕ → Prop
  | intro {gap : ℕ} {p : List ℕ} (hgap : max2period < gap % 65536) (hp : ∀ d ∈ p, ¬First d) :
      Pause (gap :: p)

/-- What is compared: not `wconst`, but `sync` and `par`. -/
def Code.compared (c : Code) : ℕ × ℕ × ℕ × ℤ × ℕ × Bool :=
  (c.sync, c.address, c.channel, c.temperature, c.humidity, c.par)

theorem same_iff (c d : Code) : Same sameCode c d ↔ c.compared = d.compared := by
  simp [Same, sameCode, Code.compared, and_assoc]

theorem events_sent {s : Decoder} {xs : List Message} {ws : List ℕ}
    (h : Sent Pause Message.IsSentAs xs ws) (hs : s.Running) :
    Mealy.events decode s ws = s.filter.feed sameCode (xs.map fun x => x.code 64) := by
  refine h.events_eq Decoder.filter Decoder.Running (fun s => s.state = -1 ∧ s.skip = false)
    ?_ ?_ hs
  · rintro s _ hs (@⟨gap, p, hgap, hp⟩)
    have hreset := decode_gap hs hgap
    have hreset' : s.reset.state = -1 := rfl
    have hidle : ∀ d ∈ p, decode s.reset d = (s.reset, none) :=
      fun d hd => decode_idle hreset' hs.1 (hp d hd)
    rcases Mealy.run_ignored hidle with ⟨hfinal, hquiet⟩
    rw [Mealy.final_cons, Mealy.events_cons, hreset, hfinal, hquiet]
    exact ⟨⟨rfl, hs.1⟩, rfl, rfl⟩
  · rintro s x w ⟨hs, hskip⟩ hw
    rcases run_sent (Between.waiting hs hskip rfl) hw with ⟨hbetween, hout⟩
    exact ⟨hbetween.running.1, hbetween.running.2, hout⟩

/-- The callback comes after `m` frames, as long as the comparison stands for the payload.  For frames
that agree in what is compared exactly if they agree in the payload, no 256 of them may say the same. -/
theorem callsBack_iff {m : ℕ} (hpos : 1 ≤ m) (hbyte : m ≤ 255) (edge2 : ULong) {xs : List Message}
    {times : List ℕ} (h : Sent Pause Message.IsSentAs xs (measured edge2 times)) :
    let es := Mealy.events interruptHandler (init m edge2) times
    let frames := xs.map fun x => x.code 64
    codes es = frames ∧
      (CallsBackAfter m (fun c d => c.payload = d.payload) es ↔
        Stands m sameCode (fun c d => c.payload = d.payload) frames) ∧
      ((∀ c ∈ frames, ∀ d ∈ frames, c.compared = d.compared ↔ c.payload = d.payload) →
        (CallsBackAfter m (fun c d => c.payload = d.payload) es ↔
          NoRun 256 (fun c d => c.payload = d.payload) frames)) := by
  intro es frames
  have hrunning : (init m edge2).decoder.Running :=
    ⟨rfl, le_refl (-1 : ℤ), (by decide : (-1 : ℤ) < 72)⟩
  have hes : es = (init m edge2).decoder.filter.feed sameCode (xs.map fun x => x.code 64) :=
    (Sampled.events_eq rfl times).trans (events_sent h hrunning)
  rw [hes, RepeatFilter.codes_feed]
  refine ⟨rfl, RepeatFilter.callsBackAfter_iff_stands (equivalence_of_key same_iff) rfl rfl rfl _,
    fun hplain => ?_⟩
  exact RepeatFilter.callsBackAfter_iff_noRun (equivalence_of_key same_iff) rfl rfl rfl hpos hbyte _
    fun c hc d hd => (same_iff c d).trans (hplain c hc d hd)

end Wt440

/-! ## Auriol -/

namespace Auriol

def Code.payload (c : Code) : ℕ × ℤ × ℤ × ℕ × ℕ × ℕ :=
  (c.address, c.temperature, c.humidity, c.channel, c.n1, c.n2)

/-- A sync gap and the code words of 32 bits. -/
inductive IsSentAs (b : Board) (bs : List Bool) : List ℕ → Prop
  | intro {gap : ℕ} {ws : List (List ℕ)} (hbs : bs.length = 32) (hgap : Sync b gap)
      (hws : List.Forall₂ (Word b) bs ws) : IsSentAs b bs (gap :: ws.flatten)

def frameCode (b : Board) (bs : List Bool) : Code := bs.foldlIdx (pushBit b) emptyCode

def Pause (b : Board) (p : List ℕ) : Prop := ∀ d ∈ p, ¬Sync b d

/-- What is compared: not `n1` and `n2`, but `csum`. -/
def Code.compared (c : Code) : ℕ × ℕ × ℤ × ℤ × ℕ :=
  (c.address, c.channel, c.temperature, c.humidity, c.csum)

theorem same_iff (c d : Code) : Same sameCode c d ↔ c.compared = d.compared := by
  simp [Same, sameCode, Code.compared, and_assoc]

theorem decode_idle {b : Board} {s : Decoder} {gap : ℕ} (hs : s.state = -1)
    (hgap : ¬Sync b gap) : decode b s gap = (s, none) := by
  unfold decode
  simp only [if_pos hs]
  exact if_neg hgap

theorem events_sent {b : Board} {s : Decoder} {xs : List (List Bool)} {ws : List ℕ}
    (h : Sent (Pause b) (IsSentAs b) xs ws) (hs : s.state = -1) :
    Mealy.events (decode b) s ws = s.filter.feed sameCode (xs.map (frameCode b)) := by
  refine h.events_eq_of_ignored Decoder.filter (fun s => s.state = -1)
    (fun s p hs hp d hd => decode_idle hs (hp d hd)) ?_ hs
  rintro s x w hs ⟨hbs, hgap, hws⟩
  exact run_frame hs hgap hbs hws

/-- As for WT440. -/
theorem callsBack_iff {b : Board} {m : ℕ} (hpos : 1 ≤ m) (hbyte : m ≤ 255) (edge2 : ULong)
    {xs : List (List Bool)} {times : List ℕ}
    (h : Sent (Pause b) (IsSentAs b) xs (measured edge2 times)) :
    let es := Mealy.events (interruptHandler b) (init m edge2) times
    let frames := xs.map (frameCode b)
    codes es = frames ∧
      (CallsBackAfter m (fun c d => c.payload = d.payload) es ↔
        Stands m sameCode (fun c d => c.payload = d.payload) frames) ∧
      ((∀ c ∈ frames, ∀ d ∈ frames, c.compared = d.compared ↔ c.payload = d.payload) →
        (CallsBackAfter m (fun c d => c.payload = d.payload) es ↔
          NoRun 256 (fun c d => c.payload = d.payload) frames)) := by
  intro es frames
  have hes : es = (init m edge2).decoder.filter.feed sameCode (xs.map (frameCode b)) :=
    (Sampled.events_eq rfl times).trans (events_sent h rfl)
  rw [hes, RepeatFilter.codes_feed]
  refine ⟨rfl, RepeatFilter.callsBackAfter_iff_stands (equivalence_of_key same_iff) rfl rfl rfl _,
    fun hplain => ?_⟩
  exact RepeatFilter.callsBackAfter_iff_noRun (equivalence_of_key same_iff) rfl rfl rfl hpos hbyte _
    fun c hc d hd => (same_iff c d).trans (hplain c hc d hd)

end Auriol

/-! ## The five receivers -/

/-- With any `minRepeats`, and for any frames sent one by one, the receivers call back after
`minRepeats` frames with the same payload, as long as no run of 256 frames makes the byte counter
wrap, and for WT440 and Auriol as long as the comparison stands for the payload.  If the fields that these
compare agree exactly when the payload does, it comes to the same as for the others. -/
theorem callbacks_as_promised_iff (b : Board) (m : ℕ) (hpos : 1 ≤ m) (hbyte : m ≤ 255) (edge2 : ULong)
    (times : List ℕ) :
    (∀ xs, Sent (Livolo.Pause b) (Livolo.IsSentAs b) xs (measured edge2 times) →
      let es := Mealy.events (Livolo.interruptHandler b) (Livolo.init m edge2) times
      codes es = xs.map Livolo.frameCode ∧
        (CallsBackAfter m (fun c d => c.payload = d.payload) es ↔
          NoRun 256 (fun c d => c.payload = d.payload) (xs.map Livolo.frameCode))) ∧
    (∀ xs, Sent (Kopou.Pause b) (Kopou.IsSentAs b) xs (measured edge2 times) →
      let es := Mealy.events (Kopou.interruptHandler b) (Kopou.init m edge2) times
      codes es = xs.map (fun x => Kopou.frameCode x.1 x.2) ∧
        (CallsBackAfter m (fun c d => c.payload = d.payload) es ↔
          NoRun 256 (fun c d => c.payload = d.payload)
            (xs.map fun x => Kopou.frameCode x.1 x.2))) ∧
    (∀ xs, Sent (Quhwa.Pause b) (Quhwa.IsSentAs b) xs (measured edge2 times) →
      let es := Mealy.events (Quhwa.interruptHandler b) (Quhwa.init m edge2) times
      codes es = xs.map (fun x => Quhwa.frameCode x.1 x.2) ∧
        (CallsBackAfter m (fun c d => c.payload = d.payload) es ↔
          NoRun 256 (fun c d => c.payload = d.payload)
            (xs.map fun x => Quhwa.frameCode x.1 x.2))) ∧
    (∀ xs, Sent Wt440.Pause Wt440.Message.IsSentAs xs (measured edge2 times) →
      let es := Mealy.events Wt440.interruptHandler (Wt440.init m edge2) times
      let frames := xs.map fun x => x.code 64
      codes es = frames ∧
        (CallsBackAfter m (fun c d => c.payload = d.payload) es ↔
          Stands m Wt440.sameCode (fun c d => c.payload = d.payload) frames) ∧
        ((∀ c ∈ frames, ∀ d ∈ frames, c.compared = d.compared ↔ c.payload = d.payload) →
          (CallsBackAfter m (fun c d => c.payload = d.payload) es ↔
            NoRun 256 (fun c d => c.payload = d.payload) frames))) ∧
    (∀ xs, Sent (Auriol.Pause b) (Auriol.IsSentAs b) xs (measured edge2 times) →
      let es := Mealy.events (Auriol.interruptHandler b) (Auriol.init m edge2) times
      let frames := xs.map (Auriol.frameCode b)
      codes es = frames ∧
        (CallsBackAfter m (fun c d => c.payload = d.payload) es ↔
          Stands m Auriol.sameCode (fun c d => c.payload = d.payload) frames) ∧
        ((∀ c ∈ frames, ∀ d ∈ frames, c.compared = d.compared ↔ c.payload = d.payload) →
          (CallsBackAfter m (fun c d => c.payload = d.payload) es ↔
            NoRun 256 (fun c d => c.payload = d.payload) frames))) :=
  ⟨fun _ h => Livolo.callsBack_iff hpos hbyte edge2 h,
    fun _ h => Kopou.callsBack_iff hpos hbyte edge2 h,
    fun _ h => Quhwa.callsBack_iff hpos hbyte edge2 h,
    fun _ h => Wt440.callsBack_iff hpos hbyte edge2 h,
    fun _ h => Auriol.callsBack_iff hpos hbyte edge2 h⟩

/-- Two frames of zeros for each receiver. -/
theorem callbacks_as_promised_iff_example :
    let livolo := (List.replicate 2 (500 :: (List.replicate 23 [100, 100]).flatten)).flatten
    let kopou := (List.replicate 2 (600 :: (List.replicate 24 [120, 240]).flatten)).flatten
    let quhwa := (List.replicate 2 (6000 :: List.replicate 35 350)).flatten
    let wt440 := (List.replicate 2 (50000 :: (⟨0, 0, 0, 0, 0, false⟩ : Wt440.Message).widths)).flatten
    let auriol := (List.replicate 2 (9000 :: (List.replicate 32 [500, 2000]).flatten)).flatten
    (let xs := List.replicate 2 (List.replicate 23 false)
      let es := Mealy.events (Livolo.interruptHandler .avr) (Livolo.init 2 (micros 0))
        (stamps 0 livolo)
      codes es = xs.map Livolo.frameCode ∧
        (CallsBackAfter 2 (fun c d => c.payload = d.payload) es ↔
          NoRun 256 (fun c d => c.payload = d.payload) (xs.map Livolo.frameCode))) ∧
    (let xs := List.replicate 2 (600, List.replicate 24 false)
      let es := Mealy.events (Kopou.interruptHandler .avr) (Kopou.init 2 (micros 0))
        (stamps 0 kopou)
      codes es = xs.map (fun x => Kopou.frameCode x.1 x.2) ∧
        (CallsBackAfter 2 (fun c d => c.payload = d.payload) es ↔
          NoRun 256 (fun c d => c.payload = d.payload)
            (xs.map fun x => Kopou.frameCode x.1 x.2))) ∧
    (let xs := List.replicate 2 (6000, List.replicate 35 false)
      let es := Mealy.events (Quhwa.interruptHandler .avr) (Quhwa.init 2 (micros 0))
        (stamps 0 quhwa)
      codes es = xs.map (fun x => Quhwa.frameCode x.1 x.2) ∧
        (CallsBackAfter 2 (fun c d => c.payload = d.payload) es ↔
          NoRun 256 (fun c d => c.payload = d.payload)
            (xs.map fun x => Quhwa.frameCode x.1 x.2))) ∧
    (let xs : List Wt440.Message := List.replicate 2 ⟨0, 0, 0, 0, 0, false⟩
      let es := Mealy.events Wt440.interruptHandler (Wt440.init 2 (micros 0)) (stamps 0 wt440)
      let frames := xs.map fun x => x.code 64
      codes es = frames ∧
        (CallsBackAfter 2 (fun c d => c.payload = d.payload) es ↔
          Stands 2 Wt440.sameCode (fun c d => c.payload = d.payload) frames) ∧
        ((∀ c ∈ frames, ∀ d ∈ frames, c.compared = d.compared ↔ c.payload = d.payload) →
          (CallsBackAfter 2 (fun c d => c.payload = d.payload) es ↔
            NoRun 256 (fun c d => c.payload = d.payload) frames))) ∧
    (let xs := List.replicate 2 (List.replicate 32 false)
      let es := Mealy.events (Auriol.interruptHandler .avr) (Auriol.init 2 (micros 0))
        (stamps 0 auriol)
      let frames := xs.map (Auriol.frameCode .avr)
      codes es = frames ∧
        (CallsBackAfter 2 (fun c d => c.payload = d.payload) es ↔
          Stands 2 Auriol.sameCode (fun c d => c.payload = d.payload) frames) ∧
        ((∀ c ∈ frames, ∀ d ∈ frames, c.compared = d.compared ↔ c.payload = d.payload) →
          (CallsBackAfter 2 (fun c d => c.payload = d.payload) es ↔
            NoRun 256 (fun c d => c.payload = d.payload) frames))) := by
  -- each receiver hears two equal frames, the bits all 0
  intro livolo kopou quhwa wt440 auriol
  have hpromise := callbacks_as_promised_iff .avr 2 (by decide) (by decide) (micros 0)
  have hmeasured : ∀ ws : List ℕ, (∀ d ∈ ws, d < 2 ^ 32) →
      measured (micros 0) (stamps 0 ws) = ws := fun ws h => measured_stamps h
  refine ⟨(hpromise (stamps 0 livolo)).1 _ ?_, (hpromise (stamps 0 kopou)).2.1 _ ?_,
    (hpromise (stamps 0 quhwa)).2.2.1 _ ?_, (hpromise (stamps 0 wt440)).2.2.2.1 _ ?_,
    (hpromise (stamps 0 auriol)).2.2.2.2 _ ?_⟩
  · rw [hmeasured _ (by decide +kernel)]
    refine sent_replicate (p := []) (by simp [Livolo.Pause]) ?_ 2
    exact Livolo.IsSentAs.intro (List.length_replicate) (by decide) (by decide)
      (Mealy.forall₂_replicate (Livolo.Word.zero (by decide) (by decide) (by decide) (by decide)) 23)
  · rw [hmeasured _ (by decide +kernel)]
    refine sent_replicate (p := []) (by simp [Kopou.Pause]) ?_ 2
    exact Kopou.IsSentAs.intro rfl (List.length_replicate) ⟨by decide, by decide⟩
      (Mealy.forall₂_replicate (Kopou.Word.zero (by decide) (by decide) (by decide) (by decide)) 24)
  · rw [hmeasured _ (by decide +kernel)]
    refine sent_replicate (p := []) (by simp [Quhwa.Pause]) ?_ 2
    exact Quhwa.IsSentAs.intro rfl (List.length_replicate) ⟨by decide, by decide⟩
      (Mealy.forall₂_replicate ⟨by decide, by decide, by decide⟩ 35)
  · rw [hmeasured _ (by decide +kernel)]
    refine sent_replicate (p := [50000]) ?_ (Wt440.isSentAs_widths _) 2
    exact Wt440.Pause.intro (by decide) (by simp)
  · rw [hmeasured _ (by decide +kernel)]
    refine sent_replicate (p := []) (by simp [Auriol.Pause]) ?_ 2
    exact Auriol.IsSentAs.intro (List.length_replicate) ⟨by decide, by decide⟩
      (Mealy.forall₂_replicate (Auriol.Word.bit (b := .avr) (p := 500) (d := 2000)
        ⟨by decide, by decide⟩ ⟨by decide, by decide, by decide⟩) 32)

/-- Two WT440 frames that differ in the constant only are taken for the same; and the 256th of equal
Livolo frames is not called back. -/
theorem callbacks_not_as_promised :
    let readings : List Wt440.Message := [⟨10, 2, 0, 50, 9000, false⟩, ⟨10, 2, 7, 50, 9000, false⟩]
    let wt440 := readings.flatMap fun x => 50000 :: x.widths
    let buttons := List.replicate 256 (List.replicate 23 false)
    let livolo := (List.replicate 256 (500 :: (List.replicate 23 [100, 100]).flatten)).flatten
    (Sent Wt440.Pause Wt440.Message.IsSentAs readings (measured (micros 0) (stamps 0 wt440)) ∧
      ¬CallsBackAfter 2 (fun c d => c.payload = d.payload)
        (Mealy.events Wt440.interruptHandler (Wt440.init 2 (micros 0)) (stamps 0 wt440))) ∧
    (Sent (Livolo.Pause .avr) (Livolo.IsSentAs .avr) buttons
        (measured (micros 0) (stamps 0 livolo)) ∧
      ¬CallsBackAfter 1 (fun c d => c.payload = d.payload)
        (Mealy.events (Livolo.interruptHandler .avr) (Livolo.init 1 (micros 0))
          (stamps 0 livolo))) := by
  intro readings wt440 buttons livolo
  have hmeasured : ∀ ws : List ℕ, (∀ d ∈ ws, d < 2 ^ 32) →
      measured (micros 0) (stamps 0 ws) = ws := fun ws h => measured_stamps h
  have hreadings : Sent Wt440.Pause Wt440.Message.IsSentAs readings
      (measured (micros 0) (stamps 0 wt440)) := by
    have hpause : Wt440.Pause [50000] := Wt440.Pause.intro (by decide) (by simp)
    rw [hmeasured _ (by decide +kernel)]
    exact Sent.cons (p := [50000]) hpause (Wt440.isSentAs_widths _)
      (Sent.cons (p := [50000]) hpause (Wt440.isSentAs_widths _) Sent.nil)
  have hbuttons : Sent (Livolo.Pause .avr) (Livolo.IsSentAs .avr) buttons
      (measured (micros 0) (stamps 0 livolo)) := by
    rw [hmeasured]
    · refine sent_replicate (p := []) (by simp [Livolo.Pause]) ?_ 256
      exact Livolo.IsSentAs.intro (List.length_replicate) (by decide) (by decide)
        (Mealy.forall₂_replicate (Livolo.Word.zero (by decide) (by decide) (by decide) (by decide)) 23)
    · intro d hd
      rcases List.mem_flatten.1 hd with ⟨w, hw, hd⟩
      rw [List.eq_of_mem_replicate hw] at hd
      have hwidths : ∀ e ∈ 500 :: (List.replicate 23 [100, 100]).flatten, e < 2 ^ 32 := by decide
      exact hwidths d hd
  refine ⟨⟨hreadings, ?_⟩, hbuttons, ?_⟩
  · rw [(Wt440.callsBack_iff (by decide) (by decide) (micros 0) hreadings).2.1]
    intro hstands
    -- the constants of the last two frames differ, but their run has two frames
    have hrun := (hstands 1 (by decide)).1 ⟨[], _, rfl, rfl, by decide⟩
    rcases hrun.2 (by decide) with ⟨early, last, hsplit, hlen, hall⟩
    have hlast : last = readings.map fun x => x.code 64 := by
      have hsame := List.append_inj' ((List.nil_append _).trans hsplit) hlen.symm
      exact hsame.2.symm
    exact absurd (hall _ (by rw [hlast]; exact List.mem_cons_self) _
      (by rw [hlast]; exact List.mem_cons_of_mem _ List.mem_cons_self)) (by decide)
  · rw [(Livolo.callsBack_iff le_rfl (by decide) (micros 0) hbuttons).2]
    intro hshort
    have hlen : (buttons.map Livolo.frameCode).length = 256 := by
      rw [List.length_map]
      exact List.length_replicate
    refine hshort 255 (by rw [hlen]; decide) ⟨[], _, (List.nil_append _).symm, ?_, ?_⟩
    · rw [List.length_take, hlen]
      rfl
    · intro c hc d hd
      have heq : ∀ e ∈ (buttons.map Livolo.frameCode).take (255 + 1),
          e = Livolo.frameCode (List.replicate 23 false) := by
        intro e he
        rcases List.mem_map.1 (List.mem_of_mem_take he) with ⟨x, hx, rfl⟩
        rw [List.eq_of_mem_replicate hx]
      rw [heq c hc, heq d hd]

end LamPI
