import LamPI.ArduinoGateway.Signals
import LamPI.EspGateway.Pipeline

/-!
# What the daemon is told

A gateway hears the handsets, the other gateways and its own transmitter.  What it hears goes through
the queue to the daemon, unless the address is one of those that the daemon sends to: so nothing that
the daemon has asked for comes back to it.
-/

namespace LamPI
namespace EspGateway

open ArduinoGateway (Handler Layout Signal KakuValue callsOf edgesOf Hears WaitsEach)
open PulseLine

/-! ## What is queued for a signal -/

/-- `val` and the end of `message`. -/
def levelTexts : KakuValue → String × String
  | .on => ("on", "1")
  | .off => ("off", "0")
  | .level n => if n.val = 0 then ("off", "0") else (padded (n * 2), "dP" ++ toString (n.val * 2))

/-- The items; those for Quhwa are not queued, and neither are telegrams with the period of the
gateways' transmitters. -/
def queued : Signal → List QueueItem
  | .kaku address unit value =>
      [{ gaddr := address, uaddr := unit, val := .val (levelTexts value).1, action := "handset",
         cmd := "kaku", message := device address unit ++ (levelTexts value).2 }]
  | .action _ _ _ => []
  | .livolo group unit =>
      [{ gaddr := group, uaddr := unit, val := .val "1", action := "handset", cmd := "livolo",
         message := device group unit ++ "1" }]
  | .quhwa _ _ => []

/-- The message of a dimmer has room for its numbers. -/
def Short : Signal → Prop
  | .kaku address unit (.level n) =>
      n.val = 0 ∨ decimals address + decimals unit + decimals (n * 2) ≤ 9
  | _ => True

def told (x : Signal) : List QueueItem := if A_RESERVED_ADDRESS < x.group then queued x else []

/-- The item that the main loop takes off the queue. -/
def Item.read : Item → Option QueueItem
  | .full item => some item
  | .raw item => item.read

def Item.WellFormed : Item → Prop
  | .full _ => True
  | .raw item => item.WellFormed

def Reads (is : List Item) (qis : List QueueItem) : Prop :=
  is.map Item.read = qis.map some ∧ ∀ item ∈ is, item.WellFormed

theorem Reads.append {is is' : List Item} {qis qis' : List QueueItem} (h : Reads is qis)
    (h' : Reads is' qis') : Reads (is ++ is') (qis ++ qis') := by
  constructor
  · rw [List.map_append, List.map_append, h.1, h'.1]
  · intro item hitem
    rcases List.mem_append.1 hitem with hitem | hitem
    · exact h.2 item hitem
    · exact h'.2 item hitem

theorem Reads.copies {is : List Item} {qis : List QueueItem} (h : Reads is qis) (k : ℕ) :
    Reads (List.replicate k is).flatten (List.replicate k qis).flatten := by
  induction k with
  | zero => exact ⟨rfl, fun item hitem => absurd hitem List.not_mem_nil⟩
  | succ k ih =>
      rw [List.replicate_succ, List.replicate_succ, List.flatten_cons, List.flatten_cons]
      exact h.append ih

/-- An address that the daemon uses leaves room for any level. -/
theorem short_of_reserved {x : Signal} (h : x.group ≤ A_RESERVED_ADDRESS) : Short x := by
  cases x with
  | kaku address unit value =>
      cases value with
      | level n =>
          have haddress : decimals address.val ≤ 3 :=
            decimals_le (by decide) (lt_of_le_of_lt h (by decide))
          have hunit : decimals unit.val ≤ 2 := decimals_le (by decide) (by omega)
          have hlevel : decimals (n.val * 2) ≤ 2 := decimals_le (by decide) (by omega)
          exact Or.inr (by omega)
      | on => trivial
      | off => trivial
  | action group unit on => trivial
  | livolo group unit => trivial
  | quhwa group unit => trivial

/-! ## What the callbacks queue -/

/-- The code that was sent, however it is read. -/
theorem showKakuCode_transmitted (queue : List RawItem) (address : Fin (2 ^ 26)) (unit : Fin 16)
    (value : KakuValue) (present : Bool) :
    let y := (value.command unit).telegram address
    showKakuCode queue (Kaku.transmitted 260 (present || y.dim.isSome) y) =
      queue ++
        [{ gaddr := address, uaddr := unit, val := some (levelTexts value).1,
           action := some "handset", cmd := some "kaku",
           message := some (device address unit ++ (levelTexts value).2) }] := by
  have haddress : ∀ cmd : Kaku.Command, ((cmd.telegram address).address : ℕ) = address := by
    intro cmd
    rw [Kaku.address_telegram]
    exact Nat.mod_eq_of_lt address.isLt
  cases value with
  | on => simp only [showKakuCode, Kaku.transmitted, haddress]; rfl
  | off => simp only [showKakuCode, Kaku.transmitted, haddress]; rfl
  | level n =>
      by_cases hzero : n.val = 0
      · rw [KakuValue.command, if_pos hzero, levelTexts, if_pos hzero]
        simp only [showKakuCode, Kaku.transmitted, haddress]
        rfl
      · rw [KakuValue.command, if_neg hzero, levelTexts, if_neg hzero]
        simp only [showKakuCode, Kaku.transmitted, haddress, ← String.append_assoc]
        simp [Kaku.Command.telegram, Kaku.dimValue]

theorem stored_levelTexts {address : Fin (2 ^ 26)} {unit : Fin 16} {value : KakuValue}
    (h : Short (.kaku address unit value)) :
    Stored 4 (some (levelTexts value).1) ∧
      Stored 16 (some (device address unit ++ (levelTexts value).2)) := by
  have hswitch : ∀ level : String, level.length = 1 →
      Stored 16 (some (device address unit ++ level)) := fun _ =>
    stored_switch address.isLt unit.isLt
  cases value with
  | on => exact ⟨stored_iff.2 (by decide), hswitch "1" rfl⟩
  | off => exact ⟨stored_iff.2 (by decide), hswitch "0" rfl⟩
  | level n =>
      by_cases hzero : n.val = 0
      · rw [levelTexts, if_pos hzero]
        exact ⟨stored_iff.2 (by decide), hswitch "0" rfl⟩
      · rw [levelTexts, if_neg hzero]
        refine ⟨stored_iff.2 (lt_of_le_of_lt (length_padded (by omega)) (by decide)), ?_⟩
        rw [← String.append_assoc]
        exact (stored_dim address unit (n.val * 2)).2 (h.resolve_left hzero)

/-- What a receiver calls back for a signal is queued as items that can be read. -/
theorem reads_told {x : Signal} {c : ArduinoGateway.Call} (h : x.Told c) (hshort : Short x) :
    Reads (items c) (queued x) := by
  have hhandset : Stored 8 (some "handset") := stored_iff.2 (by decide)
  cases h with
  | kaku address unit value present =>
      have hitem := showKakuCode_transmitted [] address unit value present
      rcases stored_levelTexts hshort with ⟨hval, hmessage⟩
      refine ⟨?_, ?_⟩
      · rw [items, hitem]
        rfl
      · rw [items, hitem]
        exact List.forall_mem_singleton.2 ⟨hval, hhandset, stored_iff.2 (by decide), hmessage⟩
  | action group unit on =>
      have hnone : items ⟨.remote, ⟨Remote.value (Remote.actionTrits group unit on), 195⟩⟩ = [] := rfl
      rw [hnone]
      exact ⟨rfl, List.forall_mem_nil _⟩
  | livolo group unit =>
      have hlong : decimals group.val ≤ 5 := decimals_le (by decide) (by omega)
      have hmiddle : decimals unit.val ≤ 3 := decimals_le (by decide) (by omega)
      have hone : toString (1 : ℕ) = "1" := by decide
      have hitem : items ⟨.livolo, Livolo.sentCode group unit⟩ =
          [.raw { gaddr := group, uaddr := unit, val := some "1", action := some "handset",
                  cmd := some "livolo", message := some (device group unit ++ "1") }] := by
        have hbyte : unit.val % 256 = unit.val := Nat.mod_eq_of_lt (by omega)
        simp only [items, showLivoloCode, levelItem, Livolo.sentCode, hone, hbyte]
        rfl
      rw [hitem]
      refine ⟨rfl, List.forall_mem_singleton.2 ⟨stored_iff.2 (by decide), hhandset,
        stored_iff.2 (by decide), stored_iff.2 ?_⟩⟩
      rw [String.length_append, length_device]
      change _ + 1 < 16
      omega
  | quhwa group unit => exact ⟨rfl, List.forall_mem_nil _⟩

/-! ## The main loop -/

/-- `handleQueue` takes items off, at any level of `debug`; in the meantime callbacks print on the
console, count messages and ask for the connection themselves. -/
inductive Handles (connected logged : ℕ → Bool) : Client → List QueueItem → Client → Prop
  | done (c : Client) : Handles connected logged c [] c
  | callback {c c' : Client} {qis : List QueueItem} (console : Console) (asked printed : ℕ)
      (h : Handles connected logged
        { c with console := console, asked := asked, printed := printed } qis c') :
      Handles connected logged c qis c'
  | item {c c' : Client} {qi : QueueItem} {qis : List QueueItem} (debug : ℕ)
      (h : Handles connected logged (handleItem debug connected logged c qi) qis c') :
      Handles connected logged c (qi :: qis) c'

variable {connected logged : ℕ → Bool} {c c' : Client} {qis : List QueueItem}

theorem handles_handleQueue (debug : ℕ) (connected logged : ℕ → Bool) (c : Client)
    (queue : List QueueItem) :
    Handles connected logged c queue (handleQueue debug connected logged c queue).1 := by
  induction queue generalizing c with
  | nil => exact .done c
  | cons qi queue ih => exact .item debug (ih (handleItem debug connected logged c qi))

/-- Of the items that are to be written a part is written, in their order, and all of them if there is
always a connection. -/
theorem Handles.written (h : Handles connected logged c qis c') :
    ∃ kept, kept.Sublist (qis.filter fun qi => qi.Goes) ∧
      c'.written.map Message.item = c.written.map Message.item ++ kept ∧
      ((∀ n, connected n = true) → kept = qis.filter fun qi => qi.Goes) := by
  induction h with
  | done c => exact ⟨[], List.Sublist.refl [], (List.append_nil _).symm, fun _ => rfl⟩
  | callback console asked printed h ih => exact ih
  | @item c c' qi qis debug h ih =>
      rcases ih with ⟨kept, hsub, hwritten, hall⟩
      rw [(handleItem_eq debug connected logged c qi).2, List.append_assoc] at hwritten
      by_cases hgoes : qi.Goes
      · rw [List.filter_cons_of_pos (by simpa using hgoes)]
        cases hconnected : connected c.asked with
        | true =>
            rw [if_pos ⟨hgoes, hconnected⟩] at hwritten
            refine ⟨qi :: kept, hsub.cons_cons qi, hwritten, fun hn => ?_⟩
            rw [hall hn]
        | false =>
            rw [if_neg (by simp [hconnected]), List.nil_append] at hwritten
            refine ⟨kept, hsub.cons qi, hwritten, fun hn => ?_⟩
            rw [hn] at hconnected
            cases hconnected
      · rw [List.filter_cons_of_neg (by simpa using hgoes)]
        rw [if_neg fun hg => hgoes hg.1, List.nil_append] at hwritten
        exact ⟨kept, hsub, hwritten, hall⟩

/-- Whoever handles `qis` writes nothing but `out`, in its order, and all of it if there is always a
connection. -/
def Tells (qis out : List QueueItem) : Prop :=
  ∀ connected logged c c', Handles connected logged c qis c' →
    ∃ kept, kept.Sublist out ∧ c'.written.map Message.item = c.written.map Message.item ++ kept ∧
      ((∀ n, connected n = true) → kept = out)

/-! ## One signal after the other -/

/-- Something for each signal, as often as its receiver has called back. -/
def each (f : Signal → List QueueItem) (xs : List Signal) (ks : List ℕ) : List QueueItem :=
  (List.zipWith (fun x k => (List.replicate k (f x)).flatten) xs ks).flatten

theorem filter_queued (x : Signal) : (queued x).filter (fun qi => qi.Goes) = told x := by
  cases x with
  | kaku address unit value =>
      by_cases hfree : A_RESERVED_ADDRESS < address.val
      · simp [queued, told, Signal.group, QueueItem.Goes, hfree]
      · simp [queued, told, Signal.group, QueueItem.Goes, hfree]
  | action group unit on => simp [queued, told]
  | livolo group unit =>
      by_cases hfree : A_RESERVED_ADDRESS < group.val
      · simp [queued, told, Signal.group, QueueItem.Goes, hfree]
      · simp [queued, told, Signal.group, QueueItem.Goes, hfree]
  | quhwa group unit => simp [queued, told]

theorem filter_each (xs : List Signal) (ks : List ℕ) :
    (each queued xs ks).filter (fun qi => qi.Goes) = each told xs ks := by
  rw [each, each, List.filter_flatten, List.map_zipWith]
  congr 1
  congr 1
  funext x k
  rw [List.filter_flatten, List.map_replicate, filter_queued]

/-- There is a receiver for every signal. -/
theorem handler_mem_chain (x : Signal) : x.handler ∈ chain := by
  cases x <;> simp [Signal.handler, chain]

/-- The items for signals that have been heard. -/
theorem reads_heard {xs : List Signal} {heard : List (ℕ × ArduinoGateway.Call)}
    (h : List.Forall₂ Hears xs heard) (hshort : ∀ x ∈ xs, Short x) :
    Reads ((heard.flatMap fun c => List.replicate c.1 c.2).flatMap items)
      (each queued xs (heard.map Prod.fst)) := by
  induction h with
  | nil => exact ⟨rfl, List.forall_mem_nil _⟩
  | @cons x c xs heard hc h ih =>
      rcases List.forall_mem_cons.1 hshort with ⟨hx, hxs⟩
      have hcopies := (reads_told hc.2.2 hx).copies c.1
      have hfirst : (List.replicate c.1 c.2).flatMap items =
          (List.replicate c.1 (items c.2)).flatten := by
        rw [List.flatMap, List.map_replicate]
      rw [List.flatMap_cons, List.flatMap_append, hfirst]
      exact hcopies.append (ih hxs)

namespace Pipeline

variable {edge0 edge2 : ULong} {past : List (System × Event)} {s : System}

/-! ### Runs without the main loop -/

/-- `addQueue` touches no address that is free, but for the new one. -/
theorem free_addQueue {p a : ℕ} {item : Item} {c c' : WifiQueue.QueueChain Item}
    (h : WifiQueue.AddQueue p item c c') (hne : a ≠ p) (hfree : c.heap a = none) :
    c'.heap a = none := by
  cases h with
  | first hqueue hp => exact (Function.update_of_ne hne _ _).trans hfree
  | @behind q walk l hqueue hwalk hl hp =>
      have hne' : a ≠ walk := by
        rintro rfl
        rw [hfree] at hl
        cases hl
      exact (Function.update_of_ne hne _ _).trans ((Function.update_of_ne hne' _ _).trans hfree)

/-- There is a chain in the memory, and room behind an address. -/
def Roomy (q : WifiQueue.System Item) : Prop :=
  (∃ ls, LinkedList.Chain q.chain.heap q.chain.queue ls) ∧ ∃ n, ∀ p, n ≤ p → q.chain.heap p = none

theorem exists_addItems {q : WifiQueue.System Item} (h : Roomy q) (is : List Item) :
    ∃ q', AddItems is q q' ∧ Roomy q' := by
  induction is generalizing q with
  | nil => exact ⟨q, .nil q, h⟩
  | cons item rest ih =>
      rcases h with ⟨⟨ls, hchain⟩, n, hroom⟩
      rcases WifiQueue.exists_addQueue hchain (hroom n le_rfl) item with ⟨c, hadd⟩
      have hnext : Roomy { q with chain := c, added := q.added ++ [item] } := by
        refine ⟨⟨_, hadd.chain hchain⟩, n + 1, fun p hp => ?_⟩
        exact free_addQueue hadd (by omega) (hroom p (by omega))
      rcases ih hnext with ⟨q', hrest, hroomy⟩
      exact ⟨q', .cons (WifiQueue.Step.interrupt n item hadd) hrest, hroomy⟩

/-- Whatever edges come, there is a run in which the main loop does nothing. -/
theorem exists_run (receivers : (h : Handler) → h.State) (layout : Layout) (ts : List ℕ) :
    ∃ past s, Run receivers past s ∧ s.layout = layout ∧ times past = ts ∧
      ∀ t, (t, Event.main) ∉ past := by
  suffices hsuff : ∃ past s, Run receivers past s ∧ s.layout = layout ∧ times past = ts ∧
      (∀ t, (t, Event.main) ∉ past) ∧ Roomy s.queue by
    rcases hsuff with ⟨past, s, hrun, hlayout, htimes, hnone, -⟩
    exact ⟨past, s, hrun, hlayout, htimes, hnone⟩
  induction ts using List.reverseRecOn with
  | nil =>
      refine ⟨[], _, .start (fun _ => none) layout, rfl, rfl, fun t => List.not_mem_nil, ⟨[], .nil⟩, 0,
        ?_⟩
      exact fun p _ => rfl
  | append_singleton ts now ih =>
      rcases ih with ⟨past, s, hrun, hlayout, htimes, hnone, hroomy⟩
      rcases exists_addItems hroomy (s.added now) with ⟨q, hadd, hroomy'⟩
      have hnext := hrun.step (.edge now hadd)
      refine ⟨past ++ [(s, .edge now)], _, hnext, ?_⟩
      refine ⟨hlayout, ?_, fun t ht => ?_, hroomy'⟩
      · have hlast : times [(s, Event.edge now)] = [now] := rfl
        rw [times, List.filterMap_append, ← times, ← times, htimes, hlast]
      · rcases List.mem_append.1 ht with ht | ht
        · exact hnone t ht
        · cases List.mem_singleton.1 ht

/-! ### What has been heard -/

/-- A gateway has heard anything since `setup`, and then signals, its receivers waiting before each.
As long as the main loop never writes a `next` that an interrupt has changed, it gets the items of
what was heard before, and then items for the signals.  If the sketch reads the codes as the library
passes them, and the arrays hold the texts of those that are to be told, these items can be read, and
of them it sends the daemon nothing if the address is reserved; of the others a part, in their order,
and all of them if there is a connection whenever it asks.  What `printConsole` writes is something
else. -/
theorem signals_told (h : Run (ArduinoGateway.initReceivers edge0 edge2) past s) {before : List ℕ}
    {xs : List Signal} {sends : List (ℕ × List Action)} (htimes : times past = before ++ edgesOf sends)
    (hsends : List.Forall₂ Signal.SentAs xs sends)
    (hwaits : WaitsEach .esp8266 chain (Listeners.final interruptHandler chain
      (ArduinoGateway.initReceivers edge0 edge2) before) sends)
    (htimely : ∀ t, (t, Event.main) ∈ past → t.queue.Timely)
    (hintact : ∀ x ∈ xs, s.layout.Intact x.handler)
    (hshort : ∀ x ∈ xs, A_RESERVED_ADDRESS < x.group → Short x) :
    let heard := callsOf .esp8266 chain (ArduinoGateway.initReceivers edge0 edge2) before
    ∃ ks earlier new qis waiting,
      List.Forall₂ (fun x k => x.copies.1 ≤ k ∧ k ≤ x.copies.2) xs ks ∧
      earlier = (s.layout.reads 0 heard).flatMap items ∧
      s.queue.chain.Holds waiting ∧
      s.queue.returned ++ s.queue.removing ++ waiting = earlier ++ new ∧
      (s.queue.Timely → ∃ n q, WifiQueue.mainLoop n s.queue = some q ∧ q.returned = earlier ++ new) ∧
      Reads new qis ∧ Tells qis (each told xs ks) := by
  rcases h.queue with ⟨before', hrun, hmains⟩
  have hinv := WifiQueue.inv_run hrun fun t ht => by
    rcases hmains t ht with ⟨u, hu, rfl⟩
    exact htimely u hu
  rcases hinv with ⟨ls, hinv⟩
  rcases hinv.complete with ⟨waiting, hholds, hall⟩
  have hready := ArduinoGateway.ready_final (b := .esp8266) chain_nodup
    (fun h _ => ArduinoGateway.ready_initReceivers edge0 edge2 h) before
  rcases ArduinoGateway.callsOf_edgesOf hsends chain_nodup (fun x _ => handler_mem_chain x) hready
    hwaits with
    ⟨heard, hheard, hcalls⟩
  have hshort' : ∀ x ∈ xs, Short x := by
    intro x hx
    rcases Nat.lt_or_ge A_RESERVED_ADDRESS x.group with hfree | hreserved
    · exact hshort x hx hfree
    · exact short_of_reserved hreserved
  have hadded : s.queue.added =
      (s.layout.reads 0 (callsOf .esp8266 chain (ArduinoGateway.initReceivers edge0 edge2)
        before)).flatMap items ++ (heard.flatMap fun c => List.replicate c.1 c.2).flatMap items := by
    rw [h.added_eq.2.2, htimes, ArduinoGateway.callsOf_append, hcalls,
      ArduinoGateway.Layout.reads_append, ArduinoGateway.reads_heard hheard hintact,
      List.flatMap_append]
  refine ⟨heard.map Prod.fst, _, _, _, waiting, ?_, rfl, hholds, hall.trans hadded,
    fun hlast => hadded ▸ WifiQueue.exists_drained hinv hlast, reads_heard hheard hshort', ?_⟩
  · rw [List.forall₂_map_right_iff]
    exact hheard.imp fun x c hc => ⟨hc.1, hc.2.1⟩
  · intro connected logged c c' hhandles
    rw [← filter_each]
    exact hhandles.written

/-- A lamp of the daemon's is switched on, and the gateway hears its own transmission. -/
theorem signals_told_example :
    let x := Signal.kaku 100 3 .on
    let heard := callsOf .esp8266 chain (ArduinoGateway.initReceivers 0 0) []
    ∃ past s, Run (ArduinoGateway.initReceivers 0 0) past s ∧
      times past = [] ++ edgesOf [(1800, x.send .esp8266)] ∧
      ∃ ks earlier new qis waiting,
        List.Forall₂ (fun x k => x.copies.1 ≤ k ∧ k ≤ x.copies.2) [x] ks ∧
        earlier = (s.layout.reads 0 heard).flatMap items ∧
        s.queue.chain.Holds waiting ∧
        s.queue.returned ++ s.queue.removing ++ waiting = earlier ++ new ∧
        (s.queue.Timely → ∃ n q, WifiQueue.mainLoop n s.queue = some q ∧
          q.returned = earlier ++ new) ∧
        Reads new qis ∧ Tells qis (each told [x] ks) := by
  intro x heard
  rcases exists_run (ArduinoGateway.initReceivers 0 0) .same
    ([] ++ edgesOf [(1800, x.send .esp8266)]) with
    ⟨past, s, hrun, hlayout, htimes, hnone⟩
  have hsends : List.Forall₂ Signal.SentAs [x] [(1800, x.send .esp8266)] :=
    .cons ⟨.esp8266, rfl⟩ .nil
  have hwaits : WaitsEach .esp8266 chain (Listeners.final interruptHandler chain
      (ArduinoGateway.initReceivers 0 0) []) [(1800, x.send .esp8266)] :=
    ⟨fun h _ => ArduinoGateway.waits_initReceivers .esp8266 h, trivial⟩
  have hintact : ∀ y ∈ [x], s.layout.Intact y.handler := fun y _ =>
    hlayout ▸ ArduinoGateway.intact_same y.handler
  have hshort : ∀ y ∈ [x], A_RESERVED_ADDRESS < y.group → Short y :=
    List.forall_mem_singleton.2 fun _ => trivial
  exact ⟨past, s, hrun, htimes, signals_told hrun htimes hsends hwaits
    (fun t ht => absurd ht (hnone t)) hintact hshort⟩

end Pipeline
end EspGateway
end LamPI
