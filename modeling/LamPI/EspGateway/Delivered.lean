import LamPI.EspGateway.Echo
import LamPI.EspGateway.OnBoard
import LamPI.Ranges

/-!
# What the daemon reads

The receivers bound the numbers of an item, and no callback prints a character that needs an escape.
So unlike the messages of the log those to the daemon always fit, and what is read from them is what
was meant.
-/

namespace LamPI
namespace EspGateway

open ArduinoGateway (Handler Layout Signal edgesOf WaitsEach)

variable {qi : QueueItem}

/-! ## What the callbacks add -/

def Delivered : ArduinoGateway.Call → Prop
  | ⟨.auriol, c⟩ => c.InRange ∧ c.channel = 0
  | ⟨.remote, _⟩ => True
  | ⟨.kaku, c⟩ => c.InRange
  | ⟨.livolo, c⟩ => c.address < 2 ^ 32
  | ⟨.kopou, _⟩ => True
  | ⟨.quhwa, _⟩ => True
  | ⟨.wt440, c⟩ => c.Typed

theorem delivered (edge0 edge2 : ULong) (times : List ℕ) (h : Handler) :
    ∀ c ∈ callbacks (Mealy.events (interruptHandler h)
      (ArduinoGateway.initReceivers edge0 edge2 h) times), Delivered ⟨h, c⟩ := by
  cases h with
  | auriol =>
      exact fun c hc =>
        ⟨Auriol.callbacks_inRange _ _ _ _ c hc, Auriol.callbacks_channel _ _ _ _ c hc⟩
  | remote => exact fun c hc => trivial
  | kaku => exact Kaku.callbacks_inRange _ _ _ _ _
  | livolo => exact fun c hc => lt_trans (Livolo.callbacks_inRange _ _ _ _ c hc).1 (by decide)
  | kopou => exact fun c hc => trivial
  | quhwa => exact fun c hc => trivial
  | wt440 => exact Wt440.callbacks_typed _ _ _

/-- However the sketch reads it. -/
theorem Delivered.read {c : ArduinoGateway.Call} (h : Delivered c) (l : Layout) (n : ℕ) :
    Delivered (l.read n c) := by
  rcases c with ⟨_ | _ | _ | _ | _ | _ | _, c⟩
  case livolo => exact l.typed n c h
  case kopou => trivial
  all_goals exact h

theorem delivered_reads {cs : List ArduinoGateway.Call} (h : ∀ c ∈ cs, Delivered c) (l : Layout)
    (n : ℕ) : ∀ c ∈ l.reads n cs, Delivered c := by
  intro c hc
  rcases List.mem_mapIdx.1 hc with ⟨i, hi, rfl⟩
  exact (h _ (List.getElem_mem hi)).read l (n + i)

/-- The message that names a device. -/
theorem plain_device (address unit : ℕ) : ArduinoJson.Plain (device address unit).toList := by
  have hopen : ArduinoJson.Plain ("!A" ++ toString address).toList :=
    plain_append (by decide) (plain_natText address)
  have hmiddle : ArduinoJson.Plain ("!A" ++ toString address ++ "D" ++ toString unit).toList :=
    plain_append (plain_append hopen (by decide)) (plain_natText unit)
  exact plain_append hmiddle (by decide)

theorem plain_padded (n : ℕ) : ArduinoJson.Plain (padded n).toList := by
  unfold padded
  split
  · exact plain_append (by decide) (plain_natText n)
  · exact plain_natText n

/-- What a callback for a handset makes, if the arrays hold the texts. -/
theorem printable_raw {gaddr uaddr : ℕ} {val cmd message : String} (hgaddr : gaddr < 2 ^ 32)
    (huaddr : uaddr < 2 ^ 8) (hval : ArduinoJson.Plain val.toList)
    (hcmd : ArduinoJson.Plain cmd.toList) (hmessage : ArduinoJson.Plain message.toList)
    {item : RawItem} (hitem : item =
      { gaddr := gaddr, uaddr := uaddr, val := some val, action := some "handset",
        cmd := some cmd, message := some (device gaddr uaddr ++ message) })
    (hwell : item.WellFormed) (hread : item.read = some qi) : qi.Printable := by
  rw [hitem] at hwell hread
  cases hread
  exact printable_handset hgaddr huaddr ⟨stored_iff.1 hwell.val, hval⟩
    ⟨stored_iff.1 hwell.cmd, hcmd⟩
    ⟨stored_iff.1 hwell.message, plain_append (plain_device _ _) hmessage⟩

theorem printable_wt440 {c : Wt440.Code} (h : c.Typed) (hqi : qi ∈ showWt440Code [] c) :
    qi.Printable := by
  have htemperature : |(c.temperature : ℚ)| ≤ 2 ^ 15 := by exact_mod_cast h.temperature
  have hhumidity : |(c.humidity : ℚ)| ≤ 2 ^ 15 := by
    rw [Nat.abs_cast]
    have hlt := h.humidity
    exact_mod_cast (by omega : c.humidity ≤ 2 ^ 15)
  have hitem : ∀ label ∈ ["pir", "battery", "temperature", "humidity", "airpressure"], ∀ x : ℚ,
      |x| < 2 ^ 31 → (wt440Item c label x).Printable := by
    intro label hlabel x hx
    have hword : ∀ label ∈ ["pir", "battery", "temperature", "humidity", "airpressure"],
        label.length < 16 ∧ ArduinoJson.Plain label.toList ∧ label ∉ sensorKeys := by decide
    rcases hword label hlabel with ⟨hlength, hplain, hfresh⟩
    exact printable_sensor h.address h.channel ⟨by decide, by decide⟩ ⟨hlength, hplain⟩ hfresh hx
  have hwhole : ∀ x : ℚ, |x| ≤ 2 ^ 15 → |float x| < 2 ^ 31 := by
    intro x hx
    have hfloat := abs_float_le x
    linarith only [hx, hfloat]
  have hdegrees : |degrees c.temperature| < 2 ^ 31 := by
    have hoffset : |c.temperature - 6400| ≤ 2 ^ 16 := by
      rcases abs_le.1 h.temperature with ⟨hlo, hhi⟩
      exact abs_le.2 ⟨by omega, by omega⟩
    have hoffset' : |((c.temperature - 6400 : ℤ) : ℚ)| ≤ 2 ^ 16 := by exact_mod_cast hoffset
    have hquotient : |degrees c.temperature| ≤ 4 * (|((c.temperature - 6400 : ℤ) : ℚ)| / 128) :=
      abs_quotient_le (by norm_num)
    linarith only [hoffset', hquotient]
  have hbattery : |float (float c.temperature / 10)| < 2 ^ 31 :=
    abs_tenths_lt (h.temperature.trans_lt (by decide))
  unfold showWt440Code at hqi
  split at hqi
  · rw [List.mem_singleton.1 hqi]
    exact hitem _ (by decide) _ (hwhole _ htemperature)
  · rw [List.mem_singleton.1 hqi]
    exact hitem _ (by decide) _ hbattery
  · rcases List.mem_append.1 hqi with hqi | hqi
    · rw [List.mem_singleton.1 hqi]
      exact hitem _ (by decide) _ hdegrees
    · rw [List.mem_singleton.1 hqi]
      exact hitem _ (by decide) _ (hwhole _ hhumidity)
  · rcases List.mem_append.1 hqi with hqi | hqi
    · rw [List.mem_singleton.1 hqi]
      exact hitem _ (by decide) _ hdegrees
    · rw [List.mem_singleton.1 hqi]
      exact hitem _ (by decide) _ (hwhole _ hhumidity)
  · cases hqi

theorem printable_auriol {c : Auriol.Code} (h : c.InRange) (hchannel : c.channel = 0)
    (hqi : qi ∈ showAuriolCode [] c) : qi.Printable := by
  rcases h with ⟨haddress, -, hlo, hhi, -⟩
  have hreading : |float (float c.temperature / 10)| < 2 ^ 31 :=
    abs_tenths_lt (abs_lt.2 ⟨by omega, by omega⟩)
  rw [List.mem_singleton.1 hqi]
  exact printable_sensor haddress (hchannel.trans_lt (by decide)) ⟨by decide, by decide⟩
    ⟨by decide, by decide⟩ (by decide) hreading

theorem printable_remote {code period : ℕ} (hqi : qi ∈ showRemoteCode [] code period) :
    qi.Printable := by
  have haddress : (Remote.readCode code).address < 32 := Remote.readAddress_lt _
  have hunit : (Remote.readCode code).unit < 5 := Remote.readUnit_lt _
  unfold showRemoteCode at hqi
  split at hqi
  · rw [List.mem_singleton.1 hqi]
    generalize Remote.readCode code = r at haddress hunit
    have hval : Word 4 (if r.level = 20 then "on" else "on") := by
      split
      · exact ⟨by decide, by decide⟩
      · exact ⟨by decide, by decide⟩
    have hlevel : (if r.level = 20 then 0 else 1) < 10 ^ 1 := by
      split
      · decide
      · decide
    generalize (if r.level = 20 then 0 else 1) = level at hlevel
    have hmessage : Word 16 (device r.address r.unit ++ toString level) := by
      refine ⟨?_, plain_append (plain_device _ _) (plain_natText _)⟩
      have hlong : decimals r.address ≤ 2 := decimals_le (by decide) (by omega)
      have hshort : decimals r.unit ≤ 1 := decimals_le (by decide) (by omega)
      have hlast : decimals level ≤ 1 := decimals_le (by decide) hlevel
      rw [String.length_append, length_device]
      change _ + decimals level < 16
      omega
    exact printable_handset (lt_trans haddress (by decide)) (lt_trans hunit (by decide)) hval
      ⟨by decide, by decide⟩ hmessage
  · cases hqi

theorem printable_kaku {c : Kaku.Code} (h : c.InRange) {item : RawItem}
    (hitem : item ∈ showKakuCode [] c) (hwell : item.WellFormed) (hread : item.read = some qi) :
    qi.Printable := by
  rcases h with ⟨haddress, hunit, -⟩
  have hgaddr : c.address < 2 ^ 32 := lt_trans haddress (by decide)
  have huaddr : c.unit < 2 ^ 8 := lt_trans hunit (by decide)
  have hitem := List.mem_singleton.1 hitem
  cases hswitch : c.switchType with
  | off =>
      rw [hswitch] at hitem
      exact printable_raw hgaddr huaddr (by decide) (by decide) (by decide) hitem hwell hread
  | on =>
      rw [hswitch] at hitem
      exact printable_raw hgaddr huaddr (by decide) (by decide) (by decide) hitem hwell hread
  | dim =>
      rw [hswitch] at hitem
      cases hpresent : c.dimLevelPresent with
      | true =>
          simp only [hpresent, if_true, String.append_assoc] at hitem
          exact printable_raw hgaddr huaddr (plain_padded _) (by decide)
            (plain_append (by decide) (plain_natText _)) hitem hwell hread
      | false =>
          -- the arrays are not written
          simp only [hpresent, Bool.false_eq_true, if_false] at hitem
          rw [hitem] at hwell
          exact absurd hwell.val (not_stored_none 4)

/-- The unit becomes a byte, and the level is a number, whatever they are. -/
theorem printable_livolo {c : Livolo.Code} (h : c.address < 2 ^ 32) {item : RawItem}
    (hitem : item ∈ showLivoloCode [] c) (hwell : item.WellFormed) (hread : item.read = some qi) :
    qi.Printable :=
  printable_raw h (Nat.mod_lt _ (by decide)) (plain_natText c.level) (by decide)
    (plain_natText c.level) (List.mem_singleton.1 hitem) hwell hread

/-- Whatever a receiver delivers: the items for it that can be read are printable. -/
theorem printable_items {c : ArduinoGateway.Call} (h : Delivered c) {item : Item}
    (hitem : item ∈ items c) (hwell : item.WellFormed) (hread : item.read = some qi) :
    qi.Printable := by
  rcases c with ⟨j, c⟩
  cases j with
  | auriol =>
      rcases List.mem_map.1 hitem with ⟨qi', hqi, rfl⟩
      cases hread
      exact printable_auriol h.1 h.2 hqi
  | remote =>
      rcases List.mem_map.1 hitem with ⟨qi', hqi, rfl⟩
      cases hread
      exact printable_remote hqi
  | kaku =>
      rcases List.mem_map.1 hitem with ⟨raw, hraw, rfl⟩
      exact printable_kaku h hraw hwell hread
  | livolo =>
      rcases List.mem_map.1 hitem with ⟨raw, hraw, rfl⟩
      exact printable_livolo h hraw hwell hread
  | kopou => cases hitem
  | quhwa => cases hitem
  | wt440 =>
      rcases List.mem_map.1 hitem with ⟨qi', hqi, rfl⟩
      cases hread
      exact printable_wt440 h hqi

/-! ## Runs of the main loop -/

/-- The main loop takes items off the queue and transmits readings of the sensors on the board, in any
order and at any levels of `debug`; in the meantime callbacks and the rest of the loop print on the
console, count messages and ask for the connection themselves. -/
inductive Loops (connected logged : ℕ → Bool) : Client → List QueueItem → Client → Prop
  | done (c : Client) : Loops connected logged c [] c
  | callback {c c' : Client} {qis : List QueueItem} (console : Console) (asked printed : ℕ)
      (h : Loops connected logged
        { c with console := console, asked := asked, printed := printed } qis c') :
      Loops connected logged c qis c'
  | item {c c' : Client} {qi : QueueItem} {qis : List QueueItem} (debug : ℕ)
      (h : Loops connected logged (handleItem debug connected logged c qi) qis c') :
      Loops connected logged c (qi :: qis) c'
  | transmit {c c' : Client} {qis : List QueueItem} {r : Measurements} {channel : ℕ} {label : String}
      {x : ℚ} (debug : ℕ) (hr : r.InRange) (hx : boardItem channel label x ∈ r.items)
      (h : Loops connected logged
        (SensorTransmit debug connected logged c _ADDR channel "esp8266" label x) qis c') :
      Loops connected logged c qis c'

variable {debug : ℕ} {connected logged : ℕ → Bool} {c c' : Client} {qis : List QueueItem}
  {r : Measurements}

theorem Handles.loops (h : Handles connected logged c qis c') : Loops connected logged c qis c' := by
  induction h with
  | done c => exact .done c
  | callback console asked printed h ih => exact .callback console asked printed ih
  | item debug h ih => exact .item debug ih

/-! ### Reading the sensors at once -/

theorem Loops.log {text : String} {d : ℤ}
    (h : Loops connected logged (c.log debug logged text d) qis c') : Loops connected logged c qis c' :=
  .callback _ _ _ h

theorem Loops.count (h : Loops connected logged c.count qis c') : Loops connected logged c qis c' :=
  .callback _ _ _ h

theorem Loops.readDallas (hr : r.InRange) {i : ℕ} {tempCs : List (Option ℚ)}
    (hmem : ∀ qi ∈ dallasItems i tempCs, qi ∈ r.items)
    (h : Loops connected logged (readDallas debug connected logged c i tempCs) qis c') :
    Loops connected logged c qis c' := by
  induction tempCs generalizing c i with
  | nil => exact h
  | cons tempC tempCs ih =>
      cases tempC with
      | none => exact ih hmem h
      | some x =>
          rcases List.forall_mem_cons.1 hmem with ⟨hfirst, hrest⟩
          have hsent := Loops.transmit debug hr hfirst (ih hrest h)
          split at hsent
          · exact hsent.log
          · exact hsent

theorem Loops.readHTU21D (hr : r.InRange)
    (h : Loops connected logged (readHTU21D debug connected logged c r.humd r.temp) qis c') :
    Loops connected logged c qis c' := by
  unfold EspGateway.readHTU21D at h
  split at h
  · next hvalid =>
    have hmem : ∀ qi ∈ [boardItem 0 "temperature" r.temp, boardItem 0 "humidity" r.humd],
        qi ∈ r.items := by
      intro qi hqi
      rw [Measurements.items, if_pos hvalid]
      simp only [List.mem_append]
      exact Or.inl (Or.inl (Or.inr hqi))
    rcases List.forall_mem_cons.1 hmem with ⟨htemperature, hrest⟩
    have hhumidity := List.forall_mem_singleton.1 hrest
    exact .transmit debug hr htemperature (.transmit debug hr hhumidity h.count)
  · split at h
    · exact h.log
    · exact h

theorem Loops.readBMP085 (hr : r.InRange)
    (h : Loops connected logged
      (readBMP085 debug connected logged c r.calibration r.temperature r.pressure) qis c') :
    Loops connected logged c qis c' := by
  unfold EspGateway.readBMP085 at h
  split at h
  · next hcalibration =>
    split at h
    · next htemperature =>
      have hmem : ∀ qi ∈ [boardItem 1 "temperature" (float (float r.temperature / 10)),
          boardItem 1 "airpressure" (float (r.pressure.tdiv 100 : ℤ))], qi ∈ r.items := by
        intro qi hqi
        rw [Measurements.items, if_pos (c := r.calibration ≠ 998 ∧ _) ⟨hcalibration, htemperature⟩]
        simp only [List.mem_append]
        exact Or.inl (Or.inr hqi)
      rcases List.forall_mem_cons.1 hmem with ⟨hfirst, hrest⟩
      have hsecond := List.forall_mem_singleton.1 hrest
      exact .transmit debug hr hfirst (.transmit debug hr hsecond h.count)
    · exact h
  · split at h
    · exact h.log
    · exact h

/-- The sensors are read one after the other, and nothing comes between them. -/
theorem Loops.readAll (hr : r.InRange)
    (h : Loops connected logged (readAll debug connected logged c r) qis c') :
    Loops connected logged c qis c' := by
  have hdallas : ∀ qi ∈ dallasItems 0 r.tempC, qi ∈ r.items := by
    intro qi hqi
    rw [Measurements.items]
    simp only [List.mem_append]
    exact Or.inl (Or.inl (Or.inl hqi))
  have hlight : boardItem 2 "luminescense" (float r.lux) ∈ r.items :=
    List.mem_append_right _ (List.mem_singleton_self _)
  rw [EspGateway.readAll, readBH1750, LightSensor.isMinusOne_esp8266,
    if_pos Bool.false_ne_true] at h
  exact .readDallas hr hdallas (.readHTU21D hr (.readBMP085 hr (.transmit debug hr hlight h.count)))

theorem Loops.readable (h : Loops connected logged c qis c') (hprint : ∀ qi ∈ qis, qi.Printable) :
    ∀ m ∈ c'.written, m ∈ c.written ∨ m.Readable := by
  induction h with
  | done c => exact fun m hm => Or.inl hm
  | callback console asked printed h ih => exact ih hprint
  | @item c c' qi qis debug h ih =>
      rcases List.forall_mem_cons.1 hprint with ⟨hqi, hqis⟩
      intro m hm
      rcases ih hqis m hm with hm | hm
      · exact handleItem_readable debug connected logged c hqi m hm
      · exact Or.inr hm
  | @transmit c c' qis r channel label x debug hr hx h ih =>
      intro m hm
      rcases ih hprint m hm with hm | hm
      · exact SensorTransmit_readable debug connected logged c (hr.printable _ hx) m hm
      · exact Or.inr hm

namespace Pipeline

variable {edge0 edge2 : ULong} {past : List (System × Event)} {s : System}

theorem delivered_calls (times : List ℕ) : ∀ c ∈ ArduinoGateway.callsOf .esp8266 chain
    (ArduinoGateway.initReceivers edge0 edge2) times, Delivered c := by
  rintro ⟨j, c⟩ hc
  have hcall := Listeners.mem_of hc
  rw [ArduinoGateway.of_calls] at hcall
  by_cases hj : j ∈ chain
  · rw [(Listeners.run_of_mem chain_nodup hj times).2] at hcall
    exact EspGateway.delivered edge0 edge2 times j c hcall
  · rw [(Listeners.run_of_not_mem hj times).2] at hcall
    cases hcall

/-- Whatever a gateway has heard since `setup`, however it reads the codes, and whatever its sensors
measure: as the main loop handles items that callbacks have added and transmits readings, every message
fits into its buffer, and the parser reads from it the members that it is meant to have.  Items whose
arrays are too short for their texts are left out. -/
theorem messages_readable (h : Run (ArduinoGateway.initReceivers edge0 edge2) past s)
    {is : List Item} (hadded : ∀ item ∈ is, item ∈ s.queue.added) (hreads : Reads is qis)
    (hloops : Loops connected logged c qis c') : ∀ m ∈ c'.written, m ∈ c.written ∨ m.Readable := by
  refine hloops.readable fun qi hqi => ?_
  have hsome : some qi ∈ is.map Item.read := by
    rw [hreads.1]
    exact List.mem_map_of_mem hqi
  rcases List.mem_map.1 hsome with ⟨item, hitem, hread⟩
  have hcalled := hadded item hitem
  rw [h.added_eq.2.2] at hcalled
  rcases List.mem_flatMap.1 hcalled with ⟨call, hcall, hitems⟩
  have hdelivered := delivered_reads (delivered_calls _) s.layout 0 call hcall
  exact printable_items hdelivered hitems (hreads.2 item hitem) hread

/-- The sensors are read, and then a handset switches a lamp on. -/
theorem messages_readable_example :
    let x := Signal.kaku 1000 3 .on
    let r : Measurements := ⟨[some 20, none], 998, 998, 408, 215, 101325, 300⟩
    let always : ℕ → Bool := fun _ => true
    ∃ past s, Run (ArduinoGateway.initReceivers 0 0) past s ∧
      times past = edgesOf [(1800, x.send .esp8266)] ∧
      ∃ is, (∀ item ∈ is, item ∈ s.queue.added) ∧ Reads is (queued x) ∧
        ∀ m ∈ (handleQueue 1 always always
            (readAll 1 always always ⟨⟨"", 0, [], []⟩, 0, 0, []⟩ r) (queued x)).1.written,
          m ∈ [] ∨ m.Readable := by
  intro x r always
  rcases exists_run (ArduinoGateway.initReceivers 0 0) .same
    (edgesOf [(1800, x.send .esp8266)]) with
    ⟨past, s, hrun, hlayout, htimes, -⟩
  have hsends : List.Forall₂ Signal.SentAs [x] [(1800, x.send .esp8266)] :=
    .cons ⟨.esp8266, rfl⟩ .nil
  have hwaits : WaitsEach .esp8266 chain (ArduinoGateway.initReceivers 0 0)
      [(1800, x.send .esp8266)] :=
    ⟨fun h _ => ArduinoGateway.waits_initReceivers .esp8266 h, trivial⟩
  rcases ArduinoGateway.callsOf_edgesOf hsends chain_nodup (fun x _ => handler_mem_chain x)
      (fun h _ => ArduinoGateway.ready_initReceivers 0 0 h) hwaits with ⟨heard, hheard, hcalls⟩
  rcases List.forall₂_cons_left_iff.1 hheard with ⟨⟨k, c⟩, heard', ⟨hk, -, htold⟩, hnil, rfl⟩
  have hpos : 0 < k := lt_of_lt_of_le (by decide) hk
  have hreads := reads_told htold trivial
  have hsame : ∀ cs, Layout.same.reads 0 cs = cs := fun cs =>
    Layout.reads_eq_self (fun c _ => ArduinoGateway.intact_same c.1) 0
  have hmem : ∀ item ∈ items c, item ∈ s.queue.added := by
    intro item hitem
    rw [hrun.added_eq.2.2, hlayout, htimes, hsame, hcalls]
    refine List.mem_flatMap.2 ⟨c, ?_, hitem⟩
    have hc : c ∈ List.replicate k c := List.mem_replicate.2 ⟨hpos.ne', rfl⟩
    exact List.mem_append_left _ hc
  have hr : r.InRange := by
    refine ⟨?_, ?_, ?_, ?_, ?_, ?_⟩
    all_goals decide
  exact ⟨past, s, hrun, htimes, items c, hmem, hreads,
    messages_readable hrun hmem hreads (.readAll hr (handles_handleQueue _ _ _ _ _).loops)⟩

end Pipeline
end EspGateway
end LamPI
