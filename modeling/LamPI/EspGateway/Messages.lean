import LamPI.EspGateway.Handsets
import LamPI.EspGateway.LogMessages
import LamPI.EspGateway.Readings
import LamPI.EspGateway.Relay

/-!
# Messages to the daemon — `ESP-Gateway.ino`

`sensorQueue` and `deviceQueue` print into a buffer of fixed size, and paste the texts of an item
between quotes as they are.  A text is read back as it is meant if the numbers are those of the types
and no text has a character that needs an escape.
-/

namespace LamPI
namespace EspGateway

open Decimals

/-! ## Texts -/

def deviceText (msgCnt : ℕ) (qi : QueueItem) (val : String) : String :=
  "\x7b\"tcnt\":\"" ++ counterText msgCnt ++ "\",\"type\":\"json\",\"action\":\"" ++ qi.action ++
    "\",\"cmd\":\"" ++ qi.cmd ++ "\",\"gaddr\":\"" ++ toString qi.gaddr ++ "\",\"uaddr\":\"" ++
    toString qi.uaddr ++ "\",\"val\":\"" ++ val ++ "\",\"message\":\"" ++ qi.message ++ "\"\x7d"

/-- The text of a message; nothing is known of it if the union holds the other member. -/
def Message.text (m : Message) : Option String :=
  match m with
  | .sensor tcnt _ _ _ _ (.value x) => some (sensorText tcnt m.item x)
  | .device tcnt _ _ _ _ (.val text) _ => some (deviceText tcnt m.item text)
  | _ => none

def Message.pairs : Message → List (String × String)
  | .sensor tcnt brand address channel label value =>
      [("tcnt", counterText tcnt), ("type", "json"), ("action", "sensor"), ("brand", brand),
        ("address", toString address), ("channel", toString channel),
        (label, match value with
          | .value x => valueText x
          | .val text => text)]
  | .device tcnt action cmd gaddr uaddr val message =>
      [("tcnt", counterText tcnt), ("type", "json"), ("action", action), ("cmd", cmd),
        ("gaddr", toString gaddr), ("uaddr", toString uaddr),
        ("val", match val with
          | .value x => valueText x
          | .val text => text), ("message", message)]

def Message.stored (m : Message) : ArduinoJson.JsonObject :=
  m.pairs.map fun p => ArduinoJson.stored (p.1.toList, p.2.toList)

/-- The message fits into `tbuf` with its terminator, and its members are read from it. -/
def Message.Readable (m : Message) : Prop :=
  ∃ text, m.text = some text ∧ text.length + 1 ≤ A_MAXBUFSIZE ∧
    ArduinoJson.parseObject text.toList = some m.stored

def chars (pairs : List (String × String)) : List (List Char × List Char) :=
  pairs.map fun p => (p.1.toList, p.2.toList)

/-- What is printed before a value. -/
def opening (key : List Char) : List Char := ArduinoJson.quoted key ++ [':', '"']

theorem pairsText_last (key text : List Char) :
    ArduinoJson.pairsText [(key, text)] = opening key ++ (text ++ ['"', '\x7d']) := by
  simp only [ArduinoJson.pairsText, ArduinoJson.pairsBody, ArduinoJson.pairText, opening,
    ArduinoJson.quoted, ArduinoJson.quote, List.append_assoc, List.cons_append, List.nil_append]

theorem pairsText_next (key text : List Char) (next : List Char × List Char)
    (pairs : List (List Char × List Char)) :
    ArduinoJson.pairsText ((key, text) :: next :: pairs) =
      opening key ++ (text ++ '"' :: ',' :: ArduinoJson.pairsText (next :: pairs)) := by
  rw [ArduinoJson.pairsText_cons_cons]
  simp only [ArduinoJson.pairText, opening, ArduinoJson.quoted, ArduinoJson.quote,
    List.append_assoc, List.cons_append, List.nil_append]

def between (key : String) : List Char := '"' :: ',' :: opening key.toList

/-- The member whose key is printed from an item. -/
theorem labelled (label text : List Char) :
    "\",\"".toList ++ (label ++ ("\":\"".toList ++ text)) =
      '"' :: ',' :: (opening label ++ text) := by
  have hcomma : "\",\"".toList = ['"', ',', '"'] := rfl
  have hcolon : "\":\"".toList = ['"', ':', '"'] := rfl
  rw [hcomma, hcolon]
  simp only [opening, ArduinoJson.quoted, ArduinoJson.quote, List.append_assoc, List.cons_append,
    List.nil_append]

theorem toList_sensorText (tcnt : ℕ) (qi : QueueItem) (x : ℚ) :
    (sensorText tcnt qi x).toList = ArduinoJson.objectText (chars
      (Message.pairs (.sensor tcnt qi.brand qi.address qi.channel qi.label (.value x)))) := by
  have hcounter : toString (Int.bmod tcnt (2 ^ 32)) = counterText tcnt := rfl
  have htcnt : "\x7b\"tcnt\":\"".toList = '\x7b' :: opening "tcnt".toList := rfl
  have hbrand : "\",\"type\":\"json\",\"action\":\"sensor\",\"brand\":\"".toList =
      between "type" ++ ("json".toList ++ (between "action" ++ ("sensor".toList ++
        between "brand"))) := rfl
  have haddress : "\",\"address\":\"".toList = between "address" := rfl
  have hchannel : "\",\"channel\":\"".toList = between "channel" := rfl
  have hend : "\"\x7d".toList = ['"', '\x7d'] := rfl
  simp only [Message.pairs]
  unfold sensorText readingText
  rw [hcounter]
  generalize counterText tcnt = counter
  generalize valueText x = text
  generalize toString qi.address = address
  generalize toString qi.channel = channel
  simp only [chars, List.map_cons, List.map_nil, ArduinoJson.objectText,
    pairsText_next, pairsText_last, String.toList_append, htcnt, hbrand, haddress, hchannel,
    labelled, hend, between, List.append_assoc, List.cons_append]

theorem toList_deviceText (tcnt : ℕ) (qi : QueueItem) (text : String) :
    (deviceText tcnt qi text).toList = ArduinoJson.objectText (chars (Message.pairs
      (.device tcnt qi.action qi.cmd qi.gaddr qi.uaddr (.val text) qi.message))) := by
  have htcnt : "\x7b\"tcnt\":\"".toList = '\x7b' :: opening "tcnt".toList := rfl
  have haction : "\",\"type\":\"json\",\"action\":\"".toList =
      between "type" ++ ("json".toList ++ between "action") := rfl
  have hcmd : "\",\"cmd\":\"".toList = between "cmd" := rfl
  have hgaddr : "\",\"gaddr\":\"".toList = between "gaddr" := rfl
  have huaddr : "\",\"uaddr\":\"".toList = between "uaddr" := rfl
  have hval : "\",\"val\":\"".toList = between "val" := rfl
  have hmessage : "\",\"message\":\"".toList = between "message" := rfl
  have hend : "\"\x7d".toList = ['"', '\x7d'] := rfl
  simp only [Message.pairs]
  unfold deviceText
  generalize counterText tcnt = counter
  generalize toString qi.gaddr = gaddr
  generalize toString qi.uaddr = uaddr
  simp only [chars, List.map_cons, List.map_nil, ArduinoJson.objectText,
    pairsText_next, pairsText_last, String.toList_append, htcnt, haction, hcmd, hgaddr, huaddr,
    hval, hmessage, hend, between, List.append_assoc, List.cons_append]

/-! ## Lengths -/

theorem length_counterText (msgCnt : ℕ) : (counterText msgCnt).length ≤ 11 := by
  refine length_toString_le (by decide) (abs_lt.2 ⟨?_, ?_⟩)
  · have hlo := Int.le_bmod (x := msgCnt) (m := 2 ^ 32) (by decide)
    omega
  · have hhi := Int.bmod_lt (x := msgCnt) (m := 2 ^ 32) (by decide)
    omega

/-- Rounding does not double a number. -/
theorem abs_float_le (x : ℚ) : |float x| ≤ 2 * |x| := by
  have hx := abs_nonneg x
  have hsmall : |x| / 2 ^ 24 ≤ |x| := div_le_self hx (by norm_num)
  calc
    |float x| = |float x - x + x| := by rw [sub_add_cancel]
    _ ≤ |float x - x| + |x| := abs_add_le _ _
    _ ≤ |x| / 2 ^ 24 + |x| := by
      have herror : |float x - x| ≤ |x| / 2 ^ 24 := BinaryFloat.abs_rounded_sub_le 24 x
      linarith only [herror]
    _ ≤ 2 * |x| := by linarith only [hsmall]

/-- A reading that is divided by a constant. -/
theorem abs_quotient_le {x d : ℚ} (hd : 0 < d) : |float (float x / d)| ≤ 4 * (|x| / d) := by
  calc
    |float (float x / d)| ≤ 2 * |float x / d| := abs_float_le _
    _ = 2 * (|float x| / d) := by rw [abs_div, abs_of_pos hd]
    _ ≤ 2 * (2 * |x| / d) :=
      mul_le_mul_of_nonneg_left (div_le_div_of_nonneg_right (abs_float_le x) hd.le) zero_le_two
    _ = 4 * (|x| / d) := by ring

/-- The tenths of an `int`. -/
theorem abs_tenths_lt {n : ℤ} (h : |n| < 2 ^ 31) : |float (float n / 10)| < 2 ^ 31 := by
  have hquotient : |float (float (n : ℚ) / 10)| ≤ 4 * (|(n : ℚ)| / 10) :=
    abs_quotient_le (by norm_num)
  have hcast : |(n : ℚ)| < 2 ^ 31 := by exact_mod_cast h
  linarith only [hquotient, hcast]

/-- A value whose integer part is an `int`. -/
theorem length_valueText {x : ℚ} (hx : |x| < 2 ^ 31) : (valueText x).length ≤ 18 := by
  rcases abs_trunc_le x with ⟨hival, hrest⟩
  have hival' : |(trunc x : ℚ)| < 2 ^ 31 := lt_of_le_of_lt hival hx
  -- the tenths are at most some thousands
  have hsub : |x - float (trunc x)| ≤ 129 := by
    have herror : |float (trunc x : ℚ) - trunc x| ≤ |(trunc x : ℚ)| / 2 ^ 24 :=
      BinaryFloat.abs_rounded_sub_le 24 _
    calc
      |x - float (trunc x)| = |x - trunc x - (float (trunc x) - trunc x)| := by
        rw [sub_sub_sub_cancel_right]
      _ ≤ |x - trunc x| + |float (trunc x : ℚ) - trunc x| := abs_sub _ _
      _ ≤ 129 := by linarith only [hrest, herror, hival']
  have hten : |float (float (x - float (trunc x)) * 10)| ≤ 5160 := by
    have houter := abs_float_le (float (x - float (trunc x)) * 10)
    have hinner := abs_float_le (x - float (trunc x))
    rw [abs_mul, abs_of_pos (by norm_num : (0 : ℚ) < 10)] at houter
    linarith only [houter, hinner, hsub]
  have hlong : (toString (trunc x)).length ≤ 11 :=
    length_trunc_le (by decide) (hx.trans (by norm_num))
  have hshort : (toString (trunc (float (float (x - float (trunc x)) * 10)))).length ≤ 5 :=
    length_trunc_le (by decide) (hten.trans_lt (by norm_num))
  rw [valueText, String.length_append, String.length_append]
  have hdot : ".".length = 1 := rfl
  omega

/-! ## Texts that need no escapes -/

theorem plain_append {s t : String} (hs : ArduinoJson.Plain s.toList)
    (ht : ArduinoJson.Plain t.toList) : ArduinoJson.Plain (s ++ t).toList := by
  rw [String.toList_append]
  exact List.forall_mem_append.2 ⟨hs, ht⟩

theorem plain_natText (n : ℕ) : ArduinoJson.Plain (toString n).toList := by
  have hdigits : (toString n).toList = Nat.toDigits 10 n := Nat.toList_repr
  rw [hdigits]
  exact (alphanumeric_toDigits n).plain.1

theorem plain_intText (n : ℤ) : ArduinoJson.Plain (toString n).toList := by
  intro c hc
  have hne : ∀ d : Char, d.isDigit = false → c.isDigit → c ≠ d := by
    intro d hd hc hcd
    rw [hcd, hd] at hc
    cases hc
  rcases mem_toString hc with rfl | hdigit
  · decide
  · exact ⟨hne _ rfl hdigit, hne _ rfl hdigit, hne _ rfl hdigit⟩

theorem plain_valueText (x : ℚ) : ArduinoJson.Plain (valueText x).toList := by
  have hpoint : ArduinoJson.Plain ".".toList := by decide
  exact plain_append (plain_append (plain_intText _) hpoint) (plain_intText _)

/-! ## Items that make readable messages -/

/-- A text that an array of `size` bytes holds, and that needs no escapes. -/
structure Word (size : ℕ) (text : String) : Prop where
  length : text.length < size
  plain : ArduinoJson.Plain text.toList

def sensorKeys : List String := ["tcnt", "type", "action", "brand", "address", "channel"]

/-- The union holds what the action says, and the label is a key of its own. -/
def QueueItem.Consistent (qi : QueueItem) : Prop :=
  if qi.action = "sensor" then qi.label ∉ sensorKeys ∧ ∃ x, qi.value = .value x ∧ |x| < 2 ^ 31
  else ∃ text, qi.val = .val text ∧ Word 4 text

structure QueueItem.Printable (qi : QueueItem) : Prop where
  gaddr : qi.gaddr < 2 ^ 32
  uaddr : qi.uaddr < 2 ^ 8
  action : Word 8 qi.action
  cmd : Word 8 qi.cmd
  message : Word 16 qi.message
  consistent : qi.Consistent

theorem printable_sensor {address channel : ℕ} {brand label : String} {x : ℚ}
    (haddress : address < 2 ^ 8) (hchannel : channel < 2 ^ 8) (hbrand : Word 8 brand)
    (hlabel : Word 16 label) (hfresh : label ∉ sensorKeys) (hx : |x| < 2 ^ 31) :
    QueueItem.Printable { gaddr := address, uaddr := channel, val := .value x, action := "sensor",
                          cmd := brand, message := label } := by
  have haction : Word 8 "sensor" := ⟨by decide, by decide⟩
  exact ⟨lt_trans haddress (by decide), hchannel, haction, hbrand, hlabel,
    (if_pos rfl).mpr ⟨hfresh, x, rfl, hx⟩⟩

theorem printable_handset {gaddr uaddr : ℕ} {val cmd message : String} (hgaddr : gaddr < 2 ^ 32)
    (huaddr : uaddr < 2 ^ 8) (hval : Word 4 val) (hcmd : Word 8 cmd) (hmessage : Word 16 message) :
    QueueItem.Printable { gaddr := gaddr, uaddr := uaddr, val := .val val, action := "handset",
                          cmd := cmd, message := message } := by
  have haction : Word 8 "handset" := ⟨by decide, by decide⟩
  have hne : "handset" ≠ "sensor" := by decide
  exact ⟨hgaddr, huaddr, haction, hcmd, hmessage, (if_neg hne).mpr ⟨val, rfl, hval⟩⟩

/-- A text with the members in their order is readable if it is short. -/
theorem readable_of_pairs {m : Message} {text : String} (htext : m.text = some text)
    (hlist : text.toList = ArduinoJson.objectText (chars m.pairs))
    (hlength : text.length + 1 ≤ A_MAXBUFSIZE)
    (hplain : ∀ p ∈ m.pairs, ArduinoJson.Plain p.1.toList ∧ ArduinoJson.Plain p.2.toList)
    (hkeys : (m.pairs.map Prod.fst).Nodup) : m.Readable := by
  refine ⟨text, htext, hlength, ?_⟩
  have hplain' : ∀ pair ∈ chars m.pairs, ArduinoJson.Plain pair.1 ∧ ArduinoJson.Plain pair.2 :=
    List.forall_mem_map.2 hplain
  have hkeys' : ((chars m.pairs).map Prod.fst).Nodup := by
    have hmap : (chars m.pairs).map Prod.fst = (m.pairs.map Prod.fst).map String.toList := by
      rw [chars, List.map_map, List.map_map]
      rfl
    rw [hmap]
    exact hkeys.map fun s t h => String.toList_injective h
  rw [hlist, ArduinoJson.parseObject_objectText hplain' hkeys', chars, List.map_map]
  rfl

variable {qi : QueueItem}

/-- The texts around the members of a sensor have 86 characters. -/
theorem length_sensorText (tcnt : ℕ) (qi : QueueItem) (x : ℚ) :
    (sensorText tcnt qi x).length = (counterText tcnt).length + qi.brand.length +
      decimals qi.address + decimals qi.channel + qi.label.length + (valueText x).length + 86 := by
  have hcounter : toString (Int.bmod tcnt (2 ^ 32)) = counterText tcnt := rfl
  have htexts : "\x7b\"tcnt\":\"".length = 9 ∧
      "\",\"type\":\"json\",\"action\":\"sensor\",\"brand\":\"".length = 43 ∧
      "\",\"address\":\"".length = 13 ∧ "\",\"channel\":\"".length = 13 ∧ "\",\"".length = 3 ∧
      "\":\"".length = 3 ∧ "\"\x7d".length = 2 := ⟨rfl, rfl, rfl, rfl, rfl, rfl, rfl⟩
  unfold sensorText readingText
  rw [hcounter]
  generalize counterText tcnt = counter
  generalize valueText x = text
  simp only [String.length_append, decimals]
  omega

/-- Those around the members of a device have 90. -/
theorem length_deviceText (tcnt : ℕ) (qi : QueueItem) (val : String) :
    (deviceText tcnt qi val).length = (counterText tcnt).length + qi.action.length +
      qi.cmd.length + decimals qi.gaddr + decimals qi.uaddr + val.length + qi.message.length +
        90 := by
  have htexts : "\x7b\"tcnt\":\"".length = 9 ∧
      "\",\"type\":\"json\",\"action\":\"".length = 26 ∧ "\",\"cmd\":\"".length = 9 ∧
      "\",\"gaddr\":\"".length = 11 ∧ "\",\"uaddr\":\"".length = 11 ∧
      "\",\"val\":\"".length = 9 ∧ "\",\"message\":\"".length = 13 ∧ "\"\x7d".length = 2 :=
    ⟨rfl, rfl, rfl, rfl, rfl, rfl, rfl, rfl⟩
  unfold deviceText
  generalize counterText tcnt = counter
  simp only [String.length_append, decimals]
  omega

theorem readable_sensor (h : qi.Printable) (haction : qi.action = "sensor") (tcnt : ℕ) :
    (Message.sensor tcnt qi.brand qi.address qi.channel qi.label qi.value).Readable := by
  rcases (if_pos haction).mp h.consistent with ⟨hlabel, x, hvalue, hx⟩
  have hitem :
      (Message.sensor tcnt qi.brand qi.address qi.channel qi.label (.value x)).item = qi := by
    rw [Message.item, ← haction, ← hvalue]
  rw [hvalue]
  refine readable_of_pairs ?_ (toList_sensorText tcnt qi x) ?_ ?_ ?_
  · rw [Message.text, hitem]
  · have hcounter := length_counterText tcnt
    have haddress : decimals qi.address ≤ 10 :=
      decimals_le (by decide) (lt_trans h.gaddr (by decide))
    have hchannel : decimals qi.channel ≤ 3 :=
      decimals_le (by decide) (lt_trans h.uaddr (by decide))
    have hbrand : qi.brand.length < 8 := h.cmd.length
    have hname : qi.label.length < 16 := h.message.length
    have htext := length_valueText hx
    rw [length_sensorText, A_MAXBUFSIZE]
    omega
  · simp only [Message.pairs, List.forall_mem_cons]
    refine ⟨⟨by decide, plain_intText _⟩, ⟨by decide, by decide⟩, ⟨by decide, by decide⟩,
      ⟨by decide, h.cmd.plain⟩, ⟨by decide, plain_natText _⟩, ⟨by decide, plain_natText _⟩,
      ⟨h.message.plain, plain_valueText x⟩, List.forall_mem_nil _⟩
  · have hkeys : (sensorKeys ++ [qi.label]).Nodup :=
      List.nodup_append.2 ⟨by decide, List.nodup_singleton _, fun key hkey label hlabel' => by
        rw [List.mem_singleton.1 hlabel']
        rintro rfl
        exact hlabel hkey⟩
    exact hkeys

theorem readable_device (h : qi.Printable) (haction : qi.action ≠ "sensor") (tcnt : ℕ) :
    (Message.device tcnt qi.action qi.cmd qi.gaddr qi.uaddr qi.val qi.message).Readable := by
  rcases (if_neg haction).mp h.consistent with ⟨text, hval, htext⟩
  have hitem :
      (Message.device tcnt qi.action qi.cmd qi.gaddr qi.uaddr (.val text) qi.message).item = qi := by
    rw [Message.item, ← hval]
  rw [hval]
  have hkeys : ["tcnt", "type", "action", "cmd", "gaddr", "uaddr", "val", "message"].Nodup := by
    decide
  refine readable_of_pairs ?_ (toList_deviceText tcnt qi text) ?_ ?_ hkeys
  · rw [Message.text, hitem]
  · have hcounter := length_counterText tcnt
    have hgaddr : decimals qi.gaddr ≤ 10 := decimals_le (by decide) (lt_trans h.gaddr (by decide))
    have huaddr : decimals qi.uaddr ≤ 3 := decimals_le (by decide) (lt_trans h.uaddr (by decide))
    have haction := h.action.length
    have hcmd := h.cmd.length
    have hmessage := h.message.length
    have hlength := htext.length
    rw [length_deviceText, A_MAXBUFSIZE]
    omega
  · simp only [Message.pairs, List.forall_mem_cons]
    refine ⟨⟨by decide, plain_intText _⟩, ⟨by decide, by decide⟩, ⟨by decide, h.action.plain⟩,
      ⟨by decide, h.cmd.plain⟩, ⟨by decide, plain_natText _⟩, ⟨by decide, plain_natText _⟩,
      ⟨by decide, htext.plain⟩, ⟨by decide, h.message.plain⟩, List.forall_mem_nil _⟩

/-! ## What is written -/

section Connection

variable (debug : ℕ) (connected logged : ℕ → Bool) (c : Client)

theorem sensorQueue_readable (h : qi.Printable) (haction : qi.action = "sensor") :
    ∀ m ∈ (sensorQueue debug connected logged c qi).1.written, m ∈ c.written ∨ m.Readable := by
  intro m hm
  rw [(sensorQueue_sends debug connected logged c qi).2] at hm
  split at hm
  · rcases List.mem_append.1 hm with hm | hm
    · exact Or.inl hm
    · rw [List.mem_singleton.1 hm]
      exact Or.inr (readable_sensor h haction c.console.msgCnt)
  · exact Or.inl hm

theorem deviceQueue_readable (h : qi.Printable) (haction : qi.action ≠ "sensor") :
    ∀ m ∈ (deviceQueue connected c qi).1.written, m ∈ c.written ∨ m.Readable := by
  intro m hm
  unfold deviceQueue at hm
  split at hm
  · split at hm
    · exact Or.inl hm
    · rcases List.mem_append.1 hm with hm | hm
      · exact Or.inl hm
      · rw [List.mem_singleton.1 hm]
        exact Or.inr (readable_device h haction c.console.msgCnt)
  · exact Or.inl hm

/-- An item adds no message or a readable one. -/
theorem handleItem_readable (h : qi.Printable) :
    ∀ m ∈ (handleItem debug connected logged c qi).written, m ∈ c.written ∨ m.Readable := by
  unfold handleItem
  split
  · next haction => exact sensorQueue_readable debug connected logged c h haction
  · next haction =>
    split
    · exact deviceQueue_readable connected c h haction
    · split
      · exact deviceQueue_readable connected c h haction
      · exact fun m hm => Or.inl hm

end Connection

end EspGateway
end LamPI
