import LamPI.EspGateway
import LamPI.Kaku.Receiver
import LamPI.Livolo.Receiver
import LamPI.Quhwa.Receiver

/-!
# The handsets' callbacks of the ESP gateway — `ESP-Gateway.ino`

Each callback fills the members of a `queueItem` on the stack with `sprintf` and adds it to the
queue.  The members are short arrays; one that is not written holds whatever was on the stack.
-/

namespace LamPI
namespace EspGateway

/-! ## Items as the callbacks make them -/

/-- `queueItem` with the texts that have been printed into its arrays. -/
structure RawItem where
  gaddr : ℕ
  uaddr : ℕ
  val : Option String
  action : Option String
  cmd : Option String
  message : Option String
  deriving DecidableEq, Repr

def Stored (size : ℕ) (text : Option String) : Prop := ∃ s, text = some s ∧ s.length + 1 ≤ size

structure RawItem.WellFormed (item : RawItem) : Prop where
  val : Stored 4 item.val
  action : Stored 8 item.action
  cmd : Stored 8 item.cmd
  message : Stored 16 item.message

def RawItem.read (item : RawItem) : Option QueueItem := do
  let val ← item.val
  let action ← item.action
  let cmd ← item.cmd
  let message ← item.message
  pure { gaddr := item.gaddr, uaddr := item.uaddr, val := .val val, action := action, cmd := cmd,
         message := message }

/-- `"%2d"` -/
def padded (n : ℕ) : String := if n < 10 then " " ++ toString n else toString n

/-! ## Callbacks -/

def device (address unit : ℕ) : String := "!A" ++ toString address ++ "D" ++ toString unit ++ "F"

def showKakuCode (queue : List RawItem) (receivedCode : Kaku.Code) : List RawItem :=
  let item : RawItem :=
    { gaddr := receivedCode.address, uaddr := receivedCode.unit, val := none,
      action := some "handset", cmd := some "kaku", message := none }
  let device := device receivedCode.address receivedCode.unit
  let item :=
    match receivedCode.switchType with
    | .off => { item with val := some "off", message := some (device ++ "0") }
    | .on => { item with val := some "on", message := some (device ++ "1") }
    | .dim =>
        if receivedCode.dimLevelPresent then
          { item with
            val := some (padded (receivedCode.dimLevel * 2))
            message := some (device ++ "dP" ++ toString (receivedCode.dimLevel * 2)) }
        -- only a text on the console
        else item
  queue ++ [item]

/-- What `showLivoloCode` and `showQuhwaCode` make of a code.  `uaddr` is a byte, also in the
message. -/
def levelItem (cmd : String) (address unit level : ℕ) : RawItem :=
  let uaddr := unit % 256
  { gaddr := address, uaddr := uaddr, val := some (toString level), action := some "handset",
    cmd := some cmd, message := some (device address uaddr ++ toString level) }

def showLivoloCode (queue : List RawItem) (receivedCode : Livolo.Code) : List RawItem :=
  let item := levelItem "livolo" receivedCode.address receivedCode.unit receivedCode.level
  queue ++ [item]

/-- `showQuhwaCode`: the item is filled, but `addQueue` is not called. -/
def showQuhwaCode (queue : List RawItem) (receivedCode : Quhwa.Code) : List RawItem :=
  let _item := levelItem "quhwa" receivedCode.address receivedCode.unit receivedCode.level
  queue

inductive Press where
  | kaku (code : Kaku.Code)
  | livolo (code : Livolo.Code)
  | quhwa (code : Quhwa.Code)
  deriving DecidableEq, Repr

def Press.Deliverable : Press → Prop
  | .kaku c => c.address < 2 ^ 26 ∧ c.unit < 16 ∧ c.dimLevel < 16
  | .livolo c => c.address < 2 ^ 16 ∧ c.unit < 2 ^ 7 ∧ c.level < 2 ^ 8
  | .quhwa c => c.address < 2 ^ 27 ∧ c.unit < 2 ^ 8 ∧ c.level < 2 ^ 8

def Press.callback (queue : List RawItem) : Press → List RawItem
  | .kaku c => showKakuCode queue c
  | .livolo c => showLivoloCode queue c
  | .quhwa c => showQuhwaCode queue c

def Press.Queued (queue : List RawItem) (press : Press) : Prop :=
  ∃ item : RawItem, press.callback queue = queue ++ [item] ∧ item.WellFormed

/-! ## Lengths -/

/-- How many digits `%d` prints. -/
def decimals (n : ℕ) : ℕ := (toString n).length

theorem decimals_le {n k : ℕ} (hk : 0 < k) (h : n < 10 ^ k) : decimals n ≤ k :=
  (Nat.length_repr_le_iff hk).2 h

theorem length_device (address unit : ℕ) :
    (device address unit).length = decimals address + decimals unit + 4 := by
  simp only [device, String.length_append, decimals]
  have htexts : "!A".length = 2 ∧ "D".length = 1 ∧ "F".length = 1 := ⟨rfl, rfl, rfl⟩
  omega

theorem stored_iff {size : ℕ} {text : String} : Stored size (some text) ↔ text.length < size := by
  constructor
  · rintro ⟨s, hs, hlen⟩
    cases hs
    exact hlen
  · intro h
    exact ⟨text, rfl, h⟩

theorem not_stored_none (size : ℕ) : ¬Stored size none := by
  rintro ⟨s, hs, -⟩
  cases hs

theorem length_padded {n : ℕ} (h : n < 100) : (padded n).length ≤ 2 := by
  unfold padded
  have hdecimals : ∀ k, 0 < k → n < 10 ^ k → (toString n).length ≤ k := fun k hk => decimals_le hk
  split
  · next hdigit =>
    rw [String.length_append]
    have hone := hdecimals 1 Nat.one_pos hdigit
    have hblank : " ".length = 1 := rfl
    omega
  · exact hdecimals 2 Nat.two_pos h

/-! ## What is queued -/

/-- The condition on a code: a Kaku telegram that dims has a level, and its numbers have at most
nine digits. -/
def Press.Fits : Press → Prop
  | .kaku c => c.switchType = .dim →
      c.dimLevelPresent ∧ decimals c.address + decimals c.unit + decimals (c.dimLevel * 2) ≤ 9
  | .livolo _ => True
  | .quhwa _ => False

/-- An item of a Kaku handset: the two texts that do not depend on the code are fine. -/
theorem wellFormed_kaku {c : Kaku.Code} {val message : Option String} :
    RawItem.WellFormed { gaddr := c.address, uaddr := c.unit, val := val, action := some "handset",
                         cmd := some "kaku", message := message } ↔
      Stored 4 val ∧ Stored 16 message := by
  constructor
  · intro h
    exact ⟨h.val, h.message⟩
  · rintro ⟨hval, hmessage⟩
    exact ⟨hval, stored_iff.2 (by decide), stored_iff.2 (by decide), hmessage⟩

/-- A message that switches: the address has at most 8 digits and the unit at most 2. -/
theorem stored_switch {address unit : ℕ} (haddress : address < 2 ^ 26) (hunit : unit < 16)
    {level : String} (hlevel : level.length = 1) :
    Stored 16 (some (device address unit ++ level)) := by
  rw [stored_iff, String.length_append, length_device, hlevel]
  have hlong : decimals address ≤ 8 := decimals_le (by decide) (by omega)
  have hshort : decimals unit ≤ 2 := decimals_le (by decide) (by omega)
  omega

/-- A message that dims. -/
theorem stored_dim (address unit level : ℕ) :
    Stored 16 (some (device address unit ++ "dP" ++ toString level)) ↔
      decimals address + decimals unit + decimals level ≤ 9 := by
  have hdp : "dP".length = 2 := rfl
  rw [stored_iff, String.length_append, String.length_append, length_device, hdp]
  change _ + decimals level < 16 ↔ _
  omega

theorem queued_append {queue : List RawItem} {item : RawItem} :
    (∃ item' : RawItem, queue ++ [item] = queue ++ [item'] ∧ item'.WellFormed) ↔
      item.WellFormed := by
  constructor
  · rintro ⟨item', heq, hwell⟩
    cases List.append_cancel_left heq
    exact hwell
  · intro hwell
    exact ⟨item, rfl, hwell⟩

theorem kaku_queued_iff (queue : List RawItem) {c : Kaku.Code} (haddress : c.address < 2 ^ 26)
    (hunit : c.unit < 16) (hlevel : c.dimLevel < 16) :
    (Press.kaku c).Queued queue ↔ (Press.kaku c).Fits := by
  have hlen : ∀ text : String, text.length = 1 →
      Stored 16 (some (device c.address c.unit ++ text)) := fun _ => stored_switch haddress hunit
  unfold Press.Queued Press.callback showKakuCode Press.Fits
  simp only [queued_append]
  cases hswitch : c.switchType with
  | off => simpa using wellFormed_kaku.2 ⟨stored_iff.2 (by decide), hlen "0" rfl⟩
  | on => simpa using wellFormed_kaku.2 ⟨stored_iff.2 (by decide), hlen "1" rfl⟩
  | dim =>
      cases hpresent : c.dimLevelPresent with
      -- neither `val` nor `message` is written
      | false =>
          simp only [Bool.false_eq_true, if_false, false_and, forall_const, iff_false]
          exact fun hwell => not_stored_none 4 hwell.val
      | true =>
          have hval : Stored 4 (some (padded (c.dimLevel * 2))) := by
            rw [stored_iff]
            exact lt_of_le_of_lt (length_padded (by omega)) (by decide)
          simp only [if_true, true_and, forall_const, wellFormed_kaku, hval, stored_dim]

/-- What the callbacks queue is one well formed item exactly for the codes that fit; a doorbell is
never queued. -/
theorem press_queued_iff (queue : List RawItem) (press : Press) (h : press.Deliverable) :
    press.Queued queue ↔ press.Fits := by
  cases press with
  | kaku c => exact kaku_queued_iff queue h.1 h.2.1 h.2.2
  | livolo c =>
      rcases h with ⟨haddress, hunit, hlevel⟩
      -- 16 bits and 7 bits have few digits
      have hlong : decimals c.address ≤ 5 := decimals_le (by decide) (by omega)
      have hmiddle : decimals (c.unit % 256) ≤ 3 := decimals_le (by decide) (by omega)
      have hshort : decimals c.level ≤ 3 := decimals_le (by decide) (by omega)
      refine iff_of_true (queued_append.2 ⟨?_, ?_, ?_, ?_⟩) trivial
      · exact stored_iff.2 (Nat.lt_succ_of_le hshort)
      · exact stored_iff.2 (by decide)
      · exact stored_iff.2 (by decide)
      · refine stored_iff.2 ?_
        rw [String.length_append, length_device]
        change _ + decimals c.level < 16
        omega
  | quhwa c =>
      refine iff_of_false ?_ id
      rintro ⟨item, hqueue, -⟩
      -- the queue has not grown
      have hlen := congrArg List.length hqueue
      rw [List.length_append, List.length_singleton] at hlen
      exact absurd hlen (Nat.ne_of_lt (Nat.lt_succ_self _))

/-- Dimming unit 15 at the last address to level 15. -/
def dimmed : Kaku.Code :=
  { period := 260, address := 67108863, groupBit := false, switchType := .dim, unit := 15,
    dimLevelPresent := true, dimLevel := 15 }

theorem press_queued_iff_example :
    (Press.kaku dimmed).Queued [] ↔ (Press.kaku dimmed).Fits :=
  press_queued_iff [] (.kaku dimmed) ⟨by decide, by decide, by decide⟩

/-- Its message has 18 characters. -/
theorem dimmed_not_queued :
    (Press.kaku dimmed).Deliverable ∧ ¬(Press.kaku dimmed).Queued [] := by
  refine ⟨⟨by decide, by decide, by decide⟩, ?_⟩
  rw [kaku_queued_iff [] (by decide) (by decide) (by decide)]
  intro hfits
  have hlen := (hfits rfl).2
  revert hlen
  decide

/-! ## Handing on -/

/-- The main loop writes a well formed item of a handset to the daemon, if there is a connection and
the address is not reserved. -/
theorem RawItem.WellFormed.written {item : RawItem} (h : item.WellFormed)
    (haction : item.action = some "handset") (hfree : A_RESERVED_ADDRESS < item.gaddr)
    (debug : ℕ) (logged : ℕ → Bool) (c : Client) :
    ∃ qi, item.read = some qi ∧
      (handleQueue debug (fun _ => true) logged c [qi]).1.written.map Message.item =
        c.written.map Message.item ++ [qi] := by
  rcases h with ⟨⟨val, hval, -⟩, -, ⟨cmd, hcmd, -⟩, ⟨message, hmessage, -⟩⟩
  refine ⟨⟨item.gaddr, item.uaddr, .val val, "handset", cmd, message⟩, ?_, ?_⟩
  · simp [RawItem.read, hval, haction, hcmd, hmessage]
  · have hgoes : QueueItem.Goes ⟨item.gaddr, item.uaddr, .val val, "handset", cmd, message⟩ :=
      Or.inr ⟨Or.inr rfl, hfree⟩
    rw [(handleQueue_eq _ _ _ c _).2, sent, sent, if_pos ⟨hgoes, rfl⟩, List.append_nil]

end EspGateway
end LamPI
