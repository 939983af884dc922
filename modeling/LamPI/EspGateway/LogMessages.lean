import LamPI.EspGateway.Console
import LamPI.Library.Decimals
import LamPI.Library.Json
import Mathlib.Data.List.TakeWhile

/-!
# Log messages

`printConsole` refuses what is longer than the buffer less 40 characters, but what it prints around
a message takes 68 and the digits of the counter; and it pastes the message between quotes as it is.
-/

namespace LamPI
namespace EspGateway

open JsonGrammar

/-- The text and the NUL behind it fit into `tbuf`. -/
def Fits (text : String) : Prop := text.length + 1 ≤ A_MAXBUFSIZE

def Carries (text s : String) : Prop :=
  ∃ ms, Text text.toList (.object ms) ∧
    ms.lookup (units "message".toList) = some (.string (units s.toList))

/-! ## The text -/

def counterText (msgCnt : ℕ) : String := toString (Int.bmod msgCnt (2 ^ 32))

def logMembers (msgCnt : ℕ) : List (List Char × List Char) :=
  [("tcnt".toList, (counterText msgCnt).toList), ("type".toList, "json".toList),
    ("action".toList, "debug".toList), ("cmd".toList, "logs".toList)]

/-- An object with four members and one more, in three pieces around the first and the last
value. -/
theorem objectText_pieces (tcnt n type json action debug cmd logs message s : List Char) :
    objectText [(tcnt, n), (type, json), (action, debug), (cmd, logs)] message s =
      ('\x7b' :: (quoted tcnt ++ [':', '"'])) ++ n ++
        ('"' :: ',' :: (memberText type json ++ ',' :: (memberText action debug ++
          ',' :: (memberText cmd logs ++ ',' :: (quoted message ++ [':', '"']))))) ++
        s ++ ['"', '\x7d'] := by
  simp only [objectText, memberText, quoted, List.flatMap_cons, List.flatMap_nil, List.cons_append,
    List.nil_append, List.append_assoc]

theorem toList_logMessage (msgCnt : ℕ) (s : String) :
    (logMessage msgCnt s).toList =
      objectText (logMembers msgCnt) "message".toList (c_str s).toList := by
  have hfront : "\x7b\"tcnt\":\"".toList = '\x7b' :: (quoted "tcnt".toList ++ [':', '"']) := rfl
  have hmiddle :
      "\",\"type\":\"json\",\"action\":\"debug\",\"cmd\":\"logs\",\"message\":\"".toList =
        '"' :: ',' :: (memberText "type".toList "json".toList ++
          ',' :: (memberText "action".toList "debug".toList ++
            ',' :: (memberText "cmd".toList "logs".toList ++
              ',' :: (quoted "message".toList ++ [':', '"'])))) := rfl
  have hback : "\"\x7d".toList = ['"', '\x7d'] := rfl
  rw [logMembers, objectText_pieces, ← hfront, ← hmiddle, ← hback, logMessage, String.toList_append,
    String.toList_append, String.toList_append, String.toList_append]
  rfl

theorem length_logMessage (msgCnt : ℕ) (s : String) :
    (logMessage msgCnt s).length = (c_str s).length + (counterText msgCnt).length + 68 := by
  have hfront : "\x7b\"tcnt\":\"".length = 9 := rfl
  have hmiddle :
      "\",\"type\":\"json\",\"action\":\"debug\",\"cmd\":\"logs\",\"message\":\"".length = 57 :=
    rfl
  have hback : "\"\x7d".length = 2 := rfl
  simp only [logMessage, counterText, String.length_append, hfront, hmiddle, hback]
  omega

theorem unescaped_of_isDigit {c : Char} (hc : c.isDigit) : Unescaped c := by
  refine ⟨?_, ?_, ?_⟩
  · have := (Char.isDigit_iff_toNat.1 hc).1
    exact le_trans (by decide) this
  · rintro rfl
    exact absurd hc (by decide)
  · rintro rfl
    exact absurd hc (by decide)

theorem plain_counterText (msgCnt : ℕ) : Plain (counterText msgCnt).toList := by
  have hdigits : ∀ n : ℕ, Plain (Nat.toDigits 10 n) := fun n c hc =>
    unescaped_of_isDigit (Nat.isDigit_of_mem_toDigits (by decide) (by decide) hc)
  unfold counterText
  rcases le_or_gt 0 (Int.bmod msgCnt (2 ^ 32)) with h | h
  · rw [Decimals.toList_toString_of_nonneg h]
    exact hdigits _
  · rw [Decimals.toList_toString_of_neg h]
    intro c hc
    rcases List.mem_cons.1 hc with rfl | hc
    · exact ⟨by decide, by decide, by decide⟩
    · exact hdigits _ c hc

theorem plain_logMembers (msgCnt : ℕ) : ∀ p ∈ logMembers msgCnt, Plain p.1 ∧ Plain p.2 := by
  have hcounter := plain_counterText msgCnt
  have hname : Plain "tcnt".toList := by decide
  have hrest : ∀ p ∈ [("type".toList, "json".toList), ("action".toList, "debug".toList),
      ("cmd".toList, "logs".toList)], Plain p.1 ∧ Plain p.2 := by decide
  unfold logMembers
  generalize (counterText msgCnt).toList = counter at hcounter
  exact List.forall_mem_cons.2 ⟨⟨hname, hcounter⟩, hrest⟩

/-- A C string is the text up to its first NUL. -/
theorem exists_c_str (s : String) : ∃ t, s.toList = (c_str s).toList ++ t := by
  refine ⟨s.toList.dropWhile fun c => c ≠ Char.ofNat 0, ?_⟩
  rw [c_str, String.toList_ofList, List.takeWhile_append_dropWhile]

theorem c_str_of_plain {s : String} (hs : Plain s.toList) : c_str s = s := by
  have hall : s.toList.takeWhile (fun c => c ≠ Char.ofNat 0) = s.toList := by
    refine List.takeWhile_eq_self_iff.2 fun c hc => decide_eq_true ?_
    rintro rfl
    exact absurd (hs _ hc).1 (by decide)
  rw [c_str, hall, String.ofList_toList]

/-- The member `message` is the message exactly if all its characters stand for themselves. -/
theorem carries_iff (msgCnt : ℕ) (s : String) :
    Carries (logMessage msgCnt s) s ↔ Plain s.toList := by
  have hmessage : Plain "message".toList := by decide
  have hfresh : units "message".toList ∉ (logMembers msgCnt).map fun p => units p.1 := by
    have hnames : (logMembers msgCnt).map (fun p => units p.1) =
        [units "tcnt".toList, units "type".toList, units "action".toList, units "cmd".toList] := rfl
    rw [hnames]
    decide
  unfold Carries
  rw [toList_logMessage]
  constructor
  · rintro ⟨ms, htext, hlookup⟩
    rcases exists_lookup (plain_logMembers msgCnt) hmessage hfresh htext with
      ⟨us, hus, hle, hplain⟩
    rw [hlookup] at hus
    injection hus with hus
    injection hus with hus
    -- what is behind a NUL would be missing
    rcases exists_c_str s with ⟨t, ht⟩
    subst hus
    rw [ht, units_append, List.length_append] at hle hplain
    cases t with
    | nil =>
        rw [List.append_nil] at ht
        rw [ht]
        exact hplain (by rw [units_nil, List.length_nil, Nat.add_zero])
    | cons c t =>
        have hc := length_charUnits_pos c
        rw [units_cons, List.length_append] at hle
        omega
  · intro hs
    rw [c_str_of_plain hs]
    exact ⟨_, text_objectText (plain_logMembers msgCnt) hmessage hs, lookup_fresh hfresh⟩

/-- What `printConsole` writes fits into its buffer and carries the message exactly if it is short
enough for the counter, and none of its characters is a control character, a quote or a
backslash. -/
theorem printConsole_written_iff (c : Console) {debug : ℕ} {s : String} {d : ℤ}
    (hshort : s.length + 40 < A_MAXBUFSIZE) (hdebug : d ≤ debug) :
    (printConsole debug true c s d).1.written = c.written ++ [logMessage c.msgCnt s] ∧
      (Fits (logMessage c.msgCnt s) ∧ Carries (logMessage c.msgCnt s) s ↔
        s.length + (counterText c.msgCnt).length + 68 < A_MAXBUFSIZE ∧
          ∀ c ∈ s.toList, 0x20 ≤ c.toNat ∧ c ≠ '"' ∧ c ≠ '\\') := by
  constructor
  · rw [printConsole, if_neg (Nat.not_le.2 hshort)]
    simp only [if_true, if_pos hdebug]
    split <;> rfl
  · rw [carries_iff, Fits, length_logMessage]
    refine and_congr_left fun hs => ?_
    rw [c_str_of_plain hs]
    exact Nat.succ_le_iff

/-- A short message. -/
theorem printConsole_written_ready :
    (printConsole 1 true ⟨"", 7, [], []⟩ "Ready" 1).1.written = [] ++ [logMessage 7 "Ready"] ∧
      (Fits (logMessage 7 "Ready") ∧ Carries (logMessage 7 "Ready") "Ready" ↔
        "Ready".length + (counterText 7).length + 68 < A_MAXBUFSIZE ∧
          ∀ c ∈ "Ready".toList, 0x20 ≤ c.toNat ∧ c ≠ '"' ∧ c ≠ '\\') :=
  printConsole_written_iff ⟨"", 7, [], []⟩ (by decide) (by decide)

/-- A message of 151 characters does not fit, and a quote ends the member. -/
theorem not_fits_not_carries :
    (¬∀ (c : Console) (debug : ℕ) (s : String) (d : ℤ), s.length + 40 < A_MAXBUFSIZE →
      d ≤ debug → Fits (logMessage c.msgCnt s)) ∧
    ¬∀ (c : Console) (debug : ℕ) (s : String) (d : ℤ), s.length + 40 < A_MAXBUFSIZE →
      d ≤ debug → Carries (logMessage c.msgCnt s) s := by
  constructor
  · intro h
    have hlength : (String.ofList (List.replicate 151 'a')).length = 151 := by
      rw [String.length_ofList, List.length_replicate]
    have hplain : Plain (String.ofList (List.replicate 151 'a')).toList := by
      rw [String.toList_ofList]
      intro c hc
      rw [List.eq_of_mem_replicate hc]
      decide
    have hfits := h ⟨"", 7, [], []⟩ 1 (String.ofList (List.replicate 151 'a')) 1
      (by rw [hlength]; decide) (by decide)
    rw [Fits, length_logMessage, c_str_of_plain hplain, hlength, A_MAXBUFSIZE] at hfits
    omega
  · intro h
    have hcarries := h ⟨"", 7, [], []⟩ 1 "\"" 1 (by decide) (by decide)
    exact absurd ((carries_iff 7 "\"").1 hcarries) (by decide)

end EspGateway
end LamPI
