import MailCapture.Message.Basic
import MailCapture.Text.Utf8

/-! The names of message files.

A message file is named `<sequence>_<subject>.eml`. The subject is cut to 200 bytes and characters
that a file system might refuse are replaced, so the name always fits and never leaves its folder.
`isMessageFile` tells such names from those of foreign files. -/
namespace MailCapture.Message

/-- Characters that a file name may not hold. -/
def reservedInName : List Char := ['\\', '/', '<', '>', '?', '*', '"', '|']

def sanitize (name : Text) : Text := name.map fun c => if reservedInName.contains c then '_' else c

/-- How many bytes of a subject go into a file name. -/
def subjectBytes : Nat := 200

def fileName (m : Message) (sequence : Nat) : Text :=
  sanitize (Text.decimal sequence ++ '_' :: Text.cut subjectBytes (m.subject?.getD [])
    ++ ".eml".toList)

/-- A name of ASCII digits, `_`, anything and `.eml`. -/
def isMessageFile (name : Text) : Bool :=
  match Text.splitFirst (· = '_') name with
  | some (sequence, rest) =>
    !sequence.isEmpty && sequence.all Char.isDigit && ".eml".toList.isSuffixOf rest
  | none => false

@[simp] theorem sanitize_append (a b : Text) : sanitize (a ++ b) = sanitize a ++ sanitize b := by
  simp [sanitize]

/-- A sanitized name holds none of the unsafe characters. -/
theorem not_mem_sanitize {c : Char} (hc : c ∈ reservedInName) (name : Text) :
    c ∉ sanitize name := by
  intro h
  obtain ⟨d, _, hd⟩ := List.mem_map.1 h
  by_cases hmem : reservedInName.contains d = true
  · rw [if_pos hmem] at hd
    subst hd
    revert hc
    decide
  · rw [if_neg hmem] at hd
    subst hd
    simp [hc] at hmem

end MailCapture.Message
