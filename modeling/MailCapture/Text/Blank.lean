import MailCapture.Text.Basic

/-! White space.

Blank characters are those with the Unicode property White_Space. Command lines and header fields
are trimmed of them at both ends, and words end at them. -/
namespace MailCapture.Text

/-- The characters with the property White_Space, twenty-five in all. -/
def isBlank (c : Char) : Bool :=
  ('\t' ≤ c && c ≤ '\r') || c = ' ' || c = '\u0085' || c = '\u00a0' || c = '\u1680'
    || ('\u2000' ≤ c && c ≤ '\u200a') || c = '\u2028' || c = '\u2029' || c = '\u202f'
    || c = '\u205f' || c = '\u3000'

def trimStart (t : Text) : Text := t.dropWhile isBlank

def trimEnd (t : Text) : Text := (t.reverse.dropWhile isBlank).reverse

def trim (t : Text) : Text := trimEnd (trimStart t)

/-- The first word of a text that does not start blank. -/
def firstWord (t : Text) : Text := t.takeWhile fun c => !isBlank c

/-- The first word of a trimmed text, and what follows it, trimmed. -/
def splitWord (t : Text) : Text × Text :=
  match splitFirst isBlank t with
  | some (word, rest) => (word, trim rest)
  | none => (t, [])

@[simp] theorem trim_nil : trim [] = [] := rfl

theorem trimStart_of_head {c : Char} {t : Text} (h : isBlank c = false) :
    trimStart (c :: t) = c :: t := by
  simp [trimStart, h]

theorem trimStart_blank {c : Char} {t : Text} (h : isBlank c = true) :
    trimStart (c :: t) = trimStart t := by
  simp [trimStart, h]

end MailCapture.Text
