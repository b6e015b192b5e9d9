import MailCapture.Text.Basic

/-! Capitals.

Command words are compared in full capitals, as Unicode has them: besides the small ASCII letters,
ten characters have capitals made of ASCII letters alone, eight of them more than one letter. -/
namespace MailCapture.Text

/-- The capital form of a character where that is ASCII. Any other character stands for itself,
which no ASCII word contains either way. -/
def capital (c : Char) : Text :=
  match c with
  | 'ß' => ['S', 'S']
  | 'ı' => ['I']
  | 'ſ' => ['S']
  | 'ﬀ' => ['F', 'F']
  | 'ﬁ' => ['F', 'I']
  | 'ﬂ' => ['F', 'L']
  | 'ﬃ' => ['F', 'F', 'I']
  | 'ﬄ' => ['F', 'F', 'L']
  | 'ﬅ' => ['S', 'T']
  | 'ﬆ' => ['S', 'T']
  | c => [c.toUpper]

def capitals (t : Text) : Text := t.flatMap capital

@[simp] theorem capitals_nil : capitals [] = [] := rfl

@[simp] theorem capitals_cons (c : Char) (t : Text) :
    capitals (c :: t) = capital c ++ capitals t := rfl

end MailCapture.Text
