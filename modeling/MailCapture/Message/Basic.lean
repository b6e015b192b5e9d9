import MailCapture.Message.Fields

/-! Messages.

A message is a header, the lines of a body and the envelope it came in. A body may have very many
lines, so they are kept with the last one first, where the next one goes; `lines` gives them in
order, and `body` as one text, joined with newlines. -/
namespace MailCapture

structure Message where
  fields : Fields := []
  /-- The lines of the body, last line first. -/
  linesBack : List Text := []
  /-- The address of the MAIL command. -/
  sender : Option Text := none
  /-- The addresses of the RCPT commands. -/
  recipients : List Text := []
deriving DecidableEq, Repr

namespace Message

/-! ### Building -/

def addField (m : Message) (name value : Text) : Message :=
  {m with fields := Fields.add name value m.fields}

def extendField (m : Message) (name value : Text) : Message :=
  {m with fields := Fields.extend name value m.fields}

def addLine (m : Message) (line : Text) : Message := {m with linesBack := line :: m.linesBack}

/-- The same message with other lines. -/
def withLines (m : Message) (lines : List Text) : Message := {m with linesBack := lines.reverse}

def setSender (m : Message) (address : Text) : Message := {m with sender := some address}

def addRecipient (m : Message) (address : Text) : Message :=
  {m with recipients := m.recipients ++ [address]}

/-! ### Reading -/

/-- The lines of the body, in order. -/
def lines (m : Message) : List Text := m.linesBack.reverse

def body (m : Message) : Text := Text.join '\n' m.lines

/-- The first value of the field `Subject`. -/
def subject? (m : Message) : Option Text := Fields.first? "Subject".toList m.fields

def hasRecipient (m : Message) (address : Text) : Bool := m.recipients.contains address

/-- A header line for every value, an empty line, the body and a newline. -/
def text (m : Message) : Text :=
  (Fields.pairs m.fields).flatMap (fun (name, value) => name ++ ": ".toList ++ value ++ ['\n'])
    ++ '\n' :: m.body ++ ['\n']

/-- Equal as far as a reader can tell: a line that holds a newline reads as two, so bodies are
compared by their text and the number of lines appended. -/
def same (a b : Message) : Bool :=
  a.fields = b.fields && a.body = b.body && a.lines.length = b.lines.length
    && a.sender = b.sender && a.recipients = b.recipients

@[simp] theorem lines_addLine (m : Message) (line : Text) :
    (m.addLine line).lines = m.lines ++ [line] := by
  simp [lines, addLine]

@[simp] theorem lines_withLines (m : Message) (lines : List Text) :
    (m.withLines lines).lines = lines := by
  simp [Message.lines, withLines]

end Message
end MailCapture
