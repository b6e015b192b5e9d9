import MailCapture.Dialogue.Rules
import MailCapture.Fault
import MailCapture.Message.File
import MailCapture.Text.Utf8

/-! Sessions, line by line.

A `Session` is a dialogue with one client and the message it is drafting. `accept` takes one line:
the table of the dialogue gives the answer and the next phase, the line is then drafted according
to that phase, and a message is delivered on the step that enters the phase `quit`. -/
namespace MailCapture

/-- Bytes of data a message may have unless told otherwise: ten mebibytes. -/
def Session.defaultSizeLimit : Nat := 10 * 1024 * 1024

structure Session where
  hostname : Text
  /-- How many bytes of data a message may have, two counted for each line end. -/
  sizeLimit : Nat := Session.defaultSizeLimit
  phase : Phase := .connect
  draft : Message := {}
  /-- The field that a folded line would continue. -/
  lastField : Option Text := none
  /-- Bytes of message data so far. -/
  received : Nat := 0
deriving DecidableEq, Repr

/-- What one step does. -/
structure Turn where
  session : Session
  answer : Answer
  /-- The message completed by the step. -/
  delivered : Option Message := none
  notices : List Notice := []
deriving DecidableEq, Repr

namespace Session

/-! ### Drafting -/

/-- Back to an empty draft. -/
def discard (s : Session) : Session := {s with draft := {}, lastField := none, received := 0}

/-- A field starts at a line with a name before a colon, unless the line is folded. A fold continues
the last field. Any other line is dropped. -/
def draftHeader (s : Session) (line : Text) : Session × List Notice :=
  match Message.isFolded line, Message.splitField line, s.lastField with
  | true, _, some name => ({s with draft := s.draft.extendField name line}, [])
  | true, _, none => (s, [.malformedHeader])
  | false, some (name, value), _ =>
    if line.head? = some ':' then (s, [.malformedHeader])
    else ({s with draft := s.draft.addField name value, lastField := some name}, [])
  | false, none, _ => (s, [.malformedHeader])

/-- The part of a command that goes into the draft, by the phase after it. -/
def record (s : Session) (c : Command) : Session × List Notice :=
  match c, s.phase with
  | .mail (some address), .sender => ({s with draft := s.draft.setSender address}, [])
  | .rcpt (some address), .recipient => ({s with draft := s.draft.addRecipient address}, [])
  | .headerLine line, .headers => s.draftHeader line
  | .bodyLine line, .body => ({s with draft := s.draft.addLine line}, [])
  | .reset, .greet => (s.discard, [])
  | _, _ => (s, [])

/-! ### Steps -/

/-- One command. -/
def perform (s : Session) (c : Command) : Turn :=
  let answer := c.answer s.phase s.hostname
  let (drafted, notices) := {s with phase := answer.next}.record c
  if answer.next = .quit ∧ s.phase ≠ .quit then
    { session := drafted.discard, answer, delivered := some drafted.draft, notices }
  else
    { session := drafted, answer, notices }

/-- How much of the size limit a line takes. -/
def lineSize (line : Text) : Nat := Text.size line + 2

/-- One line. Message data past the size limit ends the dialogue. -/
def accept (s : Session) (line : Text) : Turn :=
  if s.phase.isData then
    let counted := {s with received := s.received + lineSize line}
    if counted.received > s.sizeLimit then
      { session := {counted.discard with phase := .connect}
        answer := .tooMuchData
        notices := [.messageTooLarge] }
    else counted.perform (.parse line s.phase)
  else s.perform (.parse line s.phase)

/-- The dialogue begins. -/
def greet (s : Session) : Turn := s.perform .connect

/-- A line of message data that did not fit ends the dialogue. -/
def breakOff (s : Session) : Session := {s.discard with phase := .connect}

end Session
end MailCapture
