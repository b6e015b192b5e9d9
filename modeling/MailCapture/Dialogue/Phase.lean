/-! The phases of a mail dialogue. -/
namespace MailCapture

/-- How far a client has come. In `headers` and `body` its lines are message data; in every other
phase they are commands. -/
inductive Phase where
  /-- No greeting sent yet, or the dialogue is over. -/
  | connect
  /-- Greeted: ready for a transaction. -/
  | greet
  /-- The sender is known, recipients are not. -/
  | sender
  /-- There is at least one recipient. -/
  | recipient
  /-- Reading the header of a message. -/
  | headers
  /-- Reading the body of a message. -/
  | body
  /-- A message has been taken: ready for another transaction or for goodbye. -/
  | quit
deriving DecidableEq, Repr

namespace Phase

def isData : Phase → Bool
  | headers | body => true
  | _ => false

/-- How many bytes a line may have, its newline included. -/
def lineLimit (p : Phase) : Nat := if p.isData then 1000 else 512

end Phase
end MailCapture
