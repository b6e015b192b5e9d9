import MailCapture.Message.Basic
import MailCapture.Text.Blank

/-! Messages as text files.

A file holds a message's text. Reading one back (`parse`) takes the header up to the first empty
line; a line that starts with a folding character continues the field before it. Written files end
their lines with a newline alone and keep any carriage return; a file that ends every line with both
is taken as one whose carriage returns belong to the line ends. -/
namespace MailCapture.Message

/-! ### Header lines -/

/-- Whether a line continues the field before it. -/
def isFolded : Text → Bool
  | [] => false
  | c :: _ => [' ', '\t', '\x0b', '\x0c', '\r', '\n'].contains c

/-- A header line cut at its first colon, both sides trimmed. -/
def splitField (line : Text) : Option (Text × Text) :=
  (Text.splitFirst (· = ':') line).map fun (name, value) => (Text.trim name, Text.trim value)

/-! ### Line ends -/

/-- Whether every newline follows a carriage return, and there is one. `returned` tells whether the
character before was a carriage return, `found` whether a newline has been met. -/
def endsReturnedFrom (returned found : Bool) : Text → Bool
  | [] => found
  | '\n' :: rest => returned && endsReturnedFrom false true rest
  | c :: rest => endsReturnedFrom (c = '\r') found rest

def endsReturned (t : Text) : Bool := endsReturnedFrom false false t

/-- Drops every carriage return that stands before a newline. -/
def dropReturns : Text → Text
  | [] => []
  | '\r' :: '\n' :: rest => '\n' :: dropReturns rest
  | c :: rest => c :: dropReturns rest

def normalize (t : Text) : Text := if endsReturned t then dropReturns t else t

/-! ### Header and body -/

/-- The parts before and after the first empty line. Without one all is header. -/
def splitAtEmptyLine : Text → Text × Text
  | [] => ([], [])
  | '\n' :: '\n' :: rest => ([], rest)
  | c :: rest =>
    let (before, after) := splitAtEmptyLine rest
    (c :: before, after)

def splitHeader : Text → Text × Text
  | '\n' :: body => ([], body)
  | t => splitAtEmptyLine t

/-- Reads header lines into a message, given the name of the field that a fold would continue. -/
def readHeader (m : Message) (last : Option Text) : List Text → Message
  | [] => m
  | line :: rest =>
    if isFolded line then
      match last with
      | some name => readHeader (m.extendField name line) last rest
      | none => readHeader m last rest
    else match splitField line with
      | some (name, value) => readHeader (m.addField name value) (some name) rest
      | none => readHeader m last rest

/-- The lines of a body, less one final newline. An empty body has no lines. -/
def bodyLines (body : Text) : List Text :=
  match Text.dropFinal '\n' body with
  | [] => []
  | t => Text.split '\n' t

/-! ### Files -/

/-- The message whose text a file holds. -/
def parse (t : Text) : Message :=
  let (header, body) := splitHeader (normalize t)
  (readHeader {} none (Text.lines header)).withLines (bodyLines body)

end MailCapture.Message
