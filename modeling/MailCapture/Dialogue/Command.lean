import MailCapture.Dialogue.Phase
import MailCapture.Text.Ascii
import MailCapture.Text.Blank
import MailCapture.Text.Capital

/-! What a line means.

Outside message data a line is a command word and its argument. Inside, every line is content,
whatever it looks like, but for the lone dot that ends it. -/
namespace MailCapture

inductive Command where
  /-- The client's arrival, which the greeting answers. No line means it. -/
  | connect
  | hello (domain : Text)
  /-- The sender's address, unless `FROM:` is missing. -/
  | mail (address : Option Text)
  /-- A recipient's address, unless `TO:` is missing. -/
  | rcpt (address : Option Text)
  | data
  | reset
  | noop
  | verify
  | expand
  | list
  | help
  | quit
  | headerLine (line : Text)
  /-- The empty line between header and body. -/
  | emptyLine
  | bodyLine (line : Text)
  /-- The lone dot. -/
  | endOfData
  | unknown (verb : Text)
deriving DecidableEq, Repr

namespace Command

/-! ### Commands -/

/-- The address after `FROM:` or `TO:`. In angle brackets it is all up to the closing one, and
otherwise one word; either may be empty. -/
def parseAddress (keyword argument : Text) : Option Text :=
  (Text.dropKeyword keyword argument).map fun rest =>
    match Text.trimStart rest with
    | '<' :: inner => inner.takeWhile (· ≠ '>')
    | path => Text.firstWord path

/-- The command of a word in capitals. -/
def ofWord? (word argument : Text) : Option Command :=
  if word = "HELO".toList ∨ word = "EHLO".toList then some (.hello argument)
  else if word = "MAIL".toList then some (.mail (parseAddress "FROM:".toList argument))
  else if word = "RCPT".toList then some (.rcpt (parseAddress "TO:".toList argument))
  else if word = "DATA".toList then some .data
  else if word = "RSET".toList then some .reset
  else if word = "NOOP".toList then some .noop
  else if word = "VRFY".toList then some .verify
  else if word = "EXPN".toList then some .expand
  else if word = "LIST".toList then some .list
  else if word = "HELP".toList then some .help
  else if word = "QUIT".toList then some .quit
  else none

def parseCommand (line : Text) : Command :=
  let (verb, argument) := Text.splitWord (Text.trim line)
  (ofWord? (Text.capitals verb) argument).getD (.unknown verb)

/-! ### Message data -/

/-- A client doubles the dot that starts a line of content. -/
def unstuff : Text → Text
  | '.' :: '.' :: rest => '.' :: rest
  | line => line

def parseHeader (line : Text) : Command :=
  if line = ['.'] then .endOfData
  else match unstuff line with
    | [] => .emptyLine
    | content => .headerLine content

def parseBody (line : Text) : Command :=
  if line = ['.'] then .endOfData else .bodyLine (unstuff line)

/-! ### Either -/

def parse (line : Text) : Phase → Command
  | .headers => parseHeader line
  | .body => parseBody line
  | _ => parseCommand line

/-- How a reply names the command. -/
def verb : Command → Text
  | connect => "Connect".toList
  | hello _ => "HELO".toList
  | mail _ => "MAIL".toList
  | rcpt _ => "RCPT".toList
  | data => "DATA".toList
  | reset => "RSET".toList
  | noop => "NOOP".toList
  | verify => "VRFY".toList
  | expand => "EXPN".toList
  | list => "LIST".toList
  | help => "HELP".toList
  | quit => "QUIT".toList
  | headerLine _ => "header line".toList
  | emptyLine => "blank line".toList
  | bodyLine _ => "body line".toList
  | endOfData => ".".toList
  | unknown verb => verb

end Command
end MailCapture
