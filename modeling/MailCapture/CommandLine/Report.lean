import MailCapture.CommandLine.Request
import MailCapture.Server.Basic

/-! What the program prints. -/
namespace MailCapture.CommandLine

/-- What a run of the program leaves on the screen. -/
structure Report where
  exit : Nat
  /-- The lines of the output. -/
  output : List Text := []
  errors : Text := []
deriving DecidableEq, Repr

def Complaint.report (c : Complaint) : Report := { exit := 2, errors := c.text }

def truth (b : Bool) : Text := if b then "true".toList else "false".toList

/-- The first line of the log. -/
def startingLine (o : Server.Options) : Text :=
  "Starting catchmail store=".toList ++ o.kind.name ++ " threaded=".toList ++ truth o.threaded

/-- The address and the crew that the log shows once the server listens. -/
def listeningParts (o : Server.Options) (s : Server) : List Text :=
  [o.host.text, "workers=".toList ++ Text.decimal s.crew.size]

/-- The last line of the log. -/
def totalLine (count : Nat) : Text :=
  "Received ".toList ++ Text.decimal count ++ " messages in total count=".toList
    ++ Text.decimal count

/-- A fault and what it came from. -/
def causes : Fault → List Text
  | .system e => [(Fault.system e).text, e.text]
  | .folder path e => [(Fault.folder path e).text, e.text]
  | .unwritten path e => [(Fault.unwritten path e).text, e.text]
  | f => [f.text]

def numberedFrom (n : Nat) : List Text → List Text
  | [] => []
  | t :: rest => ("    ".toList ++ Text.decimal n ++ ": ".toList ++ t) :: numberedFrom (n + 1) rest

/-- Causes are numbered if there are several. -/
def causeLines : List Text → List Text
  | [t] => ["    ".toList ++ t]
  | causes => numberedFrom 0 causes

/-- A failure of the whole program. -/
def failureText (doing : Text) (f : Fault) : Text :=
  let head := ["Error: failed to ".toList ++ doing, [], "Caused by:".toList]
  (head ++ causeLines (causes f)).flatMap (· ++ ['\n'])

/-- The exit code of a program that breaks. -/
def brokenExit : Nat := 101

/-- A start that fails. A mailbox too large for any memory breaks the program. -/
def startFailure (o : Server.Options) (f : Fault) : Report :=
  let output := [startingLine o]
  if f = .capacityOverflow then { exit := brokenExit, output, errors := f.text ++ ['\n'] }
  else { exit := 1, output, errors := failureText "start server".toList f }

def countFailure (f : Fault) : Report :=
  { exit := 1, errors := failureText "count messages".toList f }

def helpLines : List Text :=
  ["SMTP server that captures mail for inspection".toList, [], (Usage.used []).text]

end MailCapture.CommandLine
