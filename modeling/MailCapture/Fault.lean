import MailCapture.Text.Utf8

/-! What can go wrong, and how it is worded.

An `OsError` is a refusal by the operating system, a `Fault` a failure of one of the library's own
operations, a `Notice` something only the log hears about. Causes are values here; their wording is
in the three `text` functions and nowhere else. -/
namespace MailCapture

/-! ### Refusals by the system -/

inductive OsError where
  | notFound
  | permissionDenied
  | alreadyExists
  | notDirectory
  | isDirectory
  | invalidArgument
  | nameTooLong
  | tooManyLinks
  | addressInUse
  | addressUnavailable
  | networkUnreachable
  | connectionReset
  | connectionRefused
  /-- A path holds the character NUL. -/
  | nulInName
  /-- A file is not valid UTF-8. -/
  | notUtf8
  /-- Anything else, as it was reported. -/
  | reported (text : Text)
deriving DecidableEq, Repr

/-- The number the system gives an error, where it has one. -/
def OsError.number? : OsError → Option Nat
  | notFound => some 2
  | permissionDenied => some 13
  | alreadyExists => some 17
  | notDirectory => some 20
  | isDirectory => some 21
  | invalidArgument => some 22
  | nameTooLong => some 36
  | tooManyLinks => some 40
  | addressInUse => some 98
  | addressUnavailable => some 99
  | networkUnreachable => some 101
  | connectionReset => some 104
  | connectionRefused => some 111
  | nulInName | notUtf8 | reported _ => none

def OsError.wording : OsError → Text
  | notFound => "No such file or directory".toList
  | permissionDenied => "Permission denied".toList
  | alreadyExists => "File exists".toList
  | notDirectory => "Not a directory".toList
  | isDirectory => "Is a directory".toList
  | invalidArgument => "Invalid argument".toList
  | nameTooLong => "File name too long".toList
  | tooManyLinks => "Too many levels of symbolic links".toList
  | addressInUse => "Address already in use".toList
  | addressUnavailable => "Cannot assign requested address".toList
  | networkUnreachable => "Network is unreachable".toList
  | connectionReset => "Connection reset by peer".toList
  | connectionRefused => "Connection refused".toList
  | nulInName => "file name contained an unexpected NUL byte".toList
  | notUtf8 => "stream did not contain valid UTF-8".toList
  | reported text => text

def OsError.text (e : OsError) : Text :=
  match e.number? with
  | some n => e.wording ++ " (os error ".toList ++ Text.decimal n ++ [')']
  | none => e.wording

/-! ### Failures of operations -/

inductive Fault where
  | system (e : OsError)
  | indexOutOfRange (index held : Nat)
  | unknownMailbox (name : Text)
  /-- A mailbox for no messages. -/
  | noCapacity
  /-- A mailbox for more messages than memory has addresses. -/
  | capacityOverflow
  /-- A crew without workers. -/
  | noWorkers
  /-- A mailbox folder that cannot be opened. -/
  | folder (path : Bytes) (e : OsError)
  /-- A message file that cannot be written. -/
  | unwritten (path : Bytes) (e : OsError)
deriving DecidableEq, Repr

def Fault.text : Fault → Text
  | system e => "IO error: ".toList ++ e.text
  | indexOutOfRange index held =>
    "Message index ".toList ++ Text.decimal index ++ " out of range (store holds ".toList
      ++ Text.decimal held ++ [')']
  | unknownMailbox name => "Unknown mail store: ".toList ++ name
  | noCapacity => "Invalid option: rolling mail store capacity must be at least 1".toList
  | capacityOverflow => "capacity overflow".toList
  | noWorkers => "Invalid option: worker pool needs at least one thread".toList
  | folder path e =>
    "Could not initialise mail store at ".toList ++ Text.decode path ++ ": ".toList ++ e.text
  | unwritten path e =>
    "Could not write message to ".toList ++ Text.decode path ++ ": ".toList ++ e.text

/-! ### The log -/

inductive Notice where
  /-- A header line that is neither a field nor a fold. -/
  | malformedHeader
  | lineTooLong
  | messageTooLarge
  | unreadableFile (e : OsError)
  | undeletableFile (e : OsError)
  | unlistableFolder (e : OsError)
  /-- A completed message that its mailbox did not take. -/
  | notStored (f : Fault)
deriving DecidableEq, Repr

def Notice.text : Notice → Text
  | malformedHeader => "WARN Dropping malformed header line".toList
  | lineTooLong => "WARN Line too long".toList
  | messageTooLarge => "WARN Message too large, closing connection".toList
  | unreadableFile e => "WARN Skipping unreadable message file: ".toList ++ e.text
  | undeletableFile e => "WARN Could not delete message file: ".toList ++ e.text
  | unlistableFolder e => "WARN Could not list mail store: ".toList ++ e.text
  | notStored f => "ERROR Failed to store message: ".toList ++ f.text

end MailCapture
