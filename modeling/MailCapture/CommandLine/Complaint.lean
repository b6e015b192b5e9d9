import MailCapture.Text.Plain

/-! What a command line can be refused for.

The arguments of the command, the reasons to refuse one, and the text that the user reads. What the
user wrote is shown plain, without the control sequences it may hold. -/
namespace MailCapture.CommandLine

def programName : Text := "catchmail".toList

def versionText : Text := programName ++ " 0.1.0".toList

/-! ### Parameters -/

inductive Param where
  | port
  | bind
  | hostname
  | mailStore
  | threaded
  | threads
  | capacity
  | emlDir
  | waitInResponse
  | readTimeout
  | maxMessageSize
deriving DecidableEq, Repr

namespace Param

/-- The parameters given by name. The port is given by position. -/
def named : List Param :=
  [bind, hostname, mailStore, threaded, threads, capacity, emlDir, waitInResponse, readTimeout,
    maxMessageSize]

def name : Param → Text
  | port => "port".toList
  | bind => "bind".toList
  | hostname => "hostname".toList
  | mailStore => "mail-store".toList
  | threaded => "threaded".toList
  | threads => "threads".toList
  | capacity => "capacity".toList
  | emlDir => "eml-dir".toList
  | waitInResponse => "wait-in-response".toList
  | readTimeout => "read-timeout".toList
  | maxMessageSize => "max-message-size".toList

/-- The parameter's name as a place for its value. -/
def placeholder (p : Param) : Text :=
  p.name.map fun c => if c = '-' then '_' else c.toUpper

def flag (p : Param) : Text := "--".toList ++ p.name ++ " <".toList ++ p.placeholder ++ ['>']

/-- How complaints name the parameter. -/
def label (p : Param) : Text := if p = port then "[PORT]".toList else p.flag

end Param

/-! ### Named arguments -/

/-- What an argument can name: a parameter, or a question that needs no value. -/
inductive Named where
  | param (p : Param)
  | help
  | version
deriving DecidableEq, Repr

namespace Named

def all : List Named := Param.named.map param ++ [help, version]

def name : Named → Text
  | param p => p.name
  | help => "help".toList
  | version => "version".toList

/-- The name as it is given, without a value. -/
def dashed (n : Named) : Text := "--".toList ++ n.name

def usage : Named → Text
  | param p => p.flag
  | n => n.dashed

end Named

/-! ### Complaints -/

/-- How a usage line shows what may be given. -/
inductive Usage where
  /-- These, and the port in any case. -/
  | used (arguments : List Named)
  /-- This one, and any of the parameters. -/
  | withAny (argument : Named)
deriving DecidableEq, Repr

inductive Tip where
  /-- Another argument is much like the one given. -/
  | similar (argument : Named)
  /-- The argument could be passed as a value. -/
  | asValue
deriving DecidableEq, Repr

inductive Complaint where
  | invalidValue (p : Param) (value reason : Text)
  /-- The value is none of the choices, though perhaps like one. -/
  | notAChoice (p : Param) (value : Text) (choices : List Text) (similar : Option Text)
  | missingValue (p : Param) (choices : List Text)
  | repeated (p : Param)
  | unexpected (argument : Text) (tip : Option Tip) (usage : Usage)
  /-- A value for an argument that takes none. -/
  | surplusValue (argument : Named) (value : Text) (usage : Usage)
deriving DecidableEq, Repr

/-! ### Wording -/

def quoted (t : Text) : Text := '\'' :: Text.plain t ++ ['\'']

def separated (separator : Text) : List Text → Text
  | [] => []
  | [t] => t
  | t :: rest => t ++ separator ++ separated separator rest

/-- Any of the parameters. -/
def anyParam : Text :=
  '<' :: separated ['|'] (Param.port.placeholder :: Param.named.map Param.flag) ++ ['>']

/-- What is used by name in a usage line. -/
def optionsText (arguments : List Named) : Text :=
  match arguments.filter (· ≠ .param .port) with
  | [] => if arguments = [] then "[OPTIONS] ".toList else []
  | named => named.flatMap fun n => n.usage ++ [' ']

/-- The port in a usage line. It stands in brackets as long as it can be left out. -/
def portText (arguments : List Named) : Text :=
  if arguments.any (· = .param .port) then "<PORT>".toList else "[PORT]".toList

def Usage.text (u : Usage) : Text :=
  "Usage: ".toList ++ programName ++ ' ' :: match u with
    | used arguments => optionsText arguments ++ portText arguments
    | withAny argument => argument.usage ++ ' ' :: anyParam

def Tip.text (argument : Text) : Tip → Text
  | similar other => "  tip: a similar argument exists: ".toList ++ quoted other.dashed
  | asValue =>
    "  tip: to pass ".toList ++ quoted argument ++ " as a value, use ".toList
      ++ quoted ("-- ".toList ++ argument)

def choiceLines (choices : List Text) : List Text :=
  if choices = [] then []
  else ["  [possible values: ".toList ++ separated ", ".toList choices ++ [']']]

/-- What is wrong, and what could be done about it. -/
def Complaint.body : Complaint → List Text
  | invalidValue p value _ =>
    ["invalid value ".toList ++ quoted value ++ " for ".toList ++ quoted p.label ++ ": ".toList]
  | notAChoice p value choices similar =>
    ("invalid value ".toList ++ quoted value ++ " for ".toList ++ quoted p.label)
      :: choiceLines choices ++ match similar with
        | some choice => [[], "  tip: a similar value exists: ".toList ++ quoted choice]
        | none => []
  | missingValue p choices =>
    ("a value is required for ".toList ++ quoted p.label ++ " but none was supplied".toList)
      :: choiceLines choices
  | repeated p =>
    ["the argument ".toList ++ quoted p.label ++ " cannot be used multiple times".toList, [],
      (Usage.used []).text]
  | unexpected argument tip usage =>
    ("unexpected argument ".toList ++ quoted argument ++ " found".toList)
      :: (tip.toList.flatMap fun tip => [[], tip.text argument]) ++ [[], usage.text]
  | surplusValue argument value usage =>
    ["unexpected value ".toList ++ quoted value ++ " for ".toList ++ quoted argument.dashed
      ++ " found; no more were expected".toList, [], usage.text]

/-- Why a value is invalid. It ends the body of the complaint. -/
def Complaint.reason : Complaint → Text
  | invalidValue _ _ reason => reason
  | _ => []

/-- The text of a complaint. A control sequence in the reason may take some of what follows. -/
def Complaint.text (c : Complaint) : Text :=
  "error: ".toList ++ Text.join '\n' c.body
    ++ Text.plain (c.reason ++ "\n\nFor more information, try '".toList) ++ "--help'.\n".toList

end MailCapture.CommandLine
