import MailCapture.Dialogue.Phase
import MailCapture.Text.Basic

/-! What a client hears.

An `Answer` is a reply, or silence, and the phase that follows. Every answer of the dialogue is made
by one of the functions here, so this is the list of all of them. -/
namespace MailCapture

structure Reply where
  code : Nat
  text : Text
deriving DecidableEq, Repr

/-- The reply as it goes over the wire. -/
def Reply.line (r : Reply) : Text := Text.decimal r.code ++ ' ' :: r.text ++ ['\r', '\n']

structure Answer where
  reply : Option Reply
  next : Phase
deriving DecidableEq, Repr

namespace Answer

def saying (code : Nat) (text : Text) (next : Phase) : Answer := ⟨some ⟨code, text⟩, next⟩

def code? (a : Answer) : Option Nat := a.reply.map Reply.code

/-! ### Going on -/

def silent (next : Phase) : Answer := ⟨none, next⟩

def greeting (hostname : Text) : Answer :=
  saying 220 (hostname ++ " SMTP service ready".toList) .greet

def hello (hostname domain : Text) : Answer :=
  saying 250 (hostname ++ " Hello ".toList ++ domain) .greet

def ok (next : Phase) : Answer := saying 250 "OK".toList next

def startInput : Answer := saying 354 "Start mail input; end with <CRLF>.<CRLF>".toList .headers

def closing (hostname : Text) : Answer :=
  saying 221 (hostname ++ " service closing transmission channel".toList) .connect

/-! ### Nothing done -/

def noHelp (next : Phase) : Answer := saying 211 "No help available".toList next

def notSupported (next : Phase) : Answer := saying 252 "Not supported".toList next

def notRecognized (next : Phase) : Answer := saying 500 "Command not recognized".toList next

def syntaxError (next : Phase) : Answer := saying 501 "Syntax error in parameters".toList next

def badSequence (verb : Text) (next : Phase) : Answer :=
  saying 503 ("Bad sequence of commands: ".toList ++ verb) next

/-! ### Too much -/

def lineTooLong (next : Phase) : Answer := saying 500 "Line too long".toList next

def tooMuchData : Answer := saying 552 "Too much mail data".toList .connect

end Answer
end MailCapture
