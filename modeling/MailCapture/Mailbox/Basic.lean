import MailCapture.Mailbox.Folder
import MailCapture.Mailbox.Recent
import MailCapture.Text.Ascii

/-! Mailboxes.

A mailbox is one of two kinds and answers the same questions either way. All of them are asked of
one list, `messages`: its length, whether it is empty, and the message at an index. -/
namespace MailCapture

inductive Mailbox where
  | recent (r : Recent)
  | folder (f : Folder)

namespace Mailbox

/-! ### Kinds -/

inductive Kind where
  | recent
  | folder
deriving DecidableEq, Repr

/-- The kind a name stands for, whatever its case. -/
def Kind.ofName (name : Text) : Except Fault Kind :=
  let word := Text.lower name
  if word ∈ ["rolling".toList, "rollingmailstore".toList, "memory".toList] then .ok .recent
  else if word ∈ ["eml".toList, "emlmailstore".toList, "file".toList] then .ok .folder
  else .error (.unknownMailbox name)

def Kind.name : Kind → Text
  | recent => "RollingMailStore".toList
  | folder => "EMLMailStore".toList

/-- A kind's own name stands for it. -/
theorem Kind.ofName_name (k : Kind) : Kind.ofName k.name = .ok k := by cases k <;> rfl

/-- A new mailbox. A capacity matters only in memory, and a directory only on disk. -/
def create (kind : Kind) (capacity : Nat) (directory : Bytes) : Except Fault Mailbox :=
  match kind with
  | .recent => (Recent.empty capacity).map recent
  | .folder => .ok (folder ⟨directory, none⟩)

/-! ### Operations -/

def wrap {α : Type} (o : Outcome Folder α) : Outcome Mailbox α :=
  ⟨o.result, folder o.mailbox, o.disk, o.notices⟩

def add (b : Mailbox) (m : Message) (d : Disk) : Outcome Mailbox Unit :=
  match b with
  | recent r => ⟨.ok (), recent (r.add m), d, []⟩
  | folder f => wrap (f.add m d)

def clear (b : Mailbox) (d : Disk) : Outcome Mailbox Unit :=
  match b with
  | recent r => ⟨.ok (), recent r.clear, d, []⟩
  | folder f => wrap (f.clear d)

/-- Every message, oldest first. -/
def messages (b : Mailbox) (d : Disk) : Outcome Mailbox (List Message) :=
  match b with
  | recent r => ⟨.ok r.messages, recent r, d, []⟩
  | folder f => wrap (f.messages d)

/-- Answers a question about the list of messages. -/
def ask {α : Type} (b : Mailbox) (d : Disk) (question : List Message → Except Fault α) :
    Outcome Mailbox α :=
  let o := b.messages d
  ⟨o.result.bind question, o.mailbox, o.disk, o.notices⟩

def message (b : Mailbox) (index : Nat) (d : Disk) : Outcome Mailbox Message :=
  b.ask d fun messages =>
    match messages[index]? with
    | some m => .ok m
    | none => .error (.indexOutOfRange index messages.length)

def length (b : Mailbox) (d : Disk) : Outcome Mailbox Nat :=
  b.ask d fun messages => .ok messages.length

def isEmpty (b : Mailbox) (d : Disk) : Outcome Mailbox Bool :=
  b.ask d fun messages => .ok messages.isEmpty

end Mailbox
end MailCapture
