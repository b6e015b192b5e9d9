import MailCapture.Disk.Calls
import MailCapture.Message.File
import MailCapture.Message.FileName

/-! A mailbox in a folder.

Every message is a file of its own in one directory, numbered in order of arrival, and the mailbox
keeps a list of them in memory. Nothing touches the disk before the first use. Then the directory is
made if it is missing; otherwise its message files are read, and numbering goes on from how many
there are, readable or not. What was read back comes first in the list, in the order of the texts.

The list is what answers every question afterwards: a message whose file cannot be written stays in
it, and so a failing disk never changes an answer. -/
namespace MailCapture

/-- What an opened folder knows. -/
structure Ledger where
  /-- The number of the last message file. -/
  sequence : Nat := 0
  messages : List Message := []
deriving DecidableEq, Repr

structure Folder where
  directory : Bytes
  /-- Nothing until the folder has been opened. -/
  ledger : Option Ledger := none
deriving DecidableEq, Repr

/-- What an operation leaves behind. -/
structure Outcome (σ α : Type) where
  result : Except Fault α
  mailbox : σ
  disk : Disk
  notices : List Notice := []

namespace Folder

/-- The directory of a folder unless told otherwise. -/
def defaultDirectory : Bytes := Text.encode "eml_store".toList

/-! ### Opening -/

def isFile : Node → Bool
  | .file _ => true
  | _ => false

/-- The name of an entry that is a message file. Directories, links and names that are not text are
none. -/
def messageName? (entry : Bytes × Node) : Option Text :=
  match Text.decode? entry.1 with
  | some name => if Message.isMessageFile name && isFile entry.2 then some name else none
  | none => none

def messageFiles (directory : Bytes) (d : Disk) : Except OsError (List Text) × Disk :=
  match d.list directory with
  | (.error e, d) => (.error e, d)
  | (.ok entries, d) => (.ok (entries.filterMap messageName?), d)

/-- The message in a file. -/
def readMessage (content : Except OsError Bytes) : Except OsError Message :=
  match content with
  | .error e => .error e
  | .ok bytes =>
    match Text.decode? bytes with
    | some text => .ok (Message.parse text)
    | none => .error .notUtf8

/-- Reads files one by one. One that cannot be read is passed over with a notice. -/
def recover (directory : Bytes) : List Text → Disk → List Message × List Notice × Disk
  | [], d => ([], [], d)
  | name :: rest, d =>
    let (content, d) := d.read (Path.inside directory (Text.encode name))
    let (messages, notices, d) := recover directory rest d
    match readMessage content with
    | .ok m => (m :: messages, notices, d)
    | .error e => (messages, .unreadableFile e :: notices, d)

/-- The order in which recovered messages are listed. A directory gives its files in an order of its
own, so this is one choice among all; what is proved of recovered messages holds up to their order. -/
def byText (messages : List Message) : List Message :=
  messages.mergeSort fun a b => Text.le a.text b.text

/-- The ledger of a directory on a disk. -/
def load (directory : Bytes) (d : Disk) : Except OsError Ledger × Disk × List Notice :=
  if d.isThere directory then
    match messageFiles directory d with
    | (.error e, d) => (.error e, d, [])
    | (.ok names, d) =>
      let (messages, notices, d) := recover directory names d
      (.ok ⟨names.length, byText messages⟩, d, notices)
  else
    match d.createAll directory with
    | (.error e, d) => (.error e, d, [])
    | (.ok (), d) => (.ok {}, d, [])

/-- Does something with the ledger, after loading it on the first use. A folder that cannot be
loaded stays as it was. -/
def opened {α : Type} (f : Folder) (d : Disk)
    (use : Ledger → Disk → Outcome Ledger α) : Outcome Folder α :=
  let go (ledger : Ledger) (d : Disk) (notices : List Notice) : Outcome Folder α :=
    let o := use ledger d
    ⟨o.result, {f with ledger := some o.mailbox}, o.disk, notices ++ o.notices⟩
  match f.ledger with
  | some ledger => go ledger d []
  | none =>
    match load f.directory d with
    | (.ok ledger, d, notices) => go ledger d notices
    | (.error e, d, notices) => ⟨.error (.folder f.directory e), f, d, notices⟩

/-! ### Adding -/

/-- Writes a message file, making the directory again if it has gone. -/
def writeFile (directory path : Bytes) (m : Message) (d : Disk) : Except OsError Unit × Disk :=
  let (made, d) :=
    if d.isThere directory then (.ok (), d) else d.createAll directory
  match made with
  | .error e => (.error e, d)
  | .ok () => d.write path (Text.encode m.text)

/-- The message is listed whether or not its file can be written. -/
def add (f : Folder) (m : Message) (d : Disk) : Outcome Folder Unit :=
  f.opened d fun ledger d =>
    let sequence := ledger.sequence + 1
    let path := Path.inside f.directory (Text.encode (m.fileName sequence))
    let (written, d) := writeFile f.directory path m d
    ⟨written.mapError (.unwritten path), ⟨sequence, ledger.messages ++ [m]⟩, d, []⟩

/-! ### Clearing -/

/-- Removes files one by one. One that cannot be removed stays, with a notice. -/
def removeFiles (directory : Bytes) : List Text → Disk → List Notice × Disk
  | [], d => ([], d)
  | name :: rest, d =>
    let (removed, d) := d.remove (Path.inside directory (Text.encode name))
    let (notices, d) := removeFiles directory rest d
    match removed with
    | .ok () => (notices, d)
    | .error e => (.undeletableFile e :: notices, d)

/-- Empties the list and starts numbering again, whatever becomes of the files. -/
def clear (f : Folder) (d : Disk) : Outcome Folder Unit :=
  f.opened d fun _ d =>
    match messageFiles f.directory d with
    | (.error e, d) => ⟨.ok (), {}, d, [.unlistableFolder e]⟩
    | (.ok names, d) =>
      let (notices, d) := removeFiles f.directory names d
      ⟨.ok (), {}, d, notices⟩

/-! ### Reading -/

def messages (f : Folder) (d : Disk) : Outcome Folder (List Message) :=
  f.opened d fun ledger d => ⟨.ok ledger.messages, ledger, d, []⟩

end Folder
end MailCapture
