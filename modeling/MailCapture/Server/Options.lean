import MailCapture.Mailbox.Basic
import MailCapture.Server.Address
import MailCapture.Session.Basic

/-! How a server is set up. -/
namespace MailCapture.Server

structure Options where
  /-- The address to listen on. -/
  host : Address := .localhost
  port : Nat := 25
  /-- The name the server goes by in its replies. -/
  hostname : Text := "localhost".toList
  /-- Whether clients are served side by side. -/
  threaded : Bool := true
  threads : Nat := 10
  kind : Mailbox.Kind := .recent
  /-- Of a mailbox in memory. -/
  capacity : Nat := Recent.defaultCapacity
  /-- Of a mailbox in a folder. -/
  directory : Bytes := Folder.defaultDirectory
  /-- Milliseconds before every reply. -/
  replyDelay : Nat := 0
  /-- Milliseconds a client may be silent; 0 for any time. -/
  readTimeout : Nat := 10000
  /-- Bytes of data a message may have. -/
  sizeLimit : Nat := Session.defaultSizeLimit
deriving DecidableEq, Repr

/-- The size of the crew: one worker unless clients are served side by side. -/
def Options.crewSize (o : Options) : Nat := if o.threaded then o.threads else 1

end MailCapture.Server
