import MailCapture.Mailbox.Basic
import MailCapture.Wire.Conversation

/-! Delivery.

What a session completes goes into a mailbox at once. A message that the mailbox does not take is a
notice for the log and nothing else: the client has its reply either way. -/
namespace MailCapture.Mailbox

/-- A mailbox on its disk, and what the log has heard. -/
structure Post where
  mailbox : Mailbox
  disk : Disk
  log : List Notice := []

namespace Post

def notice (p : Post) (n : Notice) : Post := {p with log := p.log ++ [n]}

def deliver (p : Post) (m : Message) : Post :=
  let o := p.mailbox.add m p.disk
  let failure := match o.result with
    | .ok () => []
    | .error f => [.notStored f]
  ⟨o.mailbox, o.disk, p.log ++ o.notices ++ failure⟩

/-- What one act of a conversation means for the mailbox. -/
def follow (p : Post) : Act → Post
  | .wrote _ => p
  | .delivered m => p.deliver m
  | .noticed n => p.notice n

def followAll (p : Post) (acts : List Act) : Post := acts.foldl follow p

/-- What one step of a session means for the mailbox. -/
def take (p : Post) (t : Turn) : Post :=
  p.followAll (t.notices.map .noticed ++ t.delivered.toList.map .delivered)

theorem followAll_append (p : Post) (a b : List Act) :
    p.followAll (a ++ b) = (p.followAll a).followAll b :=
  List.foldl_append

end Post
end MailCapture.Mailbox
