import MailCapture.Crew
import MailCapture.Mailbox.Delivery
import MailCapture.Server.Options

/-! Servers.

A server is a mailbox, a crew and the clients they serve. Each client is a job for the crew: until a
worker takes it, it is connected but not greeted, and what it sends waits. Whatever a conversation
completes is in the mailbox before the server does anything else. -/
namespace MailCapture

/-- One client's connection. -/
structure Client where
  number : Nat
  /-- Nothing until a worker has taken the client. -/
  conversation : Option Conversation := none
  /-- What the client sent before that, and whether it has closed its side. -/
  waiting : List Arrival := []
  closed : Bool := false
  /-- What has been written to the client and not been read by it. -/
  unread : Bytes := []

structure Server where
  options : Server.Options
  post : Mailbox.Post
  crew : Crew
  running : Bool := true
  clients : List Client := []

/-- What the machine's network makes of a server and its clients. -/
structure Network where
  /-- Whether someone else listens on the server's port. -/
  portInUse : Bool := false
  /-- Whether the machine has no network at all, not even with itself. -/
  isolated : Bool := false
deriving DecidableEq, Repr

/-- Why an address cannot be listened on. Addresses of version 4 are taken on trust, those of
version 6 have to be the machine's own. -/
def Network.bindError? (n : Network) (host : Address) : Option OsError :=
  if n.isolated ∧ !host.isV4 ∧ !host.isAny then
    some (if host.isScoped then .invalidArgument else .addressUnavailable)
  else if n.portInUse then some .addressInUse
  else none

/-- Why nobody can connect to an address that is listened on. -/
def Network.connectError? (n : Network) (host : Address) : Option OsError :=
  if !n.isolated then none
  else if host.isV4 then some .networkUnreachable
  else some .addressUnavailable

namespace Server

/-! ### Starting and stopping -/

/-- Starts with a mailbox of the caller's. The crew is hired before the address is taken. -/
def startWith (o : Options) (mailbox : Mailbox) (d : Disk) (n : Network) : Except Fault Server :=
  match Crew.hire o.crewSize with
  | .error f => .error f
  | .ok crew =>
    match n.bindError? o.host with
    | some e => .error (.system e)
    | none => .ok { options := o, post := { mailbox, disk := d }, crew }

/-- Starts with the mailbox that the options ask for. -/
def start (o : Options) (d : Disk) (n : Network) : Except Fault Server :=
  match Mailbox.create o.kind o.capacity o.directory with
  | .error f => .error f
  | .ok mailbox => startWith o mailbox d n

/-- Takes no more clients, and raises the stop signal for those it has. -/
def stop (s : Server) : Server :=
  { s with
    running := false
    crew := s.crew.close
    clients := s.clients.map fun client =>
      { client with conversation := client.conversation.map fun c => {c with stop := .raised} } }

/-! ### Clients -/

def client? (s : Server) (number : Nat) : Option Client :=
  s.clients.find? fun client => client.number = number

def replace (s : Server) (client : Client) : Server :=
  {s with clients := s.clients.map fun other =>
    if other.number = client.number then client else other}

/-- Takes what a conversation has done into the mailbox and to the client. -/
def settle (s : Server) (client : Client) (c : Conversation) : Server :=
  let s := {s with post := s.post.followAll c.history}
  s.replace { client with
    conversation := some {c with acts := []}
    unread := client.unread ++ c.written }

/-- Serves a client that a worker has just taken: greets it and hears what it has sent so far. -/
def begin (s : Server) (client : Client) : Server :=
  let session : Session := { hostname := s.options.hostname, sizeLimit := s.options.sizeLimit }
  let signal := if s.running then StopSignal.down else .raised
  let c := (Conversation.start session .sound signal (s.options.replyDelay ≠ 0)).receiveAll
    client.waiting
  s.settle {client with waiting := []} (if client.closed then c.close else c)

/-- Lets free workers take clients, and workers whose conversation has ended go free. -/
def assign : (turns : Nat) → Server → Server
  | 0, s => s
  | turns + 1, s =>
    let ended := s.crew.running.find? fun job =>
      ((s.client? job.number).bind (·.conversation)).any Conversation.isEnded
    match ended, s.crew.queue with
    | some job, _ => assign turns {s with crew := s.crew.finish job}
    | none, job :: rest =>
      if s.crew.hasFree then
        let s := {s with crew := s.crew.take job rest}
        match s.client? job.number with
        | some client => assign turns (s.begin client)
        | none => assign turns s
      else s
    | none, [] => s

/-- Enough turns for every client to be taken and to leave. -/
def advance (s : Server) : Server :=
  assign (2 * (s.crew.queue.length + s.crew.running.length) + 1) s

/-- A new client, under a number of its own. -/
def connect (s : Server) (n : Network) (number : Nat) : Except OsError Server :=
  match n.connectError? s.options.host with
  | some e => .error e
  | none =>
    if !s.running then .error .connectionRefused
    else .ok (advance { s with
      clients := s.clients ++ [{ number }]
      crew := s.crew.submit ⟨number, false⟩ })

/-- Something arrives from a client. -/
def receive (s : Server) (number : Nat) (a : Arrival) : Server :=
  match s.client? number with
  | none => s
  | some client =>
    match client.conversation with
    | none => s.replace {client with waiting := client.waiting ++ [a]}
    | some c => advance (s.settle client (c.receive a))

/-- A client closes its side. -/
def close (s : Server) (number : Nat) : Server :=
  match s.client? number with
  | none => s
  | some client =>
    match client.conversation with
    | none => s.replace {client with closed := true}
    | some c => advance (s.settle client c.close)

/-- A client reads all that has been written to it. -/
def drain (s : Server) (number : Nat) : Bytes × Server :=
  match s.client? number with
  | none => ([], s)
  | some client => (client.unread, s.replace {client with unread := []})

/-! ### The mailbox -/

/-- Asks the mailbox something. -/
def query {α : Type} (s : Server) (question : Mailbox → Disk → Outcome Mailbox α) :
    Except Fault α × Server :=
  let o := question s.post.mailbox s.post.disk
  (o.result, {s with post := ⟨o.mailbox, o.disk, s.post.log ++ o.notices⟩})

def count (s : Server) : Except Fault Nat × Server := s.query fun b d => b.length d

/-- Counts until there are at least `wanted` messages, again at each of so many ticks, and gives the
last count. -/
def anticipate (s : Server) (wanted : Nat) : (ticks : Nat) → Except Fault Nat × Server
  | 0 => s.count
  | ticks + 1 =>
    match s.count with
    | (.ok count, s') => if wanted ≤ count then (.ok count, s') else anticipate s' wanted ticks
    | (.error f, s') => (.error f, s')

end Server
end MailCapture
