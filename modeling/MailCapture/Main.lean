import MailCapture.CommandLine.Report
import Std.Async.Signal
import Std.Async.TCP
import Std.Async.Timer
import Std.Sync.CancellationToken
import Std.Sync.Channel

/-! The program.

Every decision is the server's. This layer carries bytes between sockets and the server, brings what
the server does to its disk into the folder of the mailbox, and prints the log. -/
namespace MailCapture.Program

open Std.Async

/-! ### The screen -/

def say (t : Text) : IO Unit := do
  let out ← IO.getStdout
  out.putStrLn (String.ofList t)
  out.flush

def sayInfo (t : Text) : IO Unit := say ("INFO catchmail: ".toList ++ t)

/-- Ends with a report. -/
def conclude (r : CommandLine.Report) : IO UInt32 := do
  r.output.forM say
  IO.eprint (String.ofList r.errors)
  return r.exit.toUInt32

/-- What the machine refused a call with. -/
def cause : IO.Error → OsError
  | .noFileOrDirectory .. => .notFound
  | .permissionDenied .. => .permissionDenied
  | .alreadyExists .. => .alreadyExists
  | .inappropriateType _ number _ => if number = 20 then .notDirectory else .isDirectory
  | .invalidArgument _ number _ =>
    if number = 36 then .nameTooLong
    else if number = 40 then .tooManyLinks
    else .invalidArgument
  | .resourceBusy .. => .addressInUse
  | .unsupportedOperation .. => .addressUnavailable
  | .resourceVanished .. => .connectionReset
  | e => .reported e.toString.toList

/-! ### The folder -/

def refusal? {α : Type} : Except IO.Error α → Option OsError
  | .ok _ => none
  | .error e => some (cause e)

def makeFolder (directory : String) : IO Unit := do
  try IO.FS.createDir directory
  catch
    | .noFileOrDirectory .. => IO.FS.createDirAll directory
    | e => throw e

/-- The folder as it is on the machine, where it is made if it is missing. Its message files are
there only if they are yet to be read. What the machine refuses, the disk refuses too. -/
def copyFolder (f : Folder) : IO Disk := do
  let folder := (← IO.currentDir) / String.ofList (Text.decode f.directory)
  if !(← folder.pathExists) then
    if let .error e ← (makeFolder folder.toString).toBaseIO then
      return { refusals := [some (cause e)] }
  let bare := (({} : Disk).createAll f.directory).2
  if f.ledger.isSome then return bare
  match ← folder.readDir.toBaseIO with
  | .error e => return { bare with refusals := [some (cause e)] }
  | .ok entries =>
    let isMessage (entry : IO.FS.DirEntry) : IO Bool := do
      let isFile := (← entry.path.symlinkMetadata.toBaseIO).toOption.any (·.type == .file)
      return isFile && Message.isMessageFile entry.fileName.toList
    let files ← (← entries.toList.filterM isMessage).mapM fun entry => do
      return (entry.fileName.toList, ← (IO.FS.readBinFile entry.path).toBaseIO)
    let disk := files.foldr (fun (name, content) d =>
      let content := content.toOption.getD .empty
      (d.write (Path.inside f.directory (Text.encode name)) content.toList).2) bare
    return { disk with refusals := none :: files.map fun file => refusal? file.2 }

/-- Writes the files that are new on the disk into the folder. -/
def writeBack (directory : Bytes) (old new : Disk) : IO Unit :=
  for (place, node) in new.entries do
    if let .file content := node then
      if old.node? place ≠ some node then
        let path := Path.inside directory (place.getLast?.getD [])
        try IO.FS.writeBinFile (String.ofList (Text.decode path)) ⟨content.toArray⟩
        catch e => say (Notice.notStored (.unwritten path (cause e))).text

/-- Runs something on the server. Between runs the server's disk is empty; if it is not afterwards,
the folder is needed, and the run is made again on a copy of the folder. -/
def onFolder {α : Type} (s : Server) (run : Server → α × Server) : IO (α × Server) := do
  let (result, after) := run s
  match s.post.mailbox with
  | .recent _ => return (result, after)
  | .folder f =>
    if after.post.disk.entries.isEmpty then return (result, after)
    let disk ← copyFolder f
    let (result, after) := run {s with post := {s.post with disk}}
    writeBack f.directory disk after.post.disk
    return (result, { after with post := { after.post with disk := {} } })

/-! ### Clients -/

/-- A client's socket, and the replies on their way to it. -/
structure Line where
  number : Nat
  socket : TCP.Socket.Client
  replies : Std.CloseableChannel ByteArray
  /-- Whether the client's bytes are being read. -/
  isHeard : Bool := false

structure Office where
  server : Server
  lines : List Line := []

/-- A server at work. -/
structure Service where
  options : Server.Options
  office : Std.Mutex Office
  /-- Cancelled when the user interrupts. -/
  interrupt : Std.CancellationToken

def inBackground (act : IO Unit) : IO Unit := discard <| IO.asTask act Task.Priority.dedicated

/-- A client was silent for too long. -/
def silence : StreamError := ⟨.timedOut, "Resource temporarily unavailable (os error 11)".toList⟩

/-- A client is gone, which is nothing to report. -/
def hangUp : StreamError := ⟨.broken, OsError.connectionReset.text⟩

/-- The lines of a read. A conversation does not mind the cut (`receive_bytes_append`), and so every
reply is sent on its own. -/
def cut : Bytes → List Bytes
  | [] => []
  | b :: rest =>
    match cut rest with
    | [] => [[b]]
    | line :: more => if b = 10 then [b] :: line :: more else (b :: line) :: more

namespace Service

/-- Waits for an event, but no longer than until the user interrupts. With a limit in milliseconds,
other than 0, `late` comes instead of an event that does not. -/
def await {α : Type} (v : Service) (event : Selectable (Option α)) (limit : Nat := 0)
    (late : Option α := none) : IO (Option α) :=
  let stop := Selectable.case v.interrupt.selector fun _ => return none
  if limit = 0 then (Selectable.one #[event, stop]).block
  else Async.block do
    let silence ← Selector.sleep (.ofNat limit)
    Selectable.one #[event, stop, .case silence fun _ => return late]

/-- Lets something on a socket take its time, but no longer than until the user interrupts. -/
def allow (v : Service) (act : Async Unit) : IO Unit :=
  (Async.race act do Async.ofAsyncTask (← v.interrupt.wait)).block

/-- Does something with the server and sends the clients what it wrote to them. The lines of clients
whose conversation is over are closed; those of clients just greeted are given back, to be heard. -/
def step (v : Service) (change : Server → Server) : IO (List Line) :=
  v.office.atomically do
    let o ← get
    let (_, after) ← onFolder o.server fun s => ((), change s)
    after.post.log.forM fun n => say n.text
    let mut server := {after with post := {after.post with log := []}}
    let mut kept := []
    let mut greeted := []
    for line in o.lines do
      let (bytes, drained) := server.drain line.number
      server := drained
      if bytes ≠ [] then discard <| line.replies.send ⟨bytes.toArray⟩
      match (server.client? line.number).bind (·.conversation) with
      | none => kept := line :: kept
      | some c =>
        if c.isEnded then
          if let some e := c.failure? then
            if e ≠ hangUp then say ("WARN Error handling client: IO error: ".toList ++ e.text)
          discard <| line.replies.close.toBaseIO
          server := {server with clients := server.clients.filter (·.number ≠ line.number)}
        else
          if !line.isHeard then greeted := line :: greeted
          kept := {line with isHeard := true} :: kept
    set (⟨server, kept.reverse⟩ : Office)
    return greeted.reverse

/-- Sends a client its replies, each after a wait, and hangs up after the last. -/
partial def talk (v : Service) (line : Line) : IO Unit := do
  match ← v.await (.case line.replies.recvSelector fun reply => return some reply) with
  | none => return
  | some none => v.allow line.socket.shutdown
  | some (some reply) =>
    if v.options.replyDelay ≠ 0 then
      let waited ← Async.block (Selector.sleep (.ofNat v.options.replyDelay))
      if (← v.await (.case waited fun _ => return some ())).isNone then return
    v.allow (line.socket.send reply)
    talk v line

/-- What comes next from a client, as steps of the server. -/
def next (v : Service) (line : Line) : IO (List (Server → Server)) := do
  let hear (a : Arrival) (s : Server) := s.receive line.number a
  let steps : Option ByteArray → List (Server → Server)
    | some read => (cut read.toList).map fun bytes => hear (.bytes bytes)
    | none => [(·.close line.number)]
  let read := Selectable.case (line.socket.recvSelector 4096) fun read => return some (steps read)
  try
    let next ← v.await read v.options.readTimeout (some [hear (.fault silence)])
    return next.getD []
  catch e => return [hear (.fault ⟨.broken, (cause e).text⟩)]

/-- Hears a client until its line is closed. -/
partial def hear (v : Service) (line : Line) : IO Unit := do
  let steps ← v.next line
  for change in steps do
    (← v.step change).forM fun other => inBackground (hear v other)
  if !steps.isEmpty && (← v.office.atomically get).lines.any (·.number = line.number) then
    hear v line

/-- Takes clients as they come, and numbers them. -/
partial def takeClients (v : Service) (socket : TCP.Socket.Server) (number : Nat) : IO Unit := do
  match ← (v.await (.case socket.acceptSelector fun client => return some client)).toBaseIO with
  | .error e =>
    say ("WARN Error accepting connection: ".toList ++ (cause e).text)
    IO.sleep 10
    takeClients v socket number
  | .ok none => return
  | .ok (some client) =>
    let line : Line := ⟨number, client, ← Std.CloseableChannel.new, false⟩
    v.office.atomically <| modify fun office => {office with lines := office.lines ++ [line]}
    inBackground (v.talk line)
    (← v.step fun s => (s.connect {} number).toOption.getD s).forM fun other =>
      inBackground (v.hear other)
    takeClients v socket (number + 1)

end Service

/-! ### The server -/

def socketAddress (o : Server.Options) : Std.Net.SocketAddress :=
  match o.host with
  | .v4 a b c d => .v4 ⟨.ofParts a b c d, o.port.toUInt16⟩
  | .v6 [a, b, c, d, e, f, g, h] => .v6 ⟨.ofParts a b c d e f g h, o.port.toUInt16⟩
  | .v6 _ => .v6 ⟨.ofParts 0 0 0 0 0 0 0 0, o.port.toUInt16⟩

def listen (o : Server.Options) : IO TCP.Socket.Server := do
  let socket ← TCP.Socket.Server.mk
  socket.bind (socketAddress o)
  socket.listen 128
  return socket

/-- Serves clients until the user interrupts. -/
def keepServing (o : Server.Options) (server : Server) (socket : TCP.Socket.Server) :
    IO UInt32 := do
  let interrupted ← (← Signal.Waiter.mk .sigint false).wait
  let v : Service := ⟨o, ← Std.Mutex.new { server }, ← Std.CancellationToken.new⟩
  inBackground (v.takeClients socket 0)
  let address := (toString (← socket.getSockName)).toList
  sayInfo ("SMTP server listening addr=".toList ++ address ++ " workers=".toList
    ++ Text.decimal server.crew.size)
  discard <| interrupted.block
  discard <| v.step Server.stop
  v.interrupt.cancel
  sayInfo ("SMTP server stopped addr=".toList ++ address)
  match (← onFolder (← v.office.atomically get).server Server.count).1 with
  | .ok count =>
    sayInfo (CommandLine.totalLine count)
    return 0
  | .error f => conclude (CommandLine.countFailure f)

def serve (o : Server.Options) : IO UInt32 := do
  sayInfo (CommandLine.startingLine o)
  let fail (f : Fault) : IO UInt32 := conclude {CommandLine.startFailure o f with output := []}
  match Server.start o {} {} with
  | .error f => fail f
  | .ok server =>
    match ← (listen o).toBaseIO with
    | .error e => fail (.system (cause e))
    | .ok socket => keepServing o server socket

end MailCapture.Program

def main (args : List String) : IO UInt32 :=
  open MailCapture in
  match CommandLine.parse (args.map String.toList) with
  | .error complaint => Program.conclude complaint.report
  | .ok .version => Program.conclude { exit := 0, output := [CommandLine.versionText] }
  | .ok .help => Program.conclude { exit := 0, output := CommandLine.helpLines }
  | .ok (.serve o) => Program.serve o
