import MailCapture.Session.Basic
import MailCapture.Wire.Stream

/-! Sessions over a connection, byte by byte.

A `Conversation` is a session with the line it is reading. Each byte either joins the line, ends it,
or is one too many: then a command is skipped to its end and refused, and a line of message data
ends the conversation. Everything the outside can see of a conversation is in its `acts`, so what
was written, delivered and noticed, and in which order, are views of one list.

How the bytes were cut into reads makes no difference (`receiveAll_bytes`), and an ended
conversation hears nothing more (`receiveAll_ended`). -/
namespace MailCapture

/-- Something a conversation does to the world. -/
inductive Act where
  | wrote (bytes : Bytes)
  | delivered (m : Message)
  | noticed (n : Notice)
deriving DecidableEq, Repr

inductive Conversation.Mode where
  /-- Reading a line that may have `room` more bytes; those it has, newest first. -/
  | reading (room : Nat) (line : Bytes)
  /-- Passing over the rest of an overlong command. -/
  | skipping
  /-- Ended, by a failure or quietly. -/
  | ended (failure : Option StreamError)
deriving DecidableEq, Repr

structure Conversation where
  session : Session
  mode : Conversation.Mode
  outlet : Outlet := .sound
  stop : StopSignal := .down
  /-- Whether replies wait first, and are not written if the stop signal comes up. -/
  delayed : Bool := false
  /-- What has been done, newest first. -/
  acts : List Act := []
deriving DecidableEq, Repr

namespace Conversation

/-! ### Views -/

def isEnded (c : Conversation) : Bool :=
  match c.mode with
  | .ended _ => true
  | _ => false

/-- The failure that ended the conversation. -/
def failure? (c : Conversation) : Option StreamError :=
  match c.mode with
  | .ended failure => failure
  | _ => none

/-- What has been done, in order. -/
def history (c : Conversation) : List Act := c.acts.reverse

def written (c : Conversation) : Bytes :=
  c.history.flatMap fun
    | .wrote bytes => bytes
    | _ => []

def deliveries (c : Conversation) : List Message :=
  c.history.filterMap fun
    | .delivered m => some m
    | _ => none

/-! ### Speaking -/

def finish (c : Conversation) (failure : Option StreamError) : Conversation :=
  {c with mode := .ended failure}

/-- Ready for the next line, unless the dialogue is over or the stop signal is up. -/
def await (c : Conversation) : Conversation :=
  if c.session.phase = .connect then c.finish none
  else
    let (raised, stop) := c.stop.look
    if raised then {c with stop}.finish none
    else {c with stop, mode := .reading c.session.phase.lineLimit []}

def write (c : Conversation) (bytes : Bytes) : Conversation :=
  let (taken, outlet, failure) := c.outlet.write bytes
  let c := {c with outlet, acts := .wrote taken :: c.acts}
  if failure.isSome then c.finish failure else c.await

/-- Writes the reply of an answer, if it has one. -/
def say (c : Conversation) (a : Answer) : Conversation :=
  match a.reply with
  | none => c.await
  | some reply =>
    let (raised, stop) := if c.delayed then c.stop.look else (false, c.stop)
    if raised then {c with stop}.finish none
    else {c with stop}.write (Text.encode reply.line)

/-- Takes over what a step did to the session. A message is delivered before its answer. -/
def follow (c : Conversation) (t : Turn) : Conversation :=
  let done := t.notices.map Act.noticed ++ t.delivered.toList.map Act.delivered
  {c with session := t.session, acts := done.reverse ++ c.acts}.say t.answer

/-! ### Listening -/

/-- The text of a line without its newline. One carriage return at its end goes too. -/
def lineText (raw : Bytes) : Text :=
  Text.decode (if raw.getLast? = some 13 then raw.dropLast else raw)

def hearLine (c : Conversation) (raw : Bytes) : Conversation :=
  c.follow (c.session.accept (lineText raw))

/-- The line has all the bytes it may have, and no newline. -/
def overflow (c : Conversation) : Conversation :=
  let c := {c with acts := .noticed .lineTooLong :: c.acts}
  if c.session.phase.isData then
    {c with session := c.session.breakOff}.say (.lineTooLong .connect)
  else {c with mode := .skipping}

/-- Refuses a line passed over. -/
def refuse (c : Conversation) : Conversation := c.say (.lineTooLong c.session.phase)

def hear (c : Conversation) (b : UInt8) : Conversation :=
  match c.mode with
  | .reading room line =>
    if b = 10 then c.hearLine line.reverse
    else if room ≤ 1 then c.overflow
    else {c with mode := .reading (room - 1) (b :: line)}
  | .skipping => if b = 10 then c.refuse else c
  | .ended _ => c

/-- A fault while reading ends the conversation, quietly if it was only the wait for input, and an
interruption is nothing at all. While skipping, every fault is a failure. -/
def stumble (c : Conversation) (e : StreamError) : Conversation :=
  match c.mode with
  | .reading _ _ =>
    match e.kind with
    | .interrupted => c
    | .timedOut => c.finish none
    | .broken => c.finish (some e)
  | .skipping => c.finish (some e)
  | .ended _ => c

def receive (c : Conversation) : Arrival → Conversation
  | .bytes read => read.foldl hear c
  | .fault e => c.stumble e

def receiveAll (c : Conversation) (arrivals : List Arrival) : Conversation :=
  arrivals.foldl receive c

/-- The client has no more to say. A last line without a newline counts. -/
def close (c : Conversation) : Conversation :=
  let c := match c.mode with
    | .reading _ [] => c
    | .reading _ line => c.hearLine line.reverse
    | .skipping => c.refuse
    | .ended _ => c
  if c.isEnded then c else c.finish none

/-! ### Whole conversations -/

/-- The greeting. In a session already under way it is out of sequence and changes nothing. -/
def start (session : Session) (outlet : Outlet) (stop : StopSignal) (delayed : Bool) :
    Conversation :=
  let c : Conversation := { session, mode := .ended none, outlet, stop, delayed }
  c.follow session.greet

/-- From the greeting to the end of input. -/
def run (session : Session) (arrivals : List Arrival) (outlet : Outlet) (stop : StopSignal)
    (delayed : Bool) : Conversation :=
  ((start session outlet stop delayed).receiveAll arrivals).close

/-! ### What does not matter -/

theorem receiveAll_append (c : Conversation) (a b : List Arrival) :
    c.receiveAll (a ++ b) = (c.receiveAll a).receiveAll b :=
  List.foldl_append

theorem receive_bytes_append (c : Conversation) (a b : Bytes) :
    c.receive (.bytes (a ++ b)) = (c.receive (.bytes a)).receive (.bytes b) :=
  List.foldl_append

/-- Reads tell the conversation nothing but their bytes. -/
theorem receiveAll_bytes (c : Conversation) (reads : List Bytes) :
    c.receiveAll (reads.map .bytes) = c.receive (.bytes reads.flatten) := by
  induction reads generalizing c with
  | nil => rfl
  | cons read rest ih =>
    rw [List.flatten_cons, receive_bytes_append, ← ih]
    rfl

theorem hear_ended {c : Conversation} (h : c.isEnded = true) (b : UInt8) : c.hear b = c := by
  unfold isEnded at h
  unfold hear
  split at h <;> simp_all

theorem receive_ended {c : Conversation} (h : c.isEnded = true) (a : Arrival) :
    c.receive a = c := by
  cases a with
  | bytes read =>
    induction read with
    | nil => rfl
    | cons b rest ih =>
      rw [receive, List.foldl_cons, hear_ended h]
      exact ih
  | fault e =>
    unfold isEnded at h
    unfold receive stumble
    split at h <;> simp_all

theorem receiveAll_ended {c : Conversation} (h : c.isEnded = true) (arrivals : List Arrival) :
    c.receiveAll arrivals = c := by
  induction arrivals with
  | nil => rfl
  | cons a rest ih =>
    rw [receiveAll, List.foldl_cons, receive_ended h]
    exact ih

end Conversation
end MailCapture
