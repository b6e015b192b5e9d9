/-! Stop signals and the handles on them.

A signal is up or down and never goes down again. Any number of handles may share one; raising it by
one handle shows on all of them. -/
namespace MailCapture

structure StopBoard where
  /-- Whether each signal is up. -/
  signals : List Bool := [false]
  /-- The signal each handle is on. -/
  handles : List Nat := [0]
deriving DecidableEq, Repr

namespace StopBoard

def isUp (b : StopBoard) (handle : Nat) : Bool :=
  match b.handles[handle]? with
  | some signal => b.signals[signal]?.getD false
  | none => false

def raise (b : StopBoard) (handle : Nat) : StopBoard :=
  match b.handles[handle]? with
  | some signal => {b with signals := b.signals.set signal true}
  | none => b

/-- One more handle on the signal of a handle. -/
def share (b : StopBoard) (handle : Nat) : StopBoard :=
  {b with handles := b.handles ++ b.handles[handle]?.toList}

/-- A signal of its own, and a handle on it. -/
def fresh (b : StopBoard) : StopBoard :=
  ⟨b.signals ++ [false], b.handles ++ [b.signals.length]⟩

end StopBoard
end MailCapture
