import MailCapture.Fault

/-! A crew of workers.

Jobs wait in one queue. A free worker takes the job at its head; a job that breaks costs the crew
the worker that ran it. A crew that is closed takes no more jobs but still does those it has. `Step`
is everything a crew can do, in whatever order its workers get to it; `settle` is one such order,
each job run to its end before the next one starts. -/
namespace MailCapture

structure Job where
  number : Nat
  /-- Whether running it costs the worker. -/
  breaks : Bool
deriving DecidableEq, Repr

structure Crew where
  /-- How many workers there were at first. -/
  size : Nat
  lost : Nat := 0
  isOpen : Bool := true
  queue : List Job := []
  running : List Job := []
  /-- Every job started so far, in order. -/
  started : List Job := []
deriving DecidableEq, Repr

namespace Crew

/-! ### What can happen -/

/-- A new crew. One without workers is refused. -/
def hire (size : Nat) : Except Fault Crew :=
  if size = 0 then .error .noWorkers else .ok { size }

/-- A closed crew drops the job. -/
def submit (c : Crew) (j : Job) : Crew := if c.isOpen then {c with queue := c.queue ++ [j]} else c

def close (c : Crew) : Crew := {c with isOpen := false}

def hasFree (c : Crew) : Bool := c.lost + c.running.length < c.size

/-- A worker takes a job off the queue. -/
def take (c : Crew) (j : Job) (rest : List Job) : Crew :=
  {c with queue := rest, running := j :: c.running, started := c.started ++ [j]}

/-- A running job ends, with its worker if it breaks. -/
def finish (c : Crew) (j : Job) : Crew :=
  {c with running := c.running.erase j, lost := if j.breaks then c.lost + 1 else c.lost}

inductive Step : Crew → Crew → Prop
  | submit (c : Crew) (j : Job) : Step c (c.submit j)
  | close (c : Crew) : Step c c.close
  | take (c : Crew) (j : Job) (rest : List Job) (head : c.queue = j :: rest)
      (free : c.hasFree = true) : Step c (c.take j rest)
  | finish (c : Crew) (j : Job) (running : j ∈ c.running) : Step c (c.finish j)

/-! ### One order -/

/-- Runs the jobs of a queue one after the other, as long as there is a worker. -/
def settleQueue : List Job → Crew → Crew
  | [], c => c
  | j :: rest, c => if c.hasFree then settleQueue rest ((c.take j rest).finish j) else c

def settle (c : Crew) : Crew := settleQueue c.queue c

/-- The jobs that ran to their end. -/
def completed (c : Crew) : List Job :=
  c.started.filter fun j => !j.breaks && !c.running.contains j

end Crew
end MailCapture
