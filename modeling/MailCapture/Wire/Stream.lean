import MailCapture.Text.Utf8

/-! The two ends of a connection, as a session meets them.

Bytes arrive in reads of any length, with faults between them. Replies go to an `Outlet`, which may
stop taking bytes anywhere, even inside a reply. A stop signal may be raised at any moment; all that
shows of the moment is how many looks at the signal still find it down. -/
namespace MailCapture

/-! ### Faults -/

inductive StreamError.Kind where
  /-- The call was interrupted and may be made again. -/
  | interrupted
  /-- Nothing came, or nothing could be taken, in the time allowed. -/
  | timedOut
  | broken
deriving DecidableEq, Repr

structure StreamError where
  kind : StreamError.Kind
  text : Text
deriving DecidableEq, Repr

/-! ### Input -/

inductive Arrival where
  | bytes (read : Bytes)
  | fault (e : StreamError)
deriving DecidableEq, Repr

/-! ### Output -/

inductive Outlet where
  /-- Takes every byte. -/
  | sound
  /-- Takes `room` more bytes and fails at the next. -/
  | failing (room : Nat) (e : StreamError)
deriving DecidableEq, Repr

namespace Outlet

/-- The bytes taken of some bytes, the outlet afterwards, and the failure if there was one. An
interrupted write is made again until all is taken. Bytes that are taken count as sent: a peer that
takes all of them and then fails to flush is not a case of its own. -/
def write (bytes : Bytes) : Outlet → Bytes × Outlet × Option StreamError
  | sound => (bytes, sound, none)
  | failing room e =>
    if bytes.length ≤ room ∨ e.kind = .interrupted then
      (bytes, failing (room - bytes.length) e, none)
    else (bytes.take room, failing 0 e, some e)

/-- What is taken is a start of what is written. -/
theorem write_isPrefix (bytes : Bytes) (o : Outlet) : (o.write bytes).1 <+: bytes := by
  cases o with
  | sound => exact List.prefix_rfl
  | failing room e =>
    simp only [write]
    split
    · exact List.prefix_rfl
    · exact List.take_prefix room bytes

end Outlet

/-! ### Stopping -/

/-- A signal seen down by the next `downFor` looks and up from then on, or never up. -/
structure StopSignal where
  downFor : Option Nat
deriving DecidableEq, Repr

namespace StopSignal

def down : StopSignal := ⟨none⟩
def raised : StopSignal := ⟨some 0⟩

/-- Whether the signal is up, and the signal as the next look meets it. -/
def look : StopSignal → Bool × StopSignal
  | ⟨none⟩ => (false, ⟨none⟩)
  | ⟨some 0⟩ => (true, ⟨some 0⟩)
  | ⟨some (n + 1)⟩ => (false, ⟨some n⟩)

@[simp] theorem look_down : look down = (false, down) := rfl

end StopSignal
end MailCapture
