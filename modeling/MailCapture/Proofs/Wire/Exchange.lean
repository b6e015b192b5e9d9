import MailCapture.Proofs.Session.Steps
import MailCapture.Proofs.Text.AsciiBytes
import MailCapture.Proofs.Wire.Undisturbed

/-! Lines sent over a connection.

A client ends each line with a carriage return and a newline. As long as its lines fit, a
conversation hears exactly them: an `Exchange` is a number of lines with what is done about them,
from one session to another, and `Exchange.receive` says that the bytes of the lines do just that to
a conversation. -/
namespace MailCapture

/-! ### Lines as bytes -/

/-- A line as it is sent. -/
def wireLine (line : Text) : Bytes := Text.encode (line ++ ['\r', '\n'])

def wire (lines : List Text) : Bytes := lines.flatMap wireLine

@[simp] theorem wire_nil : wire [] = [] := rfl

@[simp] theorem wire_cons (line : Text) (rest : List Text) :
    wire (line :: rest) = wireLine line ++ wire rest := rfl

@[simp] theorem wire_append (a b : List Text) : wire (a ++ b) = wire a ++ wire b :=
  List.flatMap_append

theorem wireLine_eq (line : Text) : wireLine line = Text.encode line ++ [13] ++ [10] := by
  rw [wireLine, Text.encode_append, List.append_assoc]
  rfl

theorem length_wireLine (line : Text) : (wireLine line).length = Session.lineSize line := by
  rw [wireLine, Text.length_encode, Text.size_append]
  rfl

theorem length_wire_cons (line : Text) (rest : List Text) :
    (wire (line :: rest)).length = Session.lineSize line + (wire rest).length := by
  rw [wire_cons, List.length_append, length_wireLine]

theorem lineText_encode (line : Text) :
    Conversation.lineText (Text.encode line ++ [13]) = line := by
  rw [Conversation.lineText, if_pos List.getLast?_concat, List.dropLast_concat,
    Text.decode_encode]

/-! ### Exchanges -/

/-- Some lines that fit, in the phases they find, and what is done about them. -/
inductive Exchange : Session → List Text → List Act → Session → Prop
  | nil {s} : Exchange s [] [] s
  | cons {s line turn rest acts last} (going : s.phase ≠ .connect) (newline : '\n' ∉ line)
      (fits : (wireLine line).length ≤ s.phase.lineLimit) (accepted : s.accept line = turn)
      (next : Exchange turn.session rest acts last) :
      Exchange s (line :: rest) (turn.acts ++ acts) last

namespace Exchange

variable {s t last : Session} {line : Text} {a b : List Text} {acts more : List Act}

theorem single (going : s.phase ≠ .connect) (newline : '\n' ∉ line)
    (fits : (wireLine line).length ≤ s.phase.lineLimit) {turn : Turn}
    (accepted : s.accept line = turn) : Exchange s [line] turn.acts turn.session := by
  rw [← List.append_nil turn.acts]
  exact .cons going newline fits accepted .nil

theorem append (h : Exchange s a acts t) (h' : Exchange t b more last) :
    Exchange s (a ++ b) (acts ++ more) last := by
  induction h with
  | nil => exact h'
  | cons going newline fits accepted next ih =>
    rw [List.append_assoc]
    exact .cons going newline fits accepted (ih h')

/-- The bytes of the lines take a conversation through the exchange. -/
theorem receive (h : Exchange s a acts last) (delayed : Bool) (done : List Act) :
    (Conversation.ready s delayed done).receive (.bytes (wire a)) =
      Conversation.ready last delayed (done ++ acts) := by
  induction h generalizing done with
  | nil =>
    rw [List.append_nil]
    rfl
  | @cons s line turn rest acts last going newline fits accepted next ih =>
    have hraw : 10 ∉ Text.encode line ++ [13] := by
      rw [List.mem_append, not_or]
      exact ⟨Text.notMem_encode (by decide) newline, by decide⟩
    have hlength : (Text.encode line ++ [13]).length < s.phase.lineLimit := by
      rw [wireLine_eq, List.length_append] at fits
      exact fits
    rw [wire_cons, Conversation.receive_bytes_append, wireLine_eq,
      Conversation.hear_line delayed done hraw going hlength, lineText_encode, accepted, ih,
      List.append_assoc]

end Exchange
end MailCapture
