import MailCapture.Dialogue.Command
import MailCapture.Dialogue.Reply

/-! The rules of the dialogue.

`Command.answer` is the whole table: what a command is answered in each phase, and which phase
follows. A command out of its phase is answered 503 and leaves the phase as it is. -/
namespace MailCapture

/-- A transaction may begin after the greeting and after a message. -/
def Phase.isReady : Phase → Bool
  | greet | quit => true
  | _ => false

/-- Recipients are named after the sender. -/
def Phase.isAddressing : Phase → Bool
  | sender | recipient => true
  | _ => false

/-- Commands are heard between the greeting and goodbye, outside message data. -/
def Phase.isCommand : Phase → Bool
  | greet | sender | recipient | quit => true
  | _ => false

def Command.answer (c : Command) (phase : Phase) (hostname : Text) : Answer :=
  let refused := Answer.badSequence c.verb phase
  match c with
  | .connect => if phase = .connect then .greeting hostname else refused
  | .hello domain => if phase.isReady then .hello hostname domain else refused
  | .mail none => if phase.isReady then .syntaxError phase else refused
  | .mail (some _) => if phase.isReady then .ok .sender else refused
  | .rcpt none => if phase.isAddressing then .syntaxError phase else refused
  | .rcpt (some _) => if phase.isAddressing then .ok .recipient else refused
  | .data => if phase = .recipient then .startInput else refused
  | .headerLine _ => if phase = .headers then .silent .headers else refused
  | .emptyLine => if phase = .headers then .silent .body else refused
  | .bodyLine _ => if phase = .body then .silent .body else refused
  | .endOfData => if phase.isData then .ok .quit else refused
  | .quit => if phase = .quit then .closing hostname else refused
  | .reset => if phase.isCommand then .ok .greet else refused
  | .noop => if phase.isCommand then .ok phase else refused
  | .verify | .expand | .list => if phase.isCommand then .notSupported phase else refused
  | .help => if phase.isCommand then .noHelp phase else refused
  | .unknown _ => if phase.isCommand then .notRecognized phase else refused

end MailCapture
