import MailCapture.Main
import MailCapture.Wire.StopBoard
import MailCapture.Proofs.Crew.Working
import MailCapture.Proofs.Mailbox.Interchange
import MailCapture.Proofs.Mailbox.Keeping
import MailCapture.Proofs.Mailbox.Restarting
import MailCapture.Proofs.Mailbox.Sharing
import MailCapture.Proofs.Message.Rereading
import MailCapture.Proofs.Session.HeaderLines
import MailCapture.Proofs.Wire.Buffered
import MailCapture.Proofs.Wire.Disturbed
import MailCapture.Proofs.Wire.Faults
import MailCapture.Proofs.Wire.Limits
import MailCapture.Proofs.Wire.Recovered
import MailCapture.Proofs.Wire.Truncation
import MailCapture.Proofs.Dialogue.Addresses
import MailCapture.Proofs.Mailbox.Clearing
import MailCapture.Proofs.Mailbox.Opening
