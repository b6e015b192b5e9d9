import MailCapture.Proofs.Message.Fields
import MailCapture.Proofs.Session.Refusal

/-! How a session stands.

`Standing` lists what a session can look like in each phase: nothing is drafted while no transaction
is under way, the envelope comes before the content, the header before the body, and the field that
a fold would continue is there. No line, no greeting and no break leads out of the list
(`Standing.accept`), so it holds of a session whatever has been done with it. -/
namespace MailCapture
open Message

theorem Phase.isOpen_of_isReady {p : Phase} (h : p.isReady = true) : p.isOpen = false := by
  revert h
  cases p <;> decide

namespace Session

/-! ### Sessions phase by phase -/

/-- While message data comes in: the envelope is complete, there is no body before the empty line,
and the field that a fold would continue is there. -/
structure Collecting (hostname : Text) (sizeLimit : Nat) (s : Session) : Prop where
  settings : s.hostname = hostname ∧ s.sizeLimit = sizeLimit
  data : s.phase.isData = true
  sender : s.draft.sender.isSome = true
  recipients : s.draft.recipients ≠ []
  header : s.phase = .headers → s.draft.linesBack = []
  continued : ∀ name, s.lastField = some name → Fields.values name s.draft.fields ≠ []
  fits : s.received ≤ sizeLimit

/-- What a session looks like in each phase. -/
inductive Standing (hostname : Text) (sizeLimit : Nat) : Session → Prop
  /-- Nothing is under way. -/
  | closed {phase} (closed : phase.isOpen = false) :
      Standing hostname sizeLimit { hostname, sizeLimit, phase }
  | addressing {phase address recipients} (addressing : phase.isAddressing = true)
      (named : phase = .recipient ↔ recipients ≠ []) :
      Standing hostname sizeLimit
        { hostname, sizeLimit, phase, draft := { sender := some address, recipients } }
  | collecting {s} (collecting : Collecting hostname sizeLimit s) : Standing hostname sizeLimit s

variable {hostname : Text} {sizeLimit : Nat} {s : Session}

namespace Standing

theorem of_closed (h : Standing hostname sizeLimit s) (hclosed : s.phase.isOpen = false) :
    s = { hostname, sizeLimit, phase := s.phase } := by
  cases h with
  | closed => rfl
  | addressing haddressing =>
    rw [Phase.isOpen_of_isAddressing haddressing] at hclosed
    cases hclosed
  | collecting hcollecting =>
    rw [Phase.isOpen_of_isData hcollecting.data] at hclosed
    cases hclosed

theorem of_isAddressing (h : Standing hostname sizeLimit s)
    (haddressing : s.phase.isAddressing = true) :
    ∃ address recipients, (s.phase = .recipient ↔ recipients ≠ []) ∧
      s = { hostname, sizeLimit, phase := s.phase
            draft := { sender := some address, recipients } } := by
  cases h with
  | closed hclosed =>
    rw [Phase.isOpen_of_isAddressing haddressing] at hclosed
    cases hclosed
  | addressing _ named => exact ⟨_, _, named, rfl⟩
  | collecting hcollecting =>
    have hdata := hcollecting.data
    rw [Phase.isData_of_isCommand (Phase.isCommand_of_isAddressing haddressing)] at hdata
    cases hdata

theorem of_isData (h : Standing hostname sizeLimit s) (hdata : s.phase.isData = true) :
    Collecting hostname sizeLimit s := by
  cases h with
  | closed hclosed =>
    rw [Phase.isOpen_of_isData hdata] at hclosed
    cases hclosed
  | addressing haddressing =>
    rw [Phase.isData_of_isCommand (Phase.isCommand_of_isAddressing haddressing)] at hdata
    cases hdata
  | collecting hcollecting => exact hcollecting

theorem settings (h : Standing hostname sizeLimit s) :
    s.hostname = hostname ∧ s.sizeLimit = sizeLimit := by
  cases h with
  | closed | addressing => exact ⟨rfl, rfl⟩
  | collecting hcollecting => exact hcollecting.settings

/-- Wherever a transaction is given up. -/
theorem discarded (h : Standing hostname sizeLimit s) {phase : Phase}
    (hclosed : phase.isOpen = false) :
    Standing hostname sizeLimit {s.discard with phase} := by
  obtain ⟨rfl, rfl⟩ := h.settings
  exact .closed hclosed

/-! ### One command -/

theorem command (h : Standing hostname sizeLimit s) {c : Command} {t : Turn}
    (hturn : CommandTurn s c t) : Standing hostname sizeLimit t.session := by
  cases hturn with
  | idle => exact h
  | hello hready =>
    rw [h.of_closed (Phase.isOpen_of_isReady hready)]
    exact .closed rfl
  | sender hready =>
    rw [h.of_closed (Phase.isOpen_of_isReady hready)]
    exact .addressing rfl (by simp)
  | overriding hphase =>
    obtain ⟨_, _, hnamed, hs⟩ := h.of_isAddressing (by rw [hphase]; rfl)
    rw [hs]
    exact .addressing (by rw [hphase]; rfl) hnamed
  | recipient haddressing =>
    obtain ⟨_, _, -, hs⟩ := h.of_isAddressing haddressing
    rw [hs]
    exact .addressing rfl (by simp)
  | input hphase =>
    obtain ⟨_, _, hnamed, hs⟩ := h.of_isAddressing (by rw [hphase]; rfl)
    rw [hs]
    exact .collecting ⟨⟨rfl, rfl⟩, rfl, rfl, hnamed.mp hphase, fun _ => rfl, nofun,
      Nat.zero_le sizeLimit⟩
  | reset => exact h.discarded rfl
  | goodbye hphase =>
    rw [h.of_closed (by rw [hphase]; rfl)]
    exact .closed rfl

end Standing

/-! ### One line of message data -/

theorem Collecting.count (h : Collecting hostname sizeLimit s) {line : Text} (hfits : s.Fits line) :
    Collecting hostname sizeLimit (s.count line) where
  settings := h.settings
  data := h.data
  sender := h.sender
  recipients := h.recipients
  header := h.header
  continued := h.continued
  fits := h.settings.2 ▸ hfits

/-- A header line leaves the envelope and the body as they are, and a field to continue. -/
theorem Collecting.draftHeader (h : Collecting hostname sizeLimit s) (line : Text) :
    Collecting hostname sizeLimit (s.draftHeader line).1 := by
  unfold Session.draftHeader
  split
  · refine { h with continued := fun other hother => ?_ }
    exact Fields.values_extend_ne_nil _ (h.continued other hother) _ _
  · exact h
  · split
    · exact h
    · refine { h with continued := fun other hother => ?_ }
      obtain rfl := Option.some.inj hother
      exact Fields.values_add_ne_nil _ _ _
  · exact h

namespace Standing

theorem data (h : Standing hostname sizeLimit s) (hdata : s.phase.isData = true) {line : Text}
    {t : Turn} (hturn : DataTurn s line t) : Standing hostname sizeLimit t.session := by
  have hs := h.of_isData hdata
  cases hturn with
  | tooMuch | dot => exact h.discarded rfl
  | emptyLine hfits => exact .collecting { hs.count hfits with data := rfl, header := nofun }
  | headerLine hfits => exact .collecting ((hs.count hfits).draftHeader _)
  | bodyLine hfits hphase =>
    have hbody : s.phase ≠ .headers := by rw [hphase]; exact Phase.noConfusion
    exact .collecting { hs.count hfits with header := fun hheaders => absurd hheaders hbody }

/-! ### All that can be done -/

theorem accept (h : Standing hostname sizeLimit s) (line : Text) :
    Standing hostname sizeLimit (s.accept line).session := by
  cases hdata : s.phase.isData with
  | false => exact h.command (commandTurn_accept hdata line)
  | true => exact h.data hdata (dataTurn_accept hdata line)

theorem greet (h : Standing hostname sizeLimit s) : Standing hostname sizeLimit s.greet.session := by
  by_cases hphase : s.phase = .connect
  · rw [greet_connect hphase, h.of_closed (by rw [hphase]; rfl)]
    exact .closed rfl
  · rw [greet_refused hphase]
    exact h

theorem after (h : Standing hostname sizeLimit s) (lines : List Text) :
    Standing hostname sizeLimit (s.after lines) := by
  induction lines generalizing s with
  | nil => exact h
  | cons line rest ih => exact ih (h.accept line)

end Standing

/-! ### Sessions that can come about -/

/-- A new session, and what becomes of it when it is greeted, given lines and broken off among
message data, in any order. -/
inductive Reached (hostname : Text) (sizeLimit : Nat) : Session → Prop
  | new : Reached hostname sizeLimit { hostname, sizeLimit }
  | greet {s : Session} (reached : Reached hostname sizeLimit s) :
      Reached hostname sizeLimit s.greet.session
  | line {s : Session} (reached : Reached hostname sizeLimit s) (line : Text) :
      Reached hostname sizeLimit (s.accept line).session
  | breakOff {s : Session} (reached : Reached hostname sizeLimit s) (data : s.phase.isData = true) :
      Reached hostname sizeLimit s.breakOff

theorem Reached.standing (h : Reached hostname sizeLimit s) : Standing hostname sizeLimit s := by
  induction h with
  | new => exact .closed rfl
  | greet _ ih => exact ih.greet
  | line _ line ih => exact ih.accept line
  | breakOff _ _ ih => exact ih.discarded rfl

end Session
end MailCapture
