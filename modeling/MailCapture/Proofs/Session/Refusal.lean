import MailCapture.Proofs.Session.Steps

/-! What a refused line leaves behind.

An answer that says nothing was done is true to its word but for one case: a second MAIL, refused
because the sender is known, still puts its address into the draft.
`refused_line_changes_only_sender` says exactly when a session survives such a line unchanged, and
whose address a delivered message bears in the end. -/
namespace MailCapture

/-- Whether a transaction is under way. -/
def Phase.isOpen : Phase → Bool
  | sender | recipient | headers | body => true
  | _ => false

theorem Phase.isOpen_of_isData {p : Phase} (h : p.isData = true) : p.isOpen = true := by
  revert h
  cases p <;> decide

theorem Phase.isOpen_of_isAddressing {p : Phase} (h : p.isAddressing = true) : p.isOpen = true := by
  revert h
  cases p <;> decide

namespace Session
variable {s : Session} {line : Text} {c : Command} {t : Turn}

/-! ### One line -/

/-- A line answered as if nothing was done, or a NOOP among commands. -/
def IsIdleLine (s : Session) (line : Text) : Prop :=
  (s.accept line).answer.IsIdle ∨
    s.phase.isCommand = true ∧ Command.parse line s.phase = .noop

/-- A MAIL line that comes when the sender is known, with another address. -/
def Overrides (s : Session) (line : Text) : Prop :=
  s.phase = .sender ∧ ∃ address, Command.parse line s.phase = .mail (some address) ∧
    s.draft.sender ≠ some address

theorem sender_of_record_mail {address : Text} (hphase : s.phase = .sender)
    (hrecord : s.record (.mail (some address)) = (s, [])) : s.draft.sender = some address := by
  obtain ⟨hostname, sizeLimit, phase, draft, lastField, received⟩ := s
  cases hphase
  have hdraft : draft.setSender address = draft :=
    congrArg Session.draft (congrArg Prod.fst hrecord)
  rw [← hdraft]
  rfl

theorem setSender_eq_self {m : Message} {address : Text} (h : m.sender = some address) :
    m.setSender address = m := by
  obtain ⟨fields, linesBack, sender, recipients⟩ := m
  cases h
  rfl

/-- Message data is never answered as if nothing was done. -/
theorem DataTurn.not_isIdle (h : DataTurn s line t) : ¬ t.answer.IsIdle := by
  cases h with
  | tooMuch | dot => exact Answer.not_isIdle_saying (by decide) _ _
  | emptyLine | headerLine | bodyLine =>
    intro hidle
    obtain ⟨code, -, hcode⟩ := hidle
    cases hcode

/-- What an idle command leaves: the session as it was, but for the sender of a second MAIL. -/
theorem CommandTurn.of_isIdle (h : CommandTurn s c t)
    (hidle : t.answer.IsIdle ∨ s.phase.isCommand = true ∧ c = .noop) :
    t.delivered = none ∧ t.notices = [] ∧
      (t.session = s ∨ s.phase = .sender ∧ ∃ address, c = .mail (some address) ∧
        t.session = {s with draft := s.draft.setSender address}) := by
  cases h with
  | idle => exact ⟨rfl, rfl, .inl rfl⟩
  | overriding hphase => exact ⟨rfl, rfl, .inr ⟨hphase, _, rfl, rfl⟩⟩
  | _ =>
    -- every other turn has a code of its own
    rcases hidle with hidle | ⟨-, hnoop⟩
    · exact absurd hidle (Answer.not_isIdle_saying (by decide) _ _)
    · cases hnoop

/-- An idle line is a command, so only the sender can have changed, and only by a second MAIL. -/
theorem session_of_isIdleLine (h : s.IsIdleLine line) :
    (s.accept line).delivered = none ∧ (s.accept line).notices = [] ∧
      ((s.accept line).session = s ∨ s.phase = .sender ∧ ∃ address,
        Command.parse line s.phase = .mail (some address) ∧
          (s.accept line).session = {s with draft := s.draft.setSender address}) := by
  by_cases hdata : s.phase.isData = true
  · rcases h with h | ⟨hcommand, -⟩
    · exact absurd h (dataTurn_accept hdata line).not_isIdle
    · rw [Phase.isData_of_isCommand hcommand] at hdata
      cases hdata
  · rw [Bool.not_eq_true] at hdata
    have hturn := commandTurn_accept hdata line
    rw [← Command.parse_command hdata] at hturn
    exact hturn.of_isIdle h

theorem session_eq_iff_not_overrides (h : s.IsIdleLine line) :
    (s.accept line).session = s ↔ ¬ s.Overrides line := by
  obtain ⟨-, -, hsession⟩ := session_of_isIdleLine h
  constructor
  · intro hsame hoverrides
    obtain ⟨hphase, address, hparse, hother⟩ := hoverrides
    have hdata : s.phase.isData = false := by rw [hphase]; rfl
    rw [accept_command hdata, ← Command.parse_command hdata, hparse,
      perform_mail_again hphase] at hsame
    apply hother
    rw [← hsame]
    rfl
  · intro hkeeps
    rcases hsession with hsame | ⟨hphase, address, hparse, hset⟩
    · exact hsame
    · have hsender : s.draft.sender = some address :=
        Decidable.byContradiction fun hother => hkeeps ⟨hphase, address, hparse, hother⟩
      rw [hset, setSender_eq_self hsender]

/-! ### The sender of a message -/

/-- The address of a MAIL line answered 250. -/
def acceptedSender (s : Session) (line : Text) : Option Text :=
  match Command.parse line s.phase with
  | .mail (some address) =>
    if (s.accept line).answer.code? = some 250 then some address else none
  | _ => none

/-- The address of a MAIL line answered 250, or refused because the sender is known. -/
def draftedSender (s : Session) (line : Text) : Option Text :=
  match Command.parse line s.phase with
  | .mail (some address) =>
    if (s.accept line).answer.code? = some 250 ∨ s.phase = .sender then some address else none
  | _ => none

/-- What the last line of a dialogue with something to tell told. -/
def latest (tells : Session → Text → Option Text) (s : Session) : List Text → Option Text
  | [] => none
  | line :: rest => (latest tells (s.accept line).session rest).or (tells s line)

/-- While a transaction is under way its sender has been accepted, and one is drafted. -/
structure SenderKnown (s : Session) (drafted accepted : Option Text) : Prop where
  drafted : s.phase.isOpen = true → s.draft.sender = drafted
  accepted : s.phase.isOpen = true → accepted.isSome = true

theorem SenderKnown.of_closed {drafted accepted : Option Text} (h : s.phase.isOpen = false) :
    SenderKnown s drafted accepted := by
  constructor <;> intro hopen <;> rw [h] at hopen <;> cases hopen

theorem sender_draftHeader (s : Session) (line : Text) :
    (s.draftHeader line).1.phase = s.phase ∧
      (s.draftHeader line).1.draft.sender = s.draft.sender := by
  unfold draftHeader
  split
  · exact ⟨rfl, rfl⟩
  · exact ⟨rfl, rfl⟩
  · split <;> exact ⟨rfl, rfl⟩
  · exact ⟨rfl, rfl⟩

theorem senders_of_isData (hdata : s.phase.isData = true) (line : Text) :
    s.draftedSender line = none ∧ s.acceptedSender line = none := by
  have hparse : ∀ address, Command.parse line s.phase ≠ .mail address := by
    intro address
    cases hphase : s.phase with
    | headers =>
      simp only [Command.parse, Command.parseHeader]
      repeat' split
      all_goals exact Command.noConfusion
    | body =>
      simp only [Command.parse, Command.parseBody]
      split <;> exact Command.noConfusion
    | _ =>
      rw [hphase] at hdata
      cases hdata
  unfold draftedSender acceptedSender
  split
  · next h => exact absurd h (hparse _)
  · exact ⟨rfl, rfl⟩

theorem SenderKnown.step_data {drafted accepted : Option Text} (h : SenderKnown s drafted accepted)
    (hdata : s.phase.isData = true) (hturn : DataTurn s line t) :
    SenderKnown t.session drafted accepted := by
  have hopen := Phase.isOpen_of_isData hdata
  cases hturn with
  | tooMuch | dot => exact .of_closed rfl
  | emptyLine | bodyLine => exact ⟨fun _ => h.drafted hopen, fun _ => h.accepted hopen⟩
  | headerLine =>
    have hsender := (sender_draftHeader (s.count line) (Command.unstuff line)).2
    exact ⟨fun _ => hsender.trans (h.drafted hopen), fun _ => h.accepted hopen⟩

theorem SenderKnown.step_command {drafted accepted : Option Text}
    (h : SenderKnown s drafted accepted) (hdata : s.phase.isData = false) (line : Text) :
    SenderKnown (s.accept line).session ((s.draftedSender line).or drafted)
      ((s.acceptedSender line).or accepted) := by
  have hturn := commandTurn_accept hdata line
  rw [← Command.parse_command hdata] at hturn
  unfold draftedSender acceptedSender
  generalize s.accept line = t at hturn ⊢
  generalize Command.parse line s.phase = c at hturn ⊢
  cases hturn with
  | @idle c a hnext hrecord hcode =>
    have hrefused : a.code? = some 250 → c = .noop := fun h250 => by
      rcases hcode with ⟨code, hmem, hidle⟩ | ⟨hnoop, -⟩
      · obtain rfl := Option.some.inj (hidle.symm.trans h250)
        exact absurd hmem (by decide)
      · exact hnoop
    split
    · next address =>
      have hcode : a.code? ≠ some 250 := fun h250 => by cases hrefused h250
      simp only [hcode, false_or, if_false, Option.none_or]
      refine ⟨fun hopen => ?_, h.accepted⟩
      split
      · next hphase => exact sender_of_record_mail hphase hrecord
      · exact h.drafted hopen
    · exact h
  | sender => exact ⟨fun _ => rfl, fun _ => rfl⟩
  | overriding hphase =>
    refine ⟨fun _ => ?_, fun _ => ?_⟩
    · simp only [hphase, or_true, if_true]
      rfl
    · exact h.accepted (by rw [hphase]; rfl)
  | recipient haddressing =>
    have hopen := Phase.isOpen_of_isAddressing haddressing
    exact ⟨fun _ => h.drafted hopen, fun _ => h.accepted hopen⟩
  | input hphase =>
    have hopen : s.phase.isOpen = true := by rw [hphase]; rfl
    exact ⟨fun _ => h.drafted hopen, fun _ => h.accepted hopen⟩
  | hello | reset | goodbye => exact .of_closed rfl

theorem SenderKnown.step {drafted accepted : Option Text} (h : SenderKnown s drafted accepted)
    (line : Text) :
    SenderKnown (s.accept line).session ((s.draftedSender line).or drafted)
      ((s.acceptedSender line).or accepted) := by
  cases hdata : s.phase.isData with
  | false => exact h.step_command hdata line
  | true =>
    obtain ⟨hdrafted, haccepted⟩ := senders_of_isData hdata line
    rw [hdrafted, haccepted]
    exact h.step_data hdata (dataTurn_accept hdata line)

theorem SenderKnown.after {drafted accepted : Option Text} (h : SenderKnown s drafted accepted)
    (lines : List Text) :
    SenderKnown (s.after lines) ((s.latest draftedSender lines).or drafted)
      ((s.latest acceptedSender lines).or accepted) := by
  induction lines generalizing s drafted accepted with
  | nil => exact h
  | cons line rest ih =>
    rw [after_cons, latest, latest, Option.or_assoc, Option.or_assoc]
    exact ih (h.step line)

theorem senderKnown_after (hostname : Text) (sizeLimit : Nat) (lines : List Text) :
    SenderKnown ((greeted hostname sizeLimit).after lines)
      ((greeted hostname sizeLimit).latest draftedSender lines)
      ((greeted hostname sizeLimit).latest acceptedSender lines) := by
  have hstart : SenderKnown (greeted hostname sizeLimit) none none := .of_closed rfl
  have hafter := hstart.after lines
  rwa [Option.or_none, Option.or_none] at hafter

/-- Only the lone dot delivers, and it delivers the draft. -/
theorem delivered_accept {m : Message} (h : (s.accept line).delivered = some m) :
    s.phase.isData = true ∧ m = s.draft := by
  cases hdata : s.phase.isData with
  | false =>
    have hturn := commandTurn_accept hdata line
    generalize Command.parseCommand line = c at hturn
    generalize s.accept line = t at hturn h
    cases hturn <;> cases h
  | true =>
    have hturn := dataTurn_accept hdata line
    generalize s.accept line = t at hturn h
    cases hturn <;> cases h
    exact ⟨rfl, rfl⟩

/-- **A refused line changes nothing but, at most, the sender.** A line answered 500, 501, 503, 252
or 211, and a NOOP among commands, delivers nothing, logs nothing and leaves the session as it was,
except that a MAIL refused because the sender is known replaces the sender; and so the session stays
the same exactly if the line is no such MAIL with another address. A delivered message bears the
address drafted last, which is the accepted one exactly if no refused MAIL came between with
another. -/
theorem refused_line_changes_only_sender (hostname : Text) (sizeLimit : Nat) (lines : List Text)
    (line : Text) :
    let start := greeted hostname sizeLimit
    let s := start.after lines
    let t := s.accept line
    (s.IsIdleLine line →
      t.delivered = none ∧ t.notices = [] ∧
        (t.session = s ↔ ¬ s.Overrides line) ∧
        (t.session = s ∨ s.phase = .sender ∧ ∃ address,
          Command.parse line s.phase = .mail (some address) ∧
            t.session = {s with draft := s.draft.setSender address})) ∧
      ∀ m, t.delivered = some m →
        m.sender = start.latest draftedSender lines ∧
          (start.latest acceptedSender lines).isSome = true ∧
          (m.sender = start.latest acceptedSender lines ↔
            start.latest draftedSender lines = start.latest acceptedSender lines) := by
  intro start s t
  refine ⟨fun hidle => ?_, fun m hm => ?_⟩
  · obtain ⟨hdelivered, hnotices, hsession⟩ := session_of_isIdleLine hidle
    exact ⟨hdelivered, hnotices, session_eq_iff_not_overrides hidle, hsession⟩
  · obtain ⟨hdata, rfl⟩ := delivered_accept hm
    have hopen := Phase.isOpen_of_isData hdata
    have hknown := senderKnown_after hostname sizeLimit lines
    have hsender := hknown.drafted hopen
    refine ⟨hsender, hknown.accepted hopen, ?_⟩
    rw [hsender]

/-- A dialogue up to its data in which a second MAIL is refused. -/
def namedTwice : List Text :=
  ["MAIL FROM:<first>".toList, "MAIL FROM:<second>".toList, "RCPT TO:<reader>".toList,
    "DATA".toList]

/-- The refused MAIL changes the session, and its address is the one delivered. -/
theorem refused_mail_replaces_sender :
    let start := greeted "localhost".toList 1000
    let s := start.after ["MAIL FROM:<first>".toList]
    let t := s.accept "MAIL FROM:<second>".toList
    t.answer.code? = some 503 ∧ t.session ≠ s ∧
      ∃ m, ((start.after namedTwice).accept ['.']).delivered = some m ∧
        m.sender = some "second".toList ∧
        start.latest acceptedSender namedTwice = some "first".toList :=
  ⟨by decide +kernel, by decide +kernel, _, rfl, by decide +kernel, by decide +kernel⟩

theorem refused_line_changes_only_sender_namedTwice :
    let start := greeted "localhost".toList 1000
    let s := start.after ["MAIL FROM:<first>".toList]
    let m : Message := { sender := some "second".toList, recipients := ["reader".toList] }
    (s.IsIdleLine "MAIL FROM:<second>".toList ∧
        ¬ (s.accept "MAIL FROM:<second>".toList).session = s) ∧
      ((start.after namedTwice).accept ['.']).delivered = some m ∧
        m.sender = start.latest draftedSender namedTwice := by
  intro start s m
  have hidle : s.IsIdleLine "MAIL FROM:<second>".toList := .inl ⟨503, by decide, by decide +kernel⟩
  have hdelivered : ((start.after namedTwice).accept ['.']).delivered = some m := by
    decide +kernel
  have hline := (refused_line_changes_only_sender "localhost".toList 1000
    ["MAIL FROM:<first>".toList] "MAIL FROM:<second>".toList).1 hidle
  have hmessage :=
    (refused_line_changes_only_sender "localhost".toList 1000 namedTwice ['.']).2 m hdelivered
  refine ⟨⟨hidle, fun hsame => ?_⟩, hdelivered, hmessage.1⟩
  exact hline.2.2.1.1 hsame
    ⟨by decide +kernel, "second".toList, by decide +kernel, by decide +kernel⟩

end Session
end MailCapture
