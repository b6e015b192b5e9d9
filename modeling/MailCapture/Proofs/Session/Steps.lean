import MailCapture.Session.Basic

/-! What a line does to a session.

`CommandTurn` lists everything a command can do and `DataTurn` everything a line of message data can
do. `commandTurn_accept` and `dataTurn_accept` say that the lists are complete, so a law about one
line is a case analysis of them, and a law about a dialogue is an induction over `after`. -/
namespace MailCapture

/-! ### Phases in which commands are heard -/

namespace Phase
variable {p : Phase}

theorem isData_of_isCommand (h : p.isCommand = true) : p.isData = false := by
  revert h
  cases p <;> decide

theorem ne_connect_of_isCommand (h : p.isCommand = true) : p ≠ .connect := by
  intro heq
  subst heq
  exact absurd h (by decide)

theorem isCommand_of_isReady (h : p.isReady = true) : p.isCommand = true := by
  revert h
  cases p <;> decide

theorem isCommand_of_isAddressing (h : p.isAddressing = true) : p.isCommand = true := by
  revert h
  cases p <;> decide

end Phase

/-! ### Commands that are said -/

/-- Whether a line outside message data can mean the command. -/
def Command.isSpoken : Command → Bool
  | connect | headerLine _ | emptyLine | bodyLine _ | endOfData => false
  | _ => true

theorem Command.isSpoken_of_ite {p : Prop} [Decidable p] {c d : Command} {rest : Option Command}
    (hd : d.isSpoken = true) (hrest : rest = some c → c.isSpoken = true)
    (h : (if p then some d else rest) = some c) : c.isSpoken = true := by
  split at h
  · obtain rfl := Option.some.inj h
    exact hd
  · exact hrest h

theorem Command.isSpoken_of_ofWord? {word argument : Text} {c : Command}
    (h : ofWord? word argument = some c) : c.isSpoken = true := by
  unfold ofWord? at h
  -- one `if` for each word
  repeat refine isSpoken_of_ite rfl (fun h => ?_) h
  cases h

theorem Command.isSpoken_parseCommand (line : Text) : (parseCommand line).isSpoken = true := by
  unfold parseCommand
  cases h : ofWord? (Text.capitals (Text.splitWord (Text.trim line)).1)
      (Text.splitWord (Text.trim line)).2 with
  | none =>
    simp only [h, Option.getD_none]
    rfl
  | some c =>
    simp only [h, Option.getD_some]
    exact isSpoken_of_ofWord? h

theorem Command.unstuff_eq_nil {line : Text} : unstuff line = [] ↔ line = [] := by
  unfold unstuff
  split <;> simp

theorem Command.parse_command {phase : Phase} (h : phase.isData = false) (line : Text) :
    parse line phase = parseCommand line := by
  cases phase
  case headers | body => cases h
  all_goals rfl

theorem Command.parse_dot {phase : Phase} (h : phase.isData = true) :
    parse ['.'] phase = .endOfData := by
  cases phase
  case headers | body => simp only [parse, parseHeader, parseBody, if_true]
  all_goals cases h

/-! ### Answers that say nothing was done -/

def Answer.idleCodes : List Nat := [211, 252, 500, 501, 503]

def Answer.IsIdle (a : Answer) : Prop := ∃ code ∈ idleCodes, a.code? = some code

theorem Answer.isIdle_badSequence (verb : Text) (next : Phase) : (badSequence verb next).IsIdle :=
  ⟨503, by decide, rfl⟩

theorem Answer.not_isIdle_saying {code : Nat} (hcode : code ∉ idleCodes) (text : Text)
    (next : Phase) : ¬ (saying code text next).IsIdle := by
  intro hidle
  obtain ⟨_, hmem, h⟩ := hidle
  obtain rfl := Option.some.inj h
  exact hcode hmem

namespace Session
variable {s : Session}

/-! ### Each command in its phase -/

theorem answer_perform (s : Session) (c : Command) :
    (s.perform c).answer = c.answer s.phase s.hostname := by
  unfold perform
  simp only
  split <;> rfl

theorem perform_hello (hready : s.phase.isReady = true) (domain : Text) :
    s.perform (.hello domain) =
      { session := {s with phase := .greet}, answer := .hello s.hostname domain } := by
  simp only [perform, Command.answer, hready, if_true]
  rfl

theorem perform_mail (hready : s.phase.isReady = true) (address : Text) :
    s.perform (.mail (some address)) =
      { session := {s with phase := .sender, draft := s.draft.setSender address}
        answer := .ok .sender } := by
  simp only [perform, Command.answer, hready, if_true]
  rfl

/-- A second MAIL is refused, and its address is drafted all the same. -/
theorem perform_mail_again (hphase : s.phase = .sender) (address : Text) :
    s.perform (.mail (some address)) =
      { session := {s with draft := s.draft.setSender address}
        answer := .badSequence "MAIL".toList .sender } := by
  obtain ⟨hostname, sizeLimit, phase, draft, lastField, received⟩ := s
  cases hphase
  rfl

theorem perform_rcpt (haddressing : s.phase.isAddressing = true) (address : Text) :
    s.perform (.rcpt (some address)) =
      { session := {s with phase := .recipient, draft := s.draft.addRecipient address}
        answer := .ok .recipient } := by
  simp only [perform, Command.answer, haddressing, if_true]
  rfl

theorem perform_data (hphase : s.phase = .recipient) :
    s.perform .data = { session := {s with phase := .headers}, answer := .startInput } := by
  simp only [perform, Command.answer, hphase, if_true]
  rfl

theorem perform_reset (hcommand : s.phase.isCommand = true) :
    s.perform .reset = { session := {s.discard with phase := .greet}, answer := .ok .greet } := by
  simp only [perform, Command.answer, hcommand, if_true]
  rfl

theorem perform_quit (hphase : s.phase = .quit) :
    s.perform .quit =
      { session := {s with phase := .connect}, answer := .closing s.hostname } := by
  simp only [perform, Command.answer, hphase, if_true]
  rfl

/-! ### What a command can do -/

inductive CommandTurn (s : Session) : Command → Turn → Prop
  /-- Answered, and nothing else. -/
  | idle {c : Command} {a : Answer} (next : a.next = s.phase) (record : s.record c = (s, []))
      (code : a.IsIdle ∨ c = .noop ∧ s.phase.isCommand = true) :
      CommandTurn s c { session := s, answer := a }
  | hello {domain : Text} (ready : s.phase.isReady = true) :
      CommandTurn s (.hello domain)
        { session := {s with phase := .greet}, answer := .hello s.hostname domain }
  | sender {address : Text} (ready : s.phase.isReady = true) :
      CommandTurn s (.mail (some address))
        { session := {s with phase := .sender, draft := s.draft.setSender address}
          answer := .ok .sender }
  /-- Refused, and drafted all the same. -/
  | overriding {address : Text} (phase : s.phase = .sender) :
      CommandTurn s (.mail (some address))
        { session := {s with draft := s.draft.setSender address}
          answer := .badSequence "MAIL".toList .sender }
  | recipient {address : Text} (addressing : s.phase.isAddressing = true) :
      CommandTurn s (.rcpt (some address))
        { session := {s with phase := .recipient, draft := s.draft.addRecipient address}
          answer := .ok .recipient }
  | input (phase : s.phase = .recipient) :
      CommandTurn s .data { session := {s with phase := .headers}, answer := .startInput }
  | reset (command : s.phase.isCommand = true) :
      CommandTurn s .reset { session := {s.discard with phase := .greet}, answer := .ok .greet }
  | goodbye (phase : s.phase = .quit) :
      CommandTurn s .quit
        { session := {s with phase := .connect}, answer := .closing s.hostname }

/-- An answer that keeps the phase, to a command that drafts nothing there, is all there is. -/
theorem idle_perform {c : Command} {a : Answer} (answer : c.answer s.phase s.hostname = a)
    (next : a.next = s.phase) (record : s.record c = (s, []))
    (code : a.IsIdle ∨ c = .noop ∧ s.phase.isCommand = true) :
    CommandTurn s c (s.perform c) := by
  have hperform : s.perform c = { session := s, answer := a } := by
    simp only [perform, answer, next, record]
    exact if_neg fun h => h.2 h.1
  rw [hperform]
  exact .idle next record code

/-- A command out of its phase. -/
theorem refused_perform {c : Command}
    (answer : c.answer s.phase s.hostname = .badSequence c.verb s.phase)
    (record : s.record c = (s, [])) : CommandTurn s c (s.perform c) :=
  idle_perform answer rfl record (.inl (Answer.isIdle_badSequence c.verb s.phase))

/-- A command that drafts nothing, and is answered wherever commands are heard. -/
theorem heard_perform {c : Command} {a : Answer}
    (answer : c.answer s.phase s.hostname =
      if s.phase.isCommand then a else .badSequence c.verb s.phase)
    (next : a.next = s.phase) (record : s.record c = (s, []))
    (code : s.phase.isCommand = true → a.IsIdle ∨ c = .noop ∧ s.phase.isCommand = true) :
    CommandTurn s c (s.perform c) := by
  by_cases hcommand : s.phase.isCommand = true
  · exact idle_perform (answer.trans (if_pos hcommand)) next record (code hcommand)
  · exact refused_perform (answer.trans (if_neg hcommand)) record

theorem commandTurn_perform {c : Command} (hc : c.isSpoken = true) :
    CommandTurn s c (s.perform c) := by
  cases c with
  | connect | headerLine | emptyLine | bodyLine | endOfData => cases hc
  | hello domain =>
    by_cases hready : s.phase.isReady = true
    · rw [perform_hello hready]
      exact .hello hready
    · exact refused_perform (if_neg hready) rfl
  | mail address =>
    by_cases hready : s.phase.isReady = true
    · cases address with
      | none => exact idle_perform (if_pos hready) rfl rfl (.inl ⟨501, by decide, rfl⟩)
      | some address =>
        rw [perform_mail hready]
        exact .sender hready
    · cases address with
      | none => exact refused_perform (if_neg hready) rfl
      | some address =>
        by_cases hsender : s.phase = .sender
        · rw [perform_mail_again hsender]
          exact .overriding hsender
        · refine refused_perform (if_neg hready) ?_
          unfold record
          split <;> simp_all
  | rcpt address =>
    by_cases haddressing : s.phase.isAddressing = true
    · cases address with
      | none => exact idle_perform (if_pos haddressing) rfl rfl (.inl ⟨501, by decide, rfl⟩)
      | some address =>
        rw [perform_rcpt haddressing]
        exact .recipient haddressing
    · cases address with
      | none => exact refused_perform (if_neg haddressing) rfl
      | some address =>
        refine refused_perform (if_neg haddressing) ?_
        unfold record
        split <;> simp_all [Phase.isAddressing]
  | data =>
    by_cases hphase : s.phase = .recipient
    · rw [perform_data hphase]
      exact .input hphase
    · exact refused_perform (if_neg hphase) rfl
  | reset =>
    by_cases hcommand : s.phase.isCommand = true
    · rw [perform_reset hcommand]
      exact .reset hcommand
    · refine refused_perform (if_neg hcommand) ?_
      unfold record
      split <;> simp_all [Phase.isCommand]
  | noop => exact heard_perform rfl rfl rfl fun hcommand => .inr ⟨rfl, hcommand⟩
  | verify | expand | list => exact heard_perform rfl rfl rfl fun _ => .inl ⟨252, by decide, rfl⟩
  | help => exact heard_perform rfl rfl rfl fun _ => .inl ⟨211, by decide, rfl⟩
  | quit =>
    by_cases hphase : s.phase = .quit
    · rw [perform_quit hphase]
      exact .goodbye hphase
    · exact refused_perform (if_neg hphase) rfl
  | unknown verb => exact heard_perform rfl rfl rfl fun _ => .inl ⟨500, by decide, rfl⟩

theorem accept_command (hdata : s.phase.isData = false) (line : Text) :
    s.accept line = s.perform (Command.parseCommand line) := by
  simp only [accept, hdata, Bool.false_eq_true, if_false, Command.parse_command hdata]

theorem commandTurn_accept (hdata : s.phase.isData = false) (line : Text) :
    CommandTurn s (Command.parseCommand line) (s.accept line) := by
  rw [accept_command hdata]
  exact commandTurn_perform (Command.isSpoken_parseCommand line)

/-! ### Each line of message data in its phase -/

/-- A line counted towards the size limit. -/
def count (s : Session) (line : Text) : Session := {s with received := s.received + lineSize line}

/-- Whether a line would still be within the size limit. -/
def Fits (s : Session) (line : Text) : Prop := s.received + lineSize line ≤ s.sizeLimit

theorem accept_tooMuch (hdata : s.phase.isData = true) {line : Text} (hfits : ¬ s.Fits line) :
    s.accept line =
      { session := s.breakOff, answer := .tooMuchData, notices := [.messageTooLarge] } := by
  have hover : s.received + lineSize line > s.sizeLimit := Nat.lt_of_not_le hfits
  simp only [accept, hdata, if_true, hover]
  rfl

theorem accept_data (hdata : s.phase.isData = true) {line : Text} (hfits : s.Fits line) :
    s.accept line = (s.count line).perform (Command.parse line s.phase) := by
  have hover : ¬ s.received + lineSize line > s.sizeLimit := Nat.not_lt_of_le hfits
  simp only [accept, hdata, if_true, hover, if_false, count]

theorem accept_dot (hdata : s.phase.isData = true) (hfits : s.Fits ['.']) :
    s.accept ['.'] =
      { session := {s.discard with phase := .quit}, answer := .ok .quit
        delivered := some s.draft } := by
  rw [accept_data hdata hfits]
  have hparse := Command.parse_dot hdata
  have hnotQuit : s.phase ≠ .quit := fun h => by rw [h] at hdata; cases hdata
  have hcount : (s.count ['.']).phase = s.phase := rfl
  simp only [perform, hparse, Command.answer, hcount, hdata, if_true]
  exact if_pos ⟨rfl, hnotQuit⟩

theorem accept_emptyLine (hphase : s.phase = .headers) (hfits : s.Fits []) :
    s.accept [] =
      { session := {s.count [] with phase := .body}, answer := .silent .body } := by
  rw [accept_data (by rw [hphase]; rfl) hfits]
  obtain ⟨hostname, sizeLimit, phase, draft, lastField, received⟩ := s
  cases hphase
  rfl

theorem accept_headerLine (hphase : s.phase = .headers) {line : Text} (hfits : s.Fits line)
    (hdot : line ≠ ['.']) (hline : line ≠ []) :
    s.accept line =
      { session := ((s.count line).draftHeader (Command.unstuff line)).1
        answer := .silent .headers
        notices := ((s.count line).draftHeader (Command.unstuff line)).2 } := by
  rw [accept_data (by rw [hphase]; rfl) hfits]
  have hparse : Command.parse line s.phase = .headerLine (Command.unstuff line) := by
    simp only [hphase, Command.parse, Command.parseHeader, hdot, if_false]
    split
    · next h => exact absurd (Command.unstuff_eq_nil.1 h) hline
    · rfl
  rw [hparse]
  obtain ⟨hostname, sizeLimit, phase, draft, lastField, received⟩ := s
  cases hphase
  rfl

theorem accept_bodyLine (hphase : s.phase = .body) {line : Text} (hfits : s.Fits line)
    (hdot : line ≠ ['.']) :
    s.accept line =
      { session := {s.count line with draft := s.draft.addLine (Command.unstuff line)}
        answer := .silent .body } := by
  rw [accept_data (by rw [hphase]; rfl) hfits]
  have hparse : Command.parse line s.phase = .bodyLine (Command.unstuff line) := by
    simp only [hphase, Command.parse, Command.parseBody, hdot, if_false]
  rw [hparse]
  obtain ⟨hostname, sizeLimit, phase, draft, lastField, received⟩ := s
  cases hphase
  rfl

/-! ### What a line of message data can do -/

inductive DataTurn (s : Session) (line : Text) : Turn → Prop
  | tooMuch (excess : ¬ s.Fits line) :
      DataTurn s line
        { session := s.breakOff, answer := .tooMuchData, notices := [.messageTooLarge] }
  | dot (fits : s.Fits line) (dot : line = ['.']) :
      DataTurn s line
        { session := {s.discard with phase := .quit}, answer := .ok .quit
          delivered := some s.draft }
  | emptyLine (fits : s.Fits line) (phase : s.phase = .headers) (empty : line = []) :
      DataTurn s line { session := {s.count line with phase := .body}, answer := .silent .body }
  | headerLine (fits : s.Fits line) (phase : s.phase = .headers) (dot : line ≠ ['.'])
      (nonempty : line ≠ []) :
      DataTurn s line
        { session := ((s.count line).draftHeader (Command.unstuff line)).1
          answer := .silent .headers
          notices := ((s.count line).draftHeader (Command.unstuff line)).2 }
  | bodyLine (fits : s.Fits line) (phase : s.phase = .body) (dot : line ≠ ['.']) :
      DataTurn s line
        { session := {s.count line with draft := s.draft.addLine (Command.unstuff line)}
          answer := .silent .body }

theorem dataTurn_accept (hdata : s.phase.isData = true) (line : Text) :
    DataTurn s line (s.accept line) := by
  by_cases hfits : s.Fits line
  · by_cases hdot : line = ['.']
    · subst hdot
      rw [accept_dot hdata hfits]
      exact .dot hfits rfl
    · cases hphase : s.phase with
      | headers =>
        by_cases hline : line = []
        · subst hline
          rw [accept_emptyLine hphase hfits]
          exact .emptyLine hfits hphase rfl
        · rw [accept_headerLine hphase hfits hdot hline]
          exact .headerLine hfits hphase hdot hline
      | body =>
        rw [accept_bodyLine hphase hfits hdot]
        exact .bodyLine hfits hphase hdot
      | _ =>
        rw [hphase] at hdata
        cases hdata
  · rw [accept_tooMuch hdata hfits]
    exact .tooMuch hfits

/-! ### The greeting -/

theorem greet_connect (hphase : s.phase = .connect) :
    s.greet = { session := {s with phase := .greet}, answer := .greeting s.hostname } := by
  obtain ⟨hostname, sizeLimit, phase, draft, lastField, received⟩ := s
  cases hphase
  rfl

/-- Out of sequence it is refused. -/
theorem greet_refused (hphase : s.phase ≠ .connect) :
    s.greet = { session := s, answer := .badSequence "Connect".toList s.phase } := by
  obtain ⟨hostname, sizeLimit, phase, draft, lastField, received⟩ := s
  cases phase
  case connect => exact absurd rfl hphase
  all_goals rfl

theorem delivered_greet (s : Session) : s.greet.delivered = none := by
  by_cases hphase : s.phase = .connect
  · rw [greet_connect hphase]
  · rw [greet_refused hphase]

/-! ### Dialogues -/

/-- A session that has just been greeted. -/
def greeted (hostname : Text) (sizeLimit : Nat) : Session :=
  { hostname, sizeLimit, phase := .greet }

/-- The session after some lines. -/
def after (s : Session) (lines : List Text) : Session :=
  lines.foldl (fun s line => (s.accept line).session) s

@[simp] theorem after_nil (s : Session) : s.after [] = s := rfl

@[simp] theorem after_cons (s : Session) (line : Text) (rest : List Text) :
    s.after (line :: rest) = (s.accept line).session.after rest := rfl

@[simp] theorem after_append (s : Session) (a b : List Text) :
    s.after (a ++ b) = (s.after a).after b := List.foldl_append

end Session
end MailCapture
