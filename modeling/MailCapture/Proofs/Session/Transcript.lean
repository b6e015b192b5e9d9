import MailCapture.Proofs.Session.Standing

/-! What a dialogue delivers.

The log of a dialogue is its lines with the answers they got. `delivered_since` reads off it all that
is delivered: a lone dot among message data delivers one message and no other line delivers any, and
the message is what came since the last MAIL that was answered 250 and the last 354. Nothing in it
is older, so nothing is left over from a transaction that was reset, refused for its size or
completed before. -/
namespace MailCapture
open Message

/-! ### The rules of a header -/

/-- A header as far as it has been read, with the name of the field that a fold continues. -/
structure Header where
  fields : Fields := []
  last : Option Text := none
deriving DecidableEq, Repr

namespace Header

/-- A folded line continues the last field. Any other starts a field if it has a name before a
colon, and is dropped if it has not. -/
def take (h : Header) (line : Text) : Header :=
  if isFolded line then
    match h.last with
    | some name => {h with fields := Fields.extend name line h.fields}
    | none => h
  else if line.head? = some ':' then h
  else match splitField line with
    | some (name, value) => ⟨Fields.add name value h.fields, some name⟩
    | none => h

def ofLines (lines : List Text) : Header := lines.foldl take {}

theorem ofLines_append (lines : List Text) (line : Text) :
    ofLines (lines ++ [line]) = (ofLines lines).take line := List.foldl_append

end Header

/-! ### Logs -/

theorem Answer.IsIdle.code_ne {a : Answer} (h : a.IsIdle) : a.code? ≠ some 250 := by
  intro h250
  obtain ⟨code, hmem, hcode⟩ := h
  obtain rfl := Option.some.inj (hcode.symm.trans h250)
  exact absurd hmem (by decide)

/-- A line with the phase it met and the answer it got. -/
structure Entry where
  phase : Phase
  line : Text
  answer : Answer
deriving DecidableEq, Repr

namespace Entry

def command (e : Entry) : Command := .parse e.line e.phase

/-- A MAIL answered 250. -/
def beginsTransaction (e : Entry) : Bool :=
  match e.command with
  | .mail _ => e.answer.code? = some 250
  | _ => false

/-- A line answered 354. -/
def beginsData (e : Entry) : Bool := e.answer.code? = some 354

/-- The address of a RCPT answered 250. -/
def recipient? (e : Entry) : Option Text :=
  match e.command with
  | .rcpt (some address) => if e.answer.code? = some 250 then some address else none
  | _ => none

variable {e : Entry}

/-- Content is no command, whatever it looks like. -/
theorem isSpoken_content (hdata : e.phase.isData = true) : e.command.isSpoken = false := by
  unfold command
  cases hphase : e.phase with
  | headers =>
    simp only [Command.parse, Command.parseHeader]
    repeat' split
    all_goals rfl
  | body =>
    simp only [Command.parse, Command.parseBody]
    split <;> rfl
  | _ =>
    rw [hphase] at hdata
    cases hdata

theorem command_ne (hdata : e.phase.isData = true) {c : Command} (hspoken : c.isSpoken = true) :
    e.command ≠ c := by
  intro heq
  rw [← heq, isSpoken_content hdata] at hspoken
  cases hspoken

theorem beginsTransaction_eq_false (h : e.answer.code? ≠ some 250 ∨ ∀ a, e.command ≠ .mail a) :
    e.beginsTransaction = false := by
  unfold beginsTransaction
  split
  · next hcommand => exact decide_eq_false (h.resolve_right fun hother => hother _ hcommand)
  · rfl

/-- Nobody is named by what is no RCPT, or is not answered 250. -/
theorem append_recipient? (h : e.answer.code? ≠ some 250 ∨ ∀ a, e.command ≠ .rcpt a)
    (recipients : List Text) : recipients ++ e.recipient?.toList = recipients := by
  have hnone : e.recipient? = none := by
    unfold recipient?
    split
    · next hcommand => exact if_neg (h.resolve_right fun hother => hother _ hcommand)
    · rfl
  rw [hnone]
  exact List.append_nil recipients

end Entry

/-- What a log has after the last entry that `p` holds of. -/
def since (p : Entry → Bool) (log : List Entry) : List Entry :=
  (log.reverse.takeWhile fun e => !p e).reverse

theorem since_append {p : Entry → Bool} {e : Entry} {later : List Entry} (he : p e = true)
    (hlater : ∀ x ∈ later, p x = false) (earlier : List Entry) :
    since p (earlier ++ e :: later) = later := by
  have hpass : ∀ x ∈ later.reverse, (!p x) = true := fun x hx => by
    rw [hlater x (List.mem_reverse.mp hx)]
    rfl
  rw [since, List.reverse_append, List.reverse_cons, List.append_assoc, List.singleton_append,
    List.takeWhile_append_of_pos hpass, List.takeWhile_cons_of_neg (by rw [he]; decide),
    List.append_nil, List.reverse_reverse]

namespace Session
variable {s : Session} {line : Text} {t : Turn}

/-- The log of some lines. -/
def transcript (s : Session) : List Text → List Entry
  | [] => []
  | line :: rest => ⟨s.phase, line, (s.accept line).answer⟩ :: (s.accept line).session.transcript rest

/-! ### Content -/

/-- The content of a message: the lines before the first empty line, and those after it. -/
def headerPart (content : List Text) : List Text := content.takeWhile (· ≠ [])
def bodyPart (content : List Text) : List Text := (content.dropWhile (· ≠ [])).drop 1

/-- How much of the size limit some lines take. -/
def linesSize : List Text → Nat
  | [] => 0
  | line :: rest => lineSize line + linesSize rest

theorem linesSize_append (content : List Text) (line : Text) :
    linesSize (content ++ [line]) = linesSize content + lineSize line := by
  induction content with
  | nil => exact Nat.add_comm (lineSize line) 0
  | cons first rest ih => rw [List.cons_append, linesSize, linesSize, ih, Nat.add_assoc]

/-- A session that has drafted some lines of message data and nothing else since they began. -/
inductive Collected : List Text → Session → Prop
  | header {content s} (phase : s.phase = .headers) (noEmpty : [] ∉ content)
      (header : ⟨s.draft.fields, s.lastField⟩ = Header.ofLines (content.map Command.unstuff))
      (lines : s.draft.lines = []) (received : s.received = linesSize content) :
      Collected content s
  | body {header body s} (phase : s.phase = .body) (noEmpty : [] ∉ header)
      (fields : s.draft.fields = (Header.ofLines (header.map Command.unstuff)).fields)
      (lines : s.draft.lines = body.map Command.unstuff)
      (received : s.received = linesSize (header ++ [] :: body)) :
      Collected (header ++ [] :: body) s

/-- Lines that are not empty only make the header longer. -/
theorem parts_append {header : List Text} (h : [] ∉ header) (rest : List Text) :
    headerPart (header ++ rest) = header ++ headerPart rest ∧
      bodyPart (header ++ rest) = bodyPart rest := by
  have hall : ∀ line ∈ header, decide (line ≠ []) = true := by
    intro line hline
    apply decide_eq_true
    intro heq
    subst heq
    exact h hline
  unfold headerPart bodyPart
  rw [List.takeWhile_append_of_pos hall, List.dropWhile_append_of_pos hall]
  exact ⟨rfl, rfl⟩

theorem parts_uncut {content : List Text} (h : [] ∉ content) :
    headerPart content = content ∧ bodyPart content = [] := by
  have hparts := parts_append h []
  rwa [List.append_nil, show headerPart [] = [] from rfl, List.append_nil] at hparts

theorem parts_cut {header : List Text} (h : [] ∉ header) (body : List Text) :
    headerPart (header ++ [] :: body) = header ∧ bodyPart (header ++ [] :: body) = body := by
  have hparts := parts_append h ([] :: body)
  rwa [show headerPart ([] :: body) = [] from rfl, List.append_nil] at hparts

/-- What has been collected is all there is to the draft's content. -/
theorem Collected.draft {content : List Text} (h : Collected content s) :
    s.draft.fields = (Header.ofLines ((headerPart content).map Command.unstuff)).fields ∧
      s.draft.lines = (bodyPart content).map Command.unstuff ∧
      s.received = linesSize content := by
  cases h with
  | header phase noEmpty header lines received =>
    obtain ⟨hheader, hbody⟩ := parts_uncut noEmpty
    rw [hheader, hbody, ← header]
    exact ⟨rfl, lines, received⟩
  | body phase noEmpty fields lines received =>
    obtain ⟨hheader, hbody⟩ := parts_cut noEmpty _
    rw [hheader, hbody]
    exact ⟨fields, lines, received⟩

/-- Drafting a header line is taking it into the header. -/
theorem draftHeader_eq_take (s : Session) (line : Text) :
    (s.draftHeader line).1 = {s with
      draft := {s.draft with fields := (Header.take ⟨s.draft.fields, s.lastField⟩ line).fields}
      lastField := (Header.take ⟨s.draft.fields, s.lastField⟩ line).last} := by
  obtain ⟨hostname, sizeLimit, phase, draft, lastField, received⟩ := s
  unfold draftHeader Header.take
  cases isFolded line with
  | true => cases lastField <;> rfl
  | false =>
    rw [if_neg Bool.false_ne_true]
    by_cases hcolon : line.head? = some ':' <;> cases splitField line <;>
      simp only [hcolon, if_true, if_false, addField]

/-- One more line of message data that does not end it. -/
theorem Collected.append {content : List Text} (h : Collected content s)
    (hturn : DataTurn s line t) (hopen : t.session.phase.isOpen = true) :
    Collected (content ++ [line]) t.session := by
  cases hturn with
  | tooMuch | dot => cases hopen
  | emptyLine _ hphase hempty =>
    subst hempty
    cases h with
    | header _ noEmpty header lines received =>
      refine .body rfl noEmpty (by rw [← header]; rfl) lines ?_
      rw [linesSize_append, ← received]
      rfl
    | body hbody =>
      rw [hphase] at hbody
      cases hbody
  | headerLine _ hphase _ hnonempty =>
    cases h with
    | header _ noEmpty header lines received =>
      rw [draftHeader_eq_take]
      refine .header hphase ?_ ?_ lines ?_
      · simpa [noEmpty] using Ne.symm hnonempty
      · rw [List.map_append, List.map_singleton, Header.ofLines_append, ← header]
        rfl
      · rw [linesSize_append, ← received]
        rfl
    | body hbody =>
      rw [hphase] at hbody
      cases hbody
  | bodyLine _ hphase =>
    cases h with
    | header hheader =>
      rw [hphase] at hheader
      cases hheader
    | @body before body _ _ noEmpty fields lines received =>
      rw [List.append_assoc, List.cons_append]
      refine .body hphase noEmpty fields ?_ ?_
      · rw [List.map_append, ← lines]
        exact lines_addLine ..
      · rw [← List.cons_append, ← List.append_assoc, linesSize_append, ← received]
        rfl

/-! ### Transactions -/

/-- The transaction under way: `mail` began it and `later` has come since. -/
structure Transacting (mail : Entry) (later : List Entry) (s : Session) : Prop where
  begun : mail.beginsTransaction = true
  /-- It has not begun anew, nor been given up or completed. -/
  going : ∀ e ∈ later, e.beginsTransaction = false ∧ e.answer.next.isOpen = true
  sender : ∃ e ∈ mail :: later, e.command = .mail s.draft.sender
  recipients : s.draft.recipients = later.filterMap Entry.recipient?

theorem Transacting.append {mail : Entry} {later : List Entry} (h : Transacting mail later s)
    {e : Entry} (hbegins : e.beginsTransaction = false) (hopen : e.answer.next.isOpen = true)
    {s' : Session}
    (hsender : s'.draft.sender = s.draft.sender ∨ e.command = .mail s'.draft.sender)
    (hrecipients : s'.draft.recipients = s.draft.recipients ++ e.recipient?.toList) :
    Transacting mail (later ++ [e]) s' where
  begun := h.begun
  going x hx := by
    rcases List.mem_append.mp hx with hx | hx
    · exact h.going x hx
    · obtain rfl := List.mem_singleton.mp hx
      exact ⟨hbegins, hopen⟩
  sender := by
    rw [← List.cons_append]
    rcases hsender with hsame | hmail
    · obtain ⟨x, hx, hcommand⟩ := h.sender
      exact ⟨x, List.mem_append_left _ hx, by rw [hsame]; exact hcommand⟩
    · exact ⟨e, List.mem_append_right _ (List.mem_singleton_self e), hmail⟩
  recipients := by
    rw [hrecipients, h.recipients, List.filterMap_append]
    cases hrecipient : e.recipient? <;> simp [hrecipient]

/-! ### What the log tells -/

/-- The log tells all that is drafted in a transaction under way. -/
def Told (log : List Entry) (s : Session) : Prop :=
  s.phase.isOpen = true → ∃ earlier mail later, log = earlier ++ mail :: later ∧
    Transacting mail later s ∧
    (s.phase.isData = true → ∃ envelope data content, later = envelope ++ data :: content ∧
      data.beginsData = true ∧ (∀ e ∈ content, e.beginsData = false) ∧
      Collected (content.map Entry.line) s)

theorem Told.of_closed {log : List Entry} (h : s.phase.isOpen = false) : Told log s := by
  intro hopen
  rw [h] at hopen
  cases hopen

variable {hostname : Text} {sizeLimit : Nat} {log : List Entry}

/-- One more command of the envelope. -/
theorem Told.envelope (h : Told log s) {e : Entry} {s' : Session} (hopen : s.phase.isOpen = true)
    (hdata : s'.phase.isData = false) (hbegins : e.beginsTransaction = false)
    (hnext : e.answer.next.isOpen = true)
    (hsender : s'.draft.sender = s.draft.sender ∨ e.command = .mail s'.draft.sender)
    (hrecipients : s'.draft.recipients = s.draft.recipients ++ e.recipient?.toList) :
    Told (log ++ [e]) s' := by
  intro _
  obtain ⟨earlier, mail, later, rfl, hunder, -⟩ := h hopen
  refine ⟨earlier, mail, later ++ [e], List.append_assoc .., ?_, fun hcontent => ?_⟩
  · exact hunder.append hbegins hnext hsender hrecipients
  · rw [hdata] at hcontent
    cases hcontent

theorem Told.command (h : Told log s) (hs : Standing hostname sizeLimit s)
    (hdata : s.phase.isData = false) (line : Text) :
    Told (log ++ [⟨s.phase, line, (s.accept line).answer⟩]) (s.accept line).session := by
  have hturn := commandTurn_accept hdata line
  have hcommand (a : Answer) : (Entry.mk s.phase line a).command = Command.parseCommand line :=
    Command.parse_command hdata line
  generalize s.accept line = t at hturn ⊢
  generalize Command.parseCommand line = c at hturn hcommand
  cases hturn with
  | @idle c a hnext hrecord hcode =>
    have hquiet : a.code? ≠ some 250 ∨ c = .noop := by
      rcases hcode with hidle | ⟨hnoop, -⟩
      · exact .inl hidle.code_ne
      · exact .inr hnoop
    intro hopen
    refine h.envelope hopen hdata ?_ ?_ (.inl rfl) ?_ hopen
    · refine Entry.beginsTransaction_eq_false (hquiet.imp_right fun hnoop _ => ?_)
      rw [hcommand, hnoop]
      exact Command.noConfusion
    · show a.next.isOpen = true
      rw [hnext]
      exact hopen
    · refine (Entry.append_recipient? (hquiet.imp_right fun hnoop _ => ?_) _).symm
      rw [hcommand, hnoop]
      exact Command.noConfusion
  | sender hready =>
    intro _
    refine ⟨log, _, [], rfl, ?_, nofun⟩
    rw [hs.of_closed (Phase.isOpen_of_isReady hready)]
    exact {
      begun := by
        unfold Entry.beginsTransaction
        rw [hcommand]
        rfl
      going := nofun
      sender := ⟨_, List.mem_cons_self, hcommand _⟩
      recipients := rfl }
  | overriding hphase =>
    have hrefused : (Answer.badSequence "MAIL".toList .sender).code? ≠ some 250 := by decide
    exact h.envelope (by rw [hphase]; rfl) hdata (Entry.beginsTransaction_eq_false (.inl hrefused))
      rfl (.inr (hcommand _)) (Entry.append_recipient? (.inl hrefused) _).symm
  | @recipient address haddressing =>
    refine h.envelope (Phase.isOpen_of_isAddressing haddressing) rfl ?_ rfl (.inl rfl) ?_
    · refine Entry.beginsTransaction_eq_false (.inr fun _ => ?_)
      rw [hcommand]
      exact Command.noConfusion
    · have hrecipient : (Entry.mk s.phase line (.ok .recipient)).recipient? = some address := by
        unfold Entry.recipient?
        rw [hcommand]
        rfl
      rw [hrecipient]
      rfl
  | input hphase =>
    intro _
    obtain ⟨earlier, mail, later, rfl, hunder, -⟩ := h (by rw [hphase]; rfl)
    obtain ⟨_, _, -, hdraft⟩ := hs.of_isAddressing (by rw [hphase]; rfl)
    have hgoAhead : Answer.startInput.code? ≠ some 250 := by decide
    refine ⟨earlier, mail, later ++ [_], List.append_assoc .., ?_, fun _ => ?_⟩
    · exact hunder.append (Entry.beginsTransaction_eq_false (.inl hgoAhead)) rfl (.inl rfl)
        (Entry.append_recipient? (.inl hgoAhead) _).symm
    · refine ⟨later, _, [], rfl, rfl, nofun, ?_⟩
      rw [hdraft]
      exact .header rfl List.not_mem_nil rfl rfl rfl
  | hello | reset | goodbye => exact .of_closed rfl

/-- An answer to content is silence, if it leaves the transaction open. -/
theorem DataTurn.silent (hturn : DataTurn s line t) (hopen : t.session.phase.isOpen = true) :
    t.answer.code? = none ∧ t.answer.next = t.session.phase ∧
      t.session.draft.sender = s.draft.sender ∧
      t.session.draft.recipients = s.draft.recipients := by
  cases hturn with
  | tooMuch | dot => cases hopen
  | emptyLine => exact ⟨rfl, rfl, rfl, rfl⟩
  | bodyLine _ hphase => exact ⟨rfl, hphase.symm, rfl, rfl⟩
  | headerLine _ hphase =>
    rw [draftHeader_eq_take]
    exact ⟨rfl, hphase.symm, rfl, rfl⟩

theorem Told.content (h : Told log s) (hdata : s.phase.isData = true) (line : Text) :
    Told (log ++ [⟨s.phase, line, (s.accept line).answer⟩]) (s.accept line).session := by
  have hturn := dataTurn_accept hdata line
  intro hopen
  obtain ⟨hcode, hnext, hsender, hrecipients⟩ := hturn.silent hopen
  obtain ⟨earlier, mail, later, rfl, hunder, hcontent⟩ := h (Phase.isOpen_of_isData hdata)
  obtain ⟨envelope, data, content, rfl, hbegins, hlast, hcollected⟩ := hcontent hdata
  let e : Entry := ⟨s.phase, line, (s.accept line).answer⟩
  have hmail (a) : e.command ≠ .mail a := e.command_ne hdata rfl
  have hrcpt (a) : e.command ≠ .rcpt a := e.command_ne hdata rfl
  refine ⟨earlier, mail, (envelope ++ data :: content) ++ [e], List.append_assoc .., ?_, fun _ => ?_⟩
  · refine hunder.append (Entry.beginsTransaction_eq_false (.inr hmail)) ?_ (.inl hsender) ?_
    · show (s.accept line).answer.next.isOpen = true
      rw [hnext]
      exact hopen
    · rw [hrecipients, Entry.append_recipient? (.inr hrcpt)]
  · refine ⟨envelope, data, content ++ [e], List.append_assoc .., hbegins, fun x hx => ?_, ?_⟩
    · rcases List.mem_append.mp hx with hx | hx
      · exact hlast x hx
      · obtain rfl := List.mem_singleton.mp hx
        show decide ((s.accept line).answer.code? = some 354) = false
        rw [hcode]
        rfl
    · rw [List.map_append]
      exact hcollected.append hturn hopen

theorem Told.accept (h : Told log s) (hs : Standing hostname sizeLimit s) (line : Text) :
    Told (log ++ [⟨s.phase, line, (s.accept line).answer⟩]) (s.accept line).session := by
  cases hdata : s.phase.isData with
  | false => exact h.command hs hdata line
  | true => exact h.content hdata line

theorem Told.after (h : Told log s) (hs : Standing hostname sizeLimit s) (lines : List Text) :
    Told (log ++ s.transcript lines) (s.after lines) := by
  induction lines generalizing log s with
  | nil =>
    rw [transcript, List.append_nil]
    exact h
  | cons line rest ih =>
    rw [transcript, List.append_cons]
    exact ih (h.accept hs line) (hs.accept line)

/-! ### Deliveries -/

/-- A line delivers exactly if it is the dot that ends a message within its size. -/
theorem isSome_delivered (s : Session) (line : Text) :
    (s.accept line).delivered.isSome = true ↔
      s.phase.isData = true ∧ line = ['.'] ∧ s.Fits line := by
  constructor
  · intro hsome
    obtain ⟨m, hm⟩ := Option.isSome_iff_exists.mp hsome
    have hdata := (delivered_accept hm).1
    have hturn := dataTurn_accept hdata line
    generalize s.accept line = t at hturn hm
    cases hturn with
    | dot hfits hdot => exact ⟨hdata, hdot, hfits⟩
    | _ => cases hm
  · rintro ⟨hdata, rfl, hfits⟩
    rw [accept_dot hdata hfits]
    rfl

/-- While message data comes in, the log since its last MAIL and its last 354 is what is drafted. -/
theorem Told.since (h : Told log s) (hdata : s.phase.isData = true) :
    let later := MailCapture.since Entry.beginsTransaction log
    (∃ earlier mail, log = earlier ++ mail :: later ∧ Transacting mail later s) ∧
      later.any Entry.beginsData = true ∧
      Collected ((MailCapture.since Entry.beginsData log).map Entry.line) s := by
  intro later
  obtain ⟨earlier, mail, _, rfl, hunder, hcontent⟩ := h (Phase.isOpen_of_isData hdata)
  obtain ⟨envelope, data, content, rfl, hbegins, hlast, hcollected⟩ := hcontent hdata
  have hlater : later = envelope ++ data :: content :=
    since_append hunder.begun (fun e he => (hunder.going e he).1) earlier
  have hsince : MailCapture.since Entry.beginsData (earlier ++ mail :: (envelope ++ data :: content)) =
      content := by
    rw [← List.cons_append, ← List.append_assoc]
    exact since_append hbegins hlast _
  rw [hlater, hsince]
  exact ⟨⟨earlier, mail, rfl, hunder⟩, by simp [hbegins], hcollected⟩

/-- **A message is what came since its transaction began.** Of any lines given to a greeted session,
a lone dot among message data that is still within the size limit delivers one message, and no other
line delivers any. The message's recipients are the addresses of the RCPTs answered 250 since the
last MAIL answered 250, at least one; its fields are the header that the lines after the 354 and
before the first empty line make, with doubled dots undone, and its body the lines after that, up to
the dot. Since that MAIL the transaction has been neither given up nor completed. -/
theorem delivered_since (hostname : Text) (sizeLimit : Nat) (lines : List Text) (line : Text) :
    let start := greeted hostname sizeLimit
    let s := start.after lines
    let t := s.accept line
    let log := start.transcript lines
    let later := since Entry.beginsTransaction log
    let content := (since Entry.beginsData log).map Entry.line
    (t.delivered.isSome = true ↔ s.phase.isData = true ∧ line = ['.'] ∧
      linesSize content + lineSize line ≤ sizeLimit) ∧
    ∀ m, t.delivered = some m →
      (m.recipients = later.filterMap Entry.recipient? ∧ m.recipients ≠ []) ∧
      m.fields = (Header.ofLines ((headerPart content).map Command.unstuff)).fields ∧
      (m.lines = (bodyPart content).map Command.unstuff ∧
        m.body = Text.join '\n' ((bodyPart content).map Command.unstuff)) ∧
      (∃ earlier mail, log = earlier ++ mail :: later ∧ mail.beginsTransaction = true ∧
        ∃ e ∈ mail :: later, e.command = .mail m.sender) ∧
      later.any Entry.beginsData = true ∧ later.all (·.answer.next.isOpen) = true := by
  intro start s t log later content
  have hstart : Standing hostname sizeLimit start := .closed rfl
  have hs : Standing hostname sizeLimit s := hstart.after lines
  have hnone : Told [] start := .of_closed rfl
  have htold : Told log s := hnone.after hstart lines
  refine ⟨?_, fun m hm => ?_⟩
  · rw [isSome_delivered]
    refine and_congr_right fun hdata => and_congr_right fun _ => ?_
    rw [Fits, (htold.since hdata).2.2.draft.2.2, hs.settings.2]
  · obtain ⟨hdata, rfl⟩ := delivered_accept hm
    obtain ⟨⟨earlier, mail, hlog, hunder⟩, hbegins, hcollected⟩ := htold.since hdata
    obtain ⟨hfields, hlines, -⟩ := hcollected.draft
    have hgoing : later.all (·.answer.next.isOpen) = true :=
      List.all_eq_true.mpr fun e he => (hunder.going e he).2
    refine ⟨⟨hunder.recipients, (hs.of_isData hdata).recipients⟩, hfields, ⟨hlines, ?_⟩,
      ⟨earlier, mail, hlog, hunder.begun, hunder.sender⟩, hbegins, hgoing⟩
    rw [Message.body, hlines]

/-- A transaction is reset before the one that delivers. In the header and in the body of that one
there are lines that begin with a dot. -/
theorem delivered_since_stuffed :
    let lines := ["MAIL FROM:<old>".toList, "RCPT TO:<gone>".toList, "RSET".toList,
      "MAIL FROM:<a>".toList, "RCPT TO:<b>".toList, "DATA".toList, "..List: x".toList, [],
      "..".toList, "..two".toList, ".three".toList]
    let t := ((greeted "mx".toList 1000).after lines).accept ['.']
    ∃ m, t.delivered = some m ∧ m.recipients = ["b".toList] ∧
      m.fields = [⟨".List".toList, ["x".toList]⟩] ∧
      m.lines = [".".toList, ".two".toList, ".three".toList] := by
  intro lines t
  obtain ⟨hdelivers, hcontent⟩ := delivered_since "mx".toList 1000 lines ['.']
  obtain ⟨m, hm⟩ := Option.isSome_iff_exists.mp
    (hdelivers.mpr ⟨by decide +kernel, rfl, by decide +kernel⟩)
  obtain ⟨⟨hrecipients, -⟩, hfields, ⟨hlines, -⟩, -⟩ := hcontent m hm
  exact ⟨m, hm, hrecipients.trans (by decide +kernel), hfields.trans (by decide +kernel),
    hlines.trans (by decide +kernel)⟩

end Session
end MailCapture
