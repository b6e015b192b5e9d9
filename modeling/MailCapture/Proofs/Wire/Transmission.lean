import MailCapture.Proofs.Dialogue.Phrases
import MailCapture.Proofs.Wire.Exchange

/-! Messages sent over one connection.

A client sends a transaction as its envelope commands, `DATA`, a header line for each field, an
empty line, the lines of the body and a lone dot, with every line that starts with a dot given
another. `transmission_received`: a session hears any number of these exactly as they are meant, if
only they fit, whatever the parts look like: a line of content may read like a command, a fold, an
empty line or the end of the data.

The goodbye is the one line whose answer depends on what came before it: a session that has taken no
message refuses it (`goodbye_refused`). -/
namespace MailCapture
open Command Message

/-- A message to send, with its envelope. -/
structure Transaction where
  sender : Text
  recipients : List Text
  fields : List (Text × Text)
  lines : List Text
deriving DecidableEq, Repr

namespace Transaction

/-! ### What is sent -/

def envelope (t : Transaction) : List Text :=
  mailLine t.sender :: (t.recipients.map rcptLine ++ ["DATA".toList])

def headerLines (fields : List (Text × Text)) : List Text :=
  fields.map fun (name, value) => stuff (fieldLine name value)

def data (t : Transaction) : List Text :=
  headerLines t.fields ++ [] :: (t.lines.map stuff ++ [['.']])

/-- What the client must see to. The data counts towards the size limit as it is sent, with its dots
doubled, its line ends and the lone dot. -/
structure Sendable (sizeLimit : Nat) (t : Transaction) : Prop where
  recipients : t.recipients ≠ []
  addresses : ∀ address ∈ t.sender :: t.recipients, '>' ∉ address ∧ '\n' ∉ address
  names : ∀ field ∈ t.fields, IsName field.1 ∧ '\n' ∉ field.1
  values : ∀ field ∈ t.fields, Text.trim field.2 = field.2 ∧ '\n' ∉ field.2
  lines : ∀ line ∈ t.lines, '\n' ∉ line
  commandLimit : ∀ line ∈ t.envelope, (wireLine line).length ≤ 512
  dataLimit : ∀ line ∈ t.data, (wireLine line).length ≤ 1000
  sizeLimit : (wire t.data).length ≤ sizeLimit

/-! ### What is understood -/

/-- The fields of a header, written one by one. -/
def addFields (fields : List (Text × Text)) (header : Fields) : Fields :=
  fields.foldl (fun header (name, value) => Fields.add name value header) header

def message (t : Transaction) : Message where
  fields := addFields t.fields []
  linesBack := t.lines.reverse
  sender := some t.sender
  recipients := t.recipients

theorem body_message (t : Transaction) : t.message.body = Text.join '\n' t.lines := by
  rw [Message.body, Message.lines, message, List.reverse_reverse]

def answers (t : Transaction) : List Answer :=
  .ok .sender :: (t.recipients.map (fun _ => .ok .recipient) ++ [.startInput, .ok .quit])

/-- Everything done about a transaction. -/
def acts (t : Transaction) : List Act :=
  (Answer.ok .sender).acts ++ (t.recipients.flatMap (fun _ => (Answer.ok .recipient).acts) ++
    (Answer.startInput.acts ++ (.delivered t.message :: (Answer.ok .quit).acts)))

/-- All the lines of a transaction. -/
def sent (t : Transaction) : List Text := t.envelope ++ t.data

end Transaction

/-- A session with nothing under way. -/
def Session.between (hostname : Text) (sizeLimit : Nat) (phase : Phase) : Session :=
  { hostname, sizeLimit, phase }

namespace Exchange
open Session Transaction

variable {s : Session}

/-- One command. -/
theorem command (hcommand : s.phase.isCommand = true) {line : Text} {c : Command}
    (hparse : parseCommand line = c) (hnewline : '\n' ∉ line) (hfits : (wireLine line).length ≤ 512)
    {turn : Turn} (hperform : s.perform c = turn) : Exchange s [line] turn.acts turn.session := by
  have hdata := Phase.isData_of_isCommand hcommand
  have hlimit : s.phase.lineLimit = 512 := by
    rw [Phase.lineLimit, hdata]
    rfl
  refine single (Phase.ne_connect_of_isCommand hcommand) hnewline (hlimit ▸ hfits) ?_
  rw [accept_command hdata, hparse, hperform]

/-- One line of message data. -/
theorem content (hdata : s.phase.isData = true) {line : Text} (hnewline : '\n' ∉ line)
    (hfits : (wireLine line).length ≤ 1000) {turn : Turn} (haccept : s.accept line = turn) :
    Exchange s [line] turn.acts turn.session := by
  have hlimit : s.phase.lineLimit = 1000 := if_pos hdata
  exact single (Phase.ne_connect_of_isData hdata) hnewline (hlimit ▸ hfits) haccept

/-! ### The envelope -/

theorem mail (hready : s.phase.isReady = true) {address : Text} (hclose : '>' ∉ address)
    (hnewline : '\n' ∉ address) (hfits : (wireLine (mailLine address)).length ≤ 512) :
    Exchange s [mailLine address] (Answer.ok .sender).acts
      {s with phase := .sender, draft := s.draft.setSender address} :=
  command (Phase.isCommand_of_isReady hready) (parseCommand_mailLine hclose)
    (newline_notMem_mailLine hnewline) hfits (perform_mail hready address)

theorem rcpt (haddressing : s.phase.isAddressing = true) {address : Text} (hclose : '>' ∉ address)
    (hnewline : '\n' ∉ address) (hfits : (wireLine (rcptLine address)).length ≤ 512) :
    Exchange s [rcptLine address] (Answer.ok .recipient).acts
      {s with phase := .recipient, draft := s.draft.addRecipient address} :=
  command (Phase.isCommand_of_isAddressing haddressing) (parseCommand_rcptLine hclose)
    (newline_notMem_rcptLine hnewline) hfits (perform_rcpt haddressing address)

theorem rcpts {recipients : List Text} (hne : recipients ≠ [])
    (haddressing : s.phase.isAddressing = true)
    (haddresses : ∀ address ∈ recipients, '>' ∉ address ∧ '\n' ∉ address)
    (hfits : ∀ line ∈ recipients.map rcptLine, (wireLine line).length ≤ 512) :
    Exchange s (recipients.map rcptLine)
      (recipients.flatMap fun _ => (Answer.ok .recipient).acts)
      {s with
        phase := .recipient
        draft := {s.draft with recipients := s.draft.recipients ++ recipients}} := by
  induction recipients generalizing s with
  | nil => exact absurd rfl hne
  | cons address rest ih =>
    obtain ⟨haddress, hrest⟩ := List.forall_mem_cons.mp haddresses
    rw [List.map_cons, List.forall_mem_cons] at hfits
    have hfirst := rcpt haddressing haddress.1 haddress.2 hfits.1
    by_cases hlast : rest = []
    · rw [hlast]
      exact hfirst
    · have hmore := hfirst.append (ih hlast rfl hrest hfits.2)
      simpa [Message.addRecipient] using hmore

theorem startInput (hphase : s.phase = .recipient) :
    Exchange s ["DATA".toList] Answer.startInput.acts {s with phase := .headers} :=
  command (by rw [hphase]; rfl) (by decide) (by decide) (by decide) (perform_data hphase)

/-! ### The header -/

theorem draftHeader_fieldLine (s : Session) {name value : Text} (hname : IsName name)
    (hvalue : Text.trim value = value) :
    s.draftHeader (fieldLine name value) =
      ({s with draft := s.draft.addField name value, lastField := some name}, []) := by
  unfold draftHeader
  simp only [isFolded_fieldLine hname, splitField_fieldLine hname hvalue,
    if_neg (head_fieldLine hname value)]

theorem field (hphase : s.phase = .headers) {name value : Text} (hname : IsName name)
    (hnewline : '\n' ∉ name) (hvalue : Text.trim value = value ∧ '\n' ∉ value)
    (hfits : (wireLine (stuff (fieldLine name value))).length ≤ 1000)
    (hsize : s.Fits (stuff (fieldLine name value))) :
    Exchange s [stuff (fieldLine name value)] []
      {s.count (stuff (fieldLine name value)) with
        draft := s.draft.addField name value
        lastField := some name} := by
  have hne : stuff (fieldLine name value) ≠ [] := by
    rw [Ne, stuff_eq_nil, fieldLine]
    exact List.append_ne_nil_of_left_ne_nil hname.nonempty _
  have haccept := accept_headerLine hphase hsize (stuff_ne_dot _) hne
  rw [unstuff_stuff, draftHeader_fieldLine _ hname hvalue.1] at haccept
  exact content (by rw [hphase]; rfl)
    (newline_notMem_stuff (newline_notMem_fieldLine hnewline hvalue.2)) hfits haccept

theorem fields {fields : List (Text × Text)} (hphase : s.phase = .headers)
    (hnames : ∀ field ∈ fields, IsName field.1 ∧ '\n' ∉ field.1)
    (hvalues : ∀ field ∈ fields, Text.trim field.2 = field.2 ∧ '\n' ∉ field.2)
    (hfits : ∀ line ∈ headerLines fields, (wireLine line).length ≤ 1000)
    (hsize : s.received + (wire (headerLines fields)).length ≤ s.sizeLimit) :
    ∃ lastField, Exchange s (headerLines fields) []
      {s with
        draft := {s.draft with fields := addFields fields s.draft.fields}
        lastField
        received := s.received + (wire (headerLines fields)).length} := by
  induction fields generalizing s with
  | nil => exact ⟨s.lastField, .nil⟩
  | cons f rest ih =>
    obtain ⟨name, value⟩ := f
    obtain ⟨hname, hnames⟩ := List.forall_mem_cons.mp hnames
    obtain ⟨hvalue, hvalues⟩ := List.forall_mem_cons.mp hvalues
    obtain ⟨hline, hfits⟩ := List.forall_mem_cons.mp hfits
    have hlength : (wire (headerLines ((name, value) :: rest))).length =
        lineSize (stuff (fieldLine name value)) + (wire (headerLines rest)).length :=
      length_wire_cons _ _
    rw [hlength, ← Nat.add_assoc] at hsize ⊢
    have hfirst := field hphase hname.1 hname.2 hvalue hline
      (Nat.le_trans (Nat.le_add_right ..) hsize)
    let next : Session := {s.count (stuff (fieldLine name value)) with
      draft := s.draft.addField name value
      lastField := some name}
    obtain ⟨lastField, hrest⟩ := ih (s := next) hphase hnames hvalues hfits hsize
    exact ⟨lastField, hfirst.append hrest⟩

/-! ### The body -/

theorem emptyLine (hphase : s.phase = .headers) (hsize : s.Fits []) :
    Exchange s [[]] [] {s.count [] with phase := .body} :=
  content (by rw [hphase]; rfl) List.not_mem_nil (by decide) (accept_emptyLine hphase hsize)

theorem bodyLine (hphase : s.phase = .body) {line : Text} (hnewline : '\n' ∉ line)
    (hfits : (wireLine (stuff line)).length ≤ 1000) (hsize : s.Fits (stuff line)) :
    Exchange s [stuff line] [] {s.count (stuff line) with draft := s.draft.addLine line} := by
  have haccept := accept_bodyLine hphase hsize (stuff_ne_dot line)
  rw [unstuff_stuff] at haccept
  exact content (by rw [hphase]; rfl) (newline_notMem_stuff hnewline) hfits haccept

theorem bodyLines {lines : List Text} (hphase : s.phase = .body)
    (hnewline : ∀ line ∈ lines, '\n' ∉ line)
    (hfits : ∀ line ∈ lines.map stuff, (wireLine line).length ≤ 1000)
    (hsize : s.received + (wire (lines.map stuff)).length ≤ s.sizeLimit) :
    Exchange s (lines.map stuff) []
      {s with
        draft := {s.draft with linesBack := lines.reverse ++ s.draft.linesBack}
        received := s.received + (wire (lines.map stuff)).length} := by
  induction lines generalizing s with
  | nil => exact .nil
  | cons line rest ih =>
    obtain ⟨hline, hnewline⟩ := List.forall_mem_cons.mp hnewline
    obtain ⟨hfirst, hfits⟩ := List.forall_mem_cons.mp hfits
    rw [List.map_cons, length_wire_cons, ← Nat.add_assoc] at hsize ⊢
    have hfirst := bodyLine hphase hline hfirst (Nat.le_trans (Nat.le_add_right ..) hsize)
    let next : Session := {s.count (stuff line) with draft := s.draft.addLine line}
    have hrest := ih (s := next) hphase hnewline hfits hsize
    rw [List.reverse_cons, List.append_assoc]
    exact hfirst.append hrest

theorem dot (hdata : s.phase.isData = true) (hsize : s.Fits ['.']) :
    Exchange s [['.']] (.delivered s.draft :: (Answer.ok .quit).acts)
      {s.discard with phase := .quit} :=
  content hdata (by decide) (by decide) (accept_dot hdata hsize)

/-! ### Transactions -/

variable {hostname : Text} {sizeLimit : Nat} {phase : Phase}

theorem envelope (hready : s.phase.isReady = true) {t : Transaction} (h : t.Sendable sizeLimit) :
    Exchange s t.envelope
      ((Answer.ok .sender).acts ++ (t.recipients.flatMap (fun _ => (Answer.ok .recipient).acts) ++
        Answer.startInput.acts))
      {s with
        phase := .headers
        draft := {s.draft with
          sender := some t.sender
          recipients := s.draft.recipients ++ t.recipients}} := by
  obtain ⟨hsender, hrecipients⟩ := List.forall_mem_cons.mp h.addresses
  obtain ⟨hmail, hlines⟩ := List.forall_mem_cons.mp h.commandLimit
  have hrcpts : ∀ line ∈ t.recipients.map rcptLine, (wireLine line).length ≤ 512 :=
    fun line hmem => hlines line (List.mem_append_left _ hmem)
  have hfirst := mail hready hsender.1 hsender.2 hmail
  have hnext := rcpts (s := {s with phase := .sender, draft := s.draft.setSender t.sender})
    h.recipients rfl hrecipients hrcpts
  exact hfirst.append (hnext.append (startInput rfl))

theorem length_wire_data (t : Transaction) :
    (wire t.data).length = (wire (headerLines t.fields)).length +
      (lineSize [] + ((wire (t.lines.map stuff)).length + lineSize ['.'])) := by
  simp only [Transaction.data, wire_append, wire_cons, wire_nil, List.length_append,
    length_wireLine, List.length_nil, Nat.add_zero]

theorem data (hphase : s.phase = .headers) {t : Transaction} (h : t.Sendable s.sizeLimit)
    (hreceived : s.received = 0) :
    Exchange s t.data
      (.delivered {s.draft with
        fields := addFields t.fields s.draft.fields
        linesBack := t.lines.reverse ++ s.draft.linesBack} :: (Answer.ok .quit).acts)
      {s.discard with phase := .quit} := by
  have hheader : ∀ line ∈ headerLines t.fields, (wireLine line).length ≤ 1000 :=
    fun line hmem => h.dataLimit line (List.mem_append_left _ hmem)
  have hbody : ∀ line ∈ t.lines.map stuff, (wireLine line).length ≤ 1000 :=
    fun line hmem => h.dataLimit line
      (List.mem_append_right _ (List.mem_cons_of_mem _ (List.mem_append_left _ hmem)))
  -- the size limit, up to each part of the data
  have hsize := h.sizeLimit
  rw [length_wire_data] at hsize
  have hsizeHeader : s.received + (wire (headerLines t.fields)).length ≤ s.sizeLimit := by omega
  have hsizeEmpty : s.received + (wire (headerLines t.fields)).length + lineSize [] ≤
      s.sizeLimit := by omega
  have hsizeBody : s.received + (wire (headerLines t.fields)).length + lineSize [] +
      (wire (t.lines.map stuff)).length ≤ s.sizeLimit := by omega
  have hsizeDot : s.received + (wire (headerLines t.fields)).length + lineSize [] +
      (wire (t.lines.map stuff)).length + lineSize ['.'] ≤ s.sizeLimit := by omega
  obtain ⟨lastField, hfields⟩ := fields hphase h.names h.values hheader hsizeHeader
  have hempty := hfields.append (emptyLine hphase hsizeEmpty)
  have hlines := hempty.append (bodyLines rfl h.lines hbody hsizeBody)
  have hdot := hlines.append (dot rfl hsizeDot)
  rw [List.append_assoc, List.append_assoc] at hdot
  exact hdot

theorem transaction (hready : phase.isReady = true) {t : Transaction} (h : t.Sendable sizeLimit) :
    Exchange (between hostname sizeLimit phase) t.sent t.acts
      (between hostname sizeLimit .quit) := by
  have hmessage : { t.message with linesBack := t.lines.reverse ++ [] } = t.message := by
    rw [List.append_nil]
    rfl
  have henvelope := envelope (s := between hostname sizeLimit phase) hready h
  rw [sent, acts, ← hmessage, ← List.append_assoc, ← List.append_assoc,
    List.append_assoc (Answer.ok .sender).acts]
  exact henvelope.append (data rfl h rfl)

theorem transactions (hready : phase.isReady = true) {ts : List Transaction}
    (h : ∀ t ∈ ts, t.Sendable sizeLimit) :
    Exchange (between hostname sizeLimit phase) (ts.flatMap sent) (ts.flatMap acts)
      (between hostname sizeLimit (if ts = [] then phase else .quit)) := by
  induction ts generalizing phase with
  | nil => exact .nil
  | cons t rest ih =>
    obtain ⟨ht, hrest⟩ := List.forall_mem_cons.mp h
    have hfirst : Exchange (between hostname sizeLimit phase) t.sent t.acts _ :=
      transaction hready ht
    have hmore := hfirst.append (ih rfl hrest)
    rw [if_neg (List.cons_ne_nil t rest)]
    rwa [ite_self] at hmore

/-! ### Goodbye -/

/-- What a client is told that says QUIT after some transactions. -/
def farewell (hostname : Text) (transactions : List Transaction) : Answer :=
  if transactions = [] then .badSequence "QUIT".toList .greet else .closing hostname

theorem goodbye (ts : List Transaction) :
    Exchange (between hostname sizeLimit (if ts = [] then .greet else .quit)) ["QUIT".toList]
      (farewell hostname ts).acts (between hostname sizeLimit (farewell hostname ts).next) := by
  have hparse : parseCommand "QUIT".toList = .quit := by decide
  by_cases hts : ts = []
  · rw [farewell, if_pos hts, if_pos hts]
    exact command rfl hparse (by decide) (by decide) rfl
  · rw [farewell, if_neg hts, if_neg hts]
    exact command rfl hparse (by decide) (by decide) rfl

end Exchange

/-! ### Whole transmissions -/

/-- The bytes of some transactions and of a goodbye. -/
def transmission (transactions : List Transaction) : Bytes :=
  wire (transactions.flatMap Transaction.sent ++ ["QUIT".toList])

/-- All that the client hears. -/
def answers (hostname : Text) (transactions : List Transaction) : List Answer :=
  .greeting hostname ::
    (transactions.flatMap Transaction.answers ++ [Exchange.farewell hostname transactions])

/-- The codes of it. -/
def codes (transactions : List Transaction) : List Nat :=
  220 :: (transactions.flatMap (fun t => 250 :: (t.recipients.map (fun _ => 250) ++ [354, 250])) ++
    [if transactions = [] then 503 else 221])

theorem codes_answers (hostname : Text) (transactions : List Transaction) :
    (answers hostname transactions).filterMap Answer.code? = codes transactions := by
  have htransaction (t : Transaction) : t.answers.filterMap Answer.code? =
      250 :: (t.recipients.map (fun _ => 250) ++ [354, 250]) := by
    show 250 :: List.filterMap Answer.code? (_ ++ _) = _
    rw [List.filterMap_append, List.filterMap_map]
    congr 2
    exact congrFun List.filterMap_eq_map t.recipients
  have hfarewell : [Exchange.farewell hostname transactions].filterMap Answer.code? =
      [if transactions = [] then 503 else 221] := by
    unfold Exchange.farewell
    split <;> rfl
  show 220 :: List.filterMap Answer.code? (_ ++ _) = _
  rw [List.filterMap_append, hfarewell, List.filterMap_flatMap, funext htransaction]
  rfl

/-- An answer as it goes over the wire. -/
def Answer.bytes (a : Answer) : Bytes := a.reply.toList.flatMap fun reply => Text.encode reply.line

/-- The bytes of what was written. -/
def Act.bytes : Act → Bytes
  | .wrote bytes => bytes
  | _ => []

/-- The message delivered, if it was that. -/
def Act.message? : Act → Option Message
  | .delivered m => some m
  | _ => none

theorem bytes_acts (a : Answer) : a.acts.flatMap Act.bytes = a.bytes := by
  rw [Answer.acts, List.flatMap_map]
  rfl

theorem message?_acts (a : Answer) : a.acts.filterMap Act.message? = [] := by
  rw [Answer.acts, List.filterMap_map]
  exact List.filterMap_eq_nil_iff.mpr fun _ _ => rfl

theorem bytes_transaction (t : Transaction) :
    t.acts.flatMap Act.bytes = t.answers.flatMap Answer.bytes := by
  simp only [Transaction.acts, Transaction.answers, List.flatMap_append, List.flatMap_cons,
    List.flatMap_nil, List.flatMap_assoc, List.flatMap_map, bytes_acts, Act.bytes,
    List.nil_append, List.append_nil]

theorem message?_transaction (t : Transaction) : t.acts.filterMap Act.message? = [t.message] := by
  simp [Transaction.acts, message?_acts, List.filterMap_flatMap, Act.message?]

/-- All that is done about it. -/
def transmissionActs (hostname : Text) (transactions : List Transaction) : List Act :=
  (Answer.greeting hostname).acts ++ (transactions.flatMap Transaction.acts ++
    (Exchange.farewell hostname transactions).acts)

theorem bytes_transmission (hostname : Text) (transactions : List Transaction) :
    (transmissionActs hostname transactions).flatMap Act.bytes =
      (answers hostname transactions).flatMap Answer.bytes := by
  rw [transmissionActs, answers, List.flatMap_append, List.flatMap_append, List.flatMap_cons,
    List.flatMap_append, List.flatMap_singleton, List.flatMap_assoc, List.flatMap_assoc,
    bytes_acts, bytes_acts, funext bytes_transaction]

theorem message?_transmission (hostname : Text) (transactions : List Transaction) :
    (transmissionActs hostname transactions).filterMap Act.message? =
      transactions.map Transaction.message := by
  rw [transmissionActs, List.filterMap_append, List.filterMap_append, List.filterMap_flatMap,
    message?_acts, message?_acts, List.nil_append, List.append_nil, List.map_eq_flatMap,
    funext message?_transaction]

open Conversation in
/-- A conversation over a transmission does all that the transactions ask for, and nothing else. -/
theorem run_transmission {hostname : Text} {sizeLimit : Nat} {transactions : List Transaction}
    (h : ∀ t ∈ transactions, t.Sendable sizeLimit) {reads : List Bytes}
    (hcut : reads.flatten = transmission transactions) (delayed : Bool) :
    run { hostname, sizeLimit } (reads.map .bytes) .sound .down delayed =
      closed (.between hostname sizeLimit (Exchange.farewell hostname transactions).next) delayed
        (transmissionActs hostname transactions) := by
  have hready : Phase.greet.isReady = true := rfl
  have htransactions : Exchange (.between hostname sizeLimit .greet) _ _ _ :=
    Exchange.transactions hready h
  have hexchange := htransactions.append (Exchange.goodbye transactions)
  have hreceive := hexchange.receive delayed (Answer.greeting hostname).acts
  rw [run, start_eq_ready, receiveAll_bytes, hcut, ← close_ready, transmissionActs, ← hreceive]
  rfl

/-- **Messages sent are messages received.** Whatever the reads, a new session that is sent some
transactions and a goodbye answers with exactly the codes of `codes`, delivers exactly the messages
that were sent, in order, each once, and ends; unless there was no transaction, when the goodbye is
refused and the session waits for one. -/
theorem transmission_received (hostname : Text) (sizeLimit : Nat) (transactions : List Transaction)
    (h : ∀ t ∈ transactions, t.Sendable sizeLimit) (reads : List Bytes)
    (hcut : reads.flatten = transmission transactions) (delayed : Bool) :
    let c := Conversation.run { hostname, sizeLimit } (reads.map .bytes) .sound .down delayed
    (c.written = (answers hostname transactions).flatMap Answer.bytes ∧
      (answers hostname transactions).filterMap Answer.code? = codes transactions) ∧
      (c.deliveries = transactions.map Transaction.message ∧
        ∀ t ∈ transactions, t.message.body = Text.join '\n' t.lines) ∧
      c.failure? = none ∧
      c.session =
        { hostname, sizeLimit, phase := if transactions = [] then .greet else .connect } := by
  intro c
  have hclosed : c = Conversation.closed _ _ _ := run_transmission h hcut delayed
  have hhistory : c.history = transmissionActs hostname transactions := by
    rw [hclosed, Conversation.history_closed]
  refine ⟨⟨?_, codes_answers hostname transactions⟩,
    ⟨?_, fun t _ => Transaction.body_message t⟩, ?_, ?_⟩
  · show c.history.flatMap Act.bytes = _
    rw [hhistory, bytes_transmission]
  · show c.history.filterMap Act.message? = _
    rw [hhistory, message?_transmission]
  · rw [hclosed]
    rfl
  · rw [hclosed]
    show Session.between _ _ _ = _
    unfold Exchange.farewell
    split <;> rfl

/-- Without any transaction the goodbye is answered 503, not 221, and the session goes on. -/
theorem goodbye_refused :
    let c := Conversation.run { hostname := "localhost".toList } [.bytes (transmission [])] .sound
      .down false
    let refusal := Answer.badSequence "QUIT".toList .greet
    c.written = (Answer.greeting "localhost".toList).bytes ++ refusal.bytes ∧
      refusal.code? = some 503 ∧ c.session.phase = .greet ∧
        c.written ≠ (Answer.greeting "localhost".toList).bytes ++
          (Answer.closing "localhost".toList).bytes := by
  decide +kernel

/-- A message whose lines read like the end of the data, a goodbye, a fold and an empty line. -/
def lookalikes : Transaction where
  sender := []
  recipients := ["a".toList, "b".toList]
  fields := [(".".toList, "x".toList)]
  lines := [".".toList, "QUIT".toList, " x".toList, []]

theorem transmission_received_lookalikes :
    lookalikes.Sendable 100 ∧
      (Conversation.run { hostname := "mx".toList, sizeLimit := 100 }
        [.bytes (transmission [lookalikes, lookalikes])] .sound .down false).deliveries =
          [lookalikes.message, lookalikes.message] := by
  have hsendable : lookalikes.Sendable 100 := {
    recipients := by decide
    addresses := by decide
    names := by
      intro field hfield
      obtain rfl := List.mem_singleton.mp hfield
      exact ⟨⟨by decide, by decide, by decide⟩, by decide⟩
    values := by decide
    lines := by decide
    commandLimit := by decide
    dataLimit := by decide
    sizeLimit := by decide }
  have hall : ∀ t ∈ [lookalikes, lookalikes], t.Sendable 100 := by
    intro t ht
    have heq : t = lookalikes := by simpa using ht
    rw [heq]
    exact hsendable
  have h := transmission_received "mx".toList 100 [lookalikes, lookalikes] hall
    [transmission [lookalikes, lookalikes]] (List.append_nil _) false
  exact ⟨hsendable, h.2.1.1⟩

end MailCapture
