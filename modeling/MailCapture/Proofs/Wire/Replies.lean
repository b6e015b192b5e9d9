import MailCapture.Proofs.Text.AsciiBytes
import MailCapture.Proofs.Text.Trimming
import MailCapture.Proofs.Wire.Law
import MailCapture.Proofs.Wire.Lines

/-! Replies and lines in step.

A reply may repeat what the client said, the domain of its HELO or a word that is no command. Both
are parts of one line (`mem_of_mem_quote`), a line has no newline, and so neither has the reply:
every reply is one reply line (`isReplyLine_bytes`). Each piece that a client sends is answered by
one of them, and content of a message by none (`replies_run`); a client that counts its lines knows
which reply belongs to which. -/
namespace MailCapture

/-! ### Reply lines -/

/-- Three digits, a space, and a text that a carriage return and a newline end. -/
def IsReplyLine (bytes : Bytes) : Prop :=
  ∃ digits text, bytes = Text.encode (digits ++ ' ' :: text ++ ['\r', '\n']) ∧
    digits.length = 3 ∧ digits.all Char.isDigit = true ∧ '\n' ∉ text

theorem IsReplyLine.count {bytes : Bytes} (h : IsReplyLine bytes) : bytes.count 10 = 1 := by
  obtain ⟨digits, text, rfl, -, hdigits, htext⟩ := h
  have hnone {t : Text} (ht : '\n' ∉ t) : (Text.encode t).count 10 = 0 :=
    List.count_eq_zero.mpr (Text.notMem_encode (by decide) ht)
  have hnumber : '\n' ∉ digits := by
    intro hmem
    exact absurd (List.all_eq_true.mp hdigits '\n' hmem) (by decide)
  have hspace : '\n' ∉ ' ' :: text := List.not_mem_cons_of_ne_of_not_mem (by decide) htext
  rw [Text.encode_append, Text.encode_append, List.count_append, List.count_append, hnone hnumber,
    hnone hspace]
  rfl

namespace Answer

/-- The codes of all replies. -/
def replyCodes : List Nat := [220, 250, 354, 221, 211, 252, 500, 501, 503, 552]

theorem decimal_replyCodes : ∀ code ∈ replyCodes,
    (Text.decimal code).length = 3 ∧ (Text.decimal code).all Char.isDigit = true := by
  decide

/-- It says something, with a code of the list and on one line. -/
def IsSaid (a : Answer) : Prop :=
  ∃ code ∈ replyCodes, ∃ text, a.reply = some ⟨code, text⟩ ∧ '\n' ∉ text

theorem IsSaid.saying {code : Nat} (hcode : code ∈ replyCodes) {text : Text} (htext : '\n' ∉ text)
    (next : Phase) : (saying code text next).IsSaid :=
  ⟨code, hcode, text, rfl, htext⟩

theorem isReplyLine_bytes {a : Answer} (h : a.IsSaid) : IsReplyLine a.bytes := by
  obtain ⟨code, hcode, text, hreply, htext⟩ := h
  obtain ⟨hlength, hdigits⟩ := decimal_replyCodes code hcode
  refine ⟨Text.decimal code, text, ?_, hlength, hdigits, htext⟩
  rw [bytes, hreply]
  exact List.append_nil _

section
variable {hostname domain verb : Text} (hhost : '\n' ∉ hostname) (next : Phase)
include hhost

theorem isSaid_greeting : (greeting hostname).IsSaid :=
  .saying (by decide) (List.mem_append.not.mpr (not_or.mpr ⟨hhost, by decide⟩)) _

theorem isSaid_closing : (closing hostname).IsSaid :=
  .saying (by decide) (List.mem_append.not.mpr (not_or.mpr ⟨hhost, by decide⟩)) _

theorem isSaid_hello (hdomain : '\n' ∉ domain) : (hello hostname domain).IsSaid := by
  refine .saying (by decide) ?_ _
  rw [List.mem_append, List.mem_append, not_or, not_or]
  exact ⟨⟨hhost, by decide⟩, hdomain⟩

end

theorem isSaid_badSequence {verb : Text} (hverb : '\n' ∉ verb) (next : Phase) :
    (badSequence verb next).IsSaid :=
  .saying (by decide) (List.mem_append.not.mpr (not_or.mpr ⟨by decide, hverb⟩)) _

end Answer

/-! ### What a reply repeats -/

namespace Command

/-- The part of a command that a reply may repeat. -/
def quote : Command → Text
  | hello domain => domain
  | unknown verb => verb
  | _ => []

theorem quote_of_ite {p : Prop} [Decidable p] {argument : Text} {c d : Command}
    {rest : Option Command} (hd : d.quote = [] ∨ d.quote = argument)
    (hrest : rest = some c → c.quote = [] ∨ c.quote = argument)
    (h : (if p then some d else rest) = some c) : c.quote = [] ∨ c.quote = argument := by
  split at h
  · obtain rfl := Option.some.inj h
    exact hd
  · exact hrest h

theorem quote_of_ofWord? {word argument : Text} {c : Command} (h : ofWord? word argument = some c) :
    c.quote = [] ∨ c.quote = argument := by
  unfold ofWord? at h
  refine quote_of_ite (.inr rfl) (fun h => ?_) h
  -- one `if` for each word
  repeat refine quote_of_ite (.inl rfl) (fun h => ?_) h
  cases h

theorem mem_of_mem_splitWord {c : Char} {t : Text}
    (h : c ∈ (Text.splitWord t).1 ∨ c ∈ (Text.splitWord t).2) : c ∈ t := by
  unfold Text.splitWord at h
  split at h
  · next word rest hsplit =>
    obtain ⟨blank, -, rfl, -⟩ := Text.splitFirst_eq_some hsplit
    rcases h with h | h
    · exact List.mem_append_left _ h
    · exact List.mem_append_right _ (List.mem_cons_of_mem _ (Text.mem_of_mem_trim h))
  · rcases h with h | h
    · exact h
    · cases h

/-- It repeats nothing that the client did not say. -/
theorem mem_of_mem_quote {c : Char} {line : Text} (h : c ∈ (parseCommand line).quote) :
    c ∈ line := by
  refine Text.mem_of_mem_trim (mem_of_mem_splitWord ?_)
  unfold parseCommand at h
  cases hword : ofWord? (Text.capitals (Text.splitWord (Text.trim line)).1)
      (Text.splitWord (Text.trim line)).2 with
  | none =>
    simp only [hword, Option.getD_none] at h
    exact .inl h
  | some command =>
    simp only [hword, Option.getD_some] at h
    rcases quote_of_ofWord? hword with hquote | hquote
    · rw [hquote] at h
      cases h
    · exact .inr (hquote ▸ h)

theorem newline_notMem_verb {c : Command} (h : '\n' ∉ c.quote) : '\n' ∉ c.verb := by
  cases c with
  | unknown verb => exact h
  | _ => exact of_decide_eq_true rfl

open Answer in
/-- A command is always answered. -/
theorem isSaid_answer {c : Command} (hspoken : c.isSpoken = true) (hquote : '\n' ∉ c.quote)
    {hostname : Text} (hhost : '\n' ∉ hostname) (phase : Phase) :
    (c.answer phase hostname).IsSaid := by
  have hrefused : (badSequence c.verb phase).IsSaid :=
    isSaid_badSequence (newline_notMem_verb hquote) phase
  have hite {p : Prop} [Decidable p] {a : Answer} (ha : a.IsSaid) :
      (if p then a else badSequence c.verb phase).IsSaid := by
    split
    · exact ha
    · exact hrefused
  have hfixed {p : Prop} [Decidable p] {code : Nat} {text : Text} {next : Phase}
      (hcode : code ∈ replyCodes) (htext : '\n' ∉ text) :
      (if p then saying code text next else badSequence c.verb phase).IsSaid :=
    hite (.saying hcode htext next)
  cases c with
  | connect | headerLine | emptyLine | bodyLine | endOfData => cases hspoken
  | hello domain => exact hite (isSaid_hello hhost hquote)
  | mail address => cases address <;> exact hfixed (by decide) (by decide)
  | rcpt address => cases address <;> exact hfixed (by decide) (by decide)
  | quit => exact hite (isSaid_closing hhost)
  | _ => exact hfixed (by decide) (by decide)

end Command

/-! ### Where the hostname stays -/

namespace Session

theorem hostname_record (s : Session) (c : Command) : (s.record c).1.hostname = s.hostname := by
  unfold record
  split <;> try rfl
  unfold draftHeader
  split <;> try rfl
  split <;> rfl

theorem hostname_perform (s : Session) (c : Command) :
    (s.perform c).session.hostname = s.hostname := by
  have hrecord := hostname_record {s with phase := (c.answer s.phase s.hostname).next} c
  unfold perform
  simp only
  split <;> exact hrecord

theorem hostname_accept (s : Session) (line : Text) :
    (s.accept line).session.hostname = s.hostname := by
  unfold accept
  split
  · simp only
    split
    · rfl
    · exact hostname_perform _ _
  · exact hostname_perform _ _

end Session

/-! ### Which pieces are answered -/

namespace Heard

/-- A line of message data that is neither too long, nor the dot at the end, nor the one that makes
the message too large. -/
def IsContent (h : Heard) : Prop :=
  h.session.phase.isData = true ∧ pieceFits h.session.phase.lineLimit h.piece = true ∧
    pieceText h.piece ≠ ['.'] ∧ h.session.Fits (pieceText h.piece)

instance (h : Heard) : Decidable h.IsContent :=
  inferInstanceAs (Decidable (_ ∧ _ ∧ _ ∧ _ ≤ h.session.sizeLimit))

variable {h : Heard}

theorem turn_fits (hfits : pieceFits h.session.phase.lineLimit h.piece = true) :
    h.turn = h.session.accept (pieceText h.piece) := by
  rw [turn, round, Round.ofPiece, if_pos hfits]

theorem turn_long (hfits : ¬pieceFits h.session.phase.lineLimit h.piece = true) :
    h.turn = h.session.overrun := by
  rw [turn, round, Round.ofPiece, if_neg hfits]

theorem dataTurn (hdata : h.session.phase.isData = true)
    (hfits : pieceFits h.session.phase.lineLimit h.piece = true) :
    h.session.DataTurn (pieceText h.piece) h.turn := by
  rw [turn_fits hfits]
  exact Session.dataTurn_accept hdata _

theorem hostname_turn (h : Heard) : h.turn.session.hostname = h.session.hostname := by
  by_cases hfits : pieceFits h.session.phase.lineLimit h.piece = true
  · rw [turn_fits hfits]
    exact h.session.hostname_accept _
  · rw [turn_long hfits, Session.overrun]
    simp only
    split <;> rfl

theorem reply_content (hcontent : h.IsContent) : h.reply = [] := by
  obtain ⟨hdata, hfits, hdot, hsize⟩ := hcontent
  have hturn := dataTurn hdata hfits
  rw [reply]
  generalize h.turn = t at hturn
  cases hturn with
  | tooMuch hexcess => exact absurd hsize hexcess
  | dot _ hisDot => exact absurd hisDot hdot
  | emptyLine | headerLine | bodyLine => rfl

/-- Everything else is answered. -/
theorem isSaid_turn (hcontent : ¬h.IsContent) (hhost : '\n' ∉ h.session.hostname)
    (hpiece : 10 ∉ chop 10 h.piece) : h.turn.answer.IsSaid := by
  by_cases hfits : pieceFits h.session.phase.lineLimit h.piece = true
  · by_cases hdata : h.session.phase.isData = true
    · have hturn := dataTurn hdata hfits
      generalize h.turn = t at hturn
      cases hturn with
      | tooMuch => exact .saying (by decide) (by decide) _
      | dot => exact .saying (by decide) (by decide) _
      | emptyLine hsize _ hempty =>
        have hdot : pieceText h.piece ≠ ['.'] := by
          rw [hempty]
          exact (List.cons_ne_nil _ _).symm
        exact absurd ⟨hdata, hfits, hdot, hsize⟩ hcontent
      | headerLine hsize _ hdot => exact absurd ⟨hdata, hfits, hdot, hsize⟩ hcontent
      | bodyLine hsize _ hdot => exact absurd ⟨hdata, hfits, hdot, hsize⟩ hcontent
    · have hline : '\n' ∉ pieceText h.piece := Conversation.newline_notMem_lineText hpiece
      rw [turn_fits hfits, Session.accept_command (Bool.eq_false_iff.mpr hdata),
        Session.answer_perform]
      exact Command.isSaid_answer (Command.isSpoken_parseCommand _)
        (fun hmem => hline (Command.mem_of_mem_quote hmem)) hhost _
  · rw [turn_long hfits]
    exact .saying (by decide) (by decide) _

/-- One newline for each piece that is answered. -/
theorem count_replies {heard : List Heard}
    (hreplies : ∀ h ∈ heard, if h.IsContent then h.reply = [] else IsReplyLine h.reply) :
    (heard.flatMap reply).count 10 = heard.countP fun h => ¬h.IsContent := by
  induction heard with
  | nil => rfl
  | cons h rest ih =>
    obtain ⟨hfirst, hrest⟩ := List.forall_mem_cons.mp hreplies
    rw [List.flatMap_cons, List.count_append, ih hrest, List.countP_cons]
    by_cases hcontent : h.IsContent
    · rw [if_pos hcontent] at hfirst
      simp [hcontent, hfirst]
    · rw [if_neg hcontent] at hfirst
      rw [hfirst.count]
      simp [hcontent, Nat.add_comm]

end Heard

open Heard in
/-- **Each line has its reply, and each reply its line.** Whatever a client sends, and in whatever
reads, what a conversation writes is the greeting and then the replies to the pieces of what was
sent, in order. The greeting is one reply line. So is the reply to a command, however long, to the
dot that ends a message, to an overlong line of message data and to the line that makes a message
too large; any other line of message data is not answered at all. The pieces are taken up from the
first to the last, unless the dialogue is over before, each in the session that the one before it
has left. And no reply has more than its one newline, so there are as many lines of replies as
pieces to answer, and the greeting. -/
theorem replies_run {s : Session} (hs : s.phase = .connect) (hhost : '\n' ∉ s.hostname)
    (reads : List Bytes) (delayed : Bool) :
    let c := Conversation.run s (reads.map .bytes) .sound .down delayed
    let sent := pieces reads.flatten
    let heard := listFrom s.greet.session sent
    c.written = s.greet.answer.bytes ++ heard.flatMap reply ∧
      IsReplyLine s.greet.answer.bytes ∧
      (∀ h ∈ heard, if h.IsContent then h.reply = [] else IsReplyLine h.reply) ∧
      (sent.flatten = reads.flatten ∧ heard.map piece <+: sent ∧
        (c.session.phase ≠ .connect → heard.map piece = sent)) ∧
      c.session = leave s.greet.session heard ∧
      c.written.count 10 = 1 + heard.countP fun h => ¬h.IsContent := by
  intro c sent heard
  have hgreet := Session.greet_connect hs
  have hgreeting : IsReplyLine s.greet.answer.bytes := by
    rw [hgreet]
    exact Answer.isReplyLine_bytes (Answer.isSaid_greeting hhost)
  have hreplies : ∀ h ∈ heard, if h.IsContent then h.reply = [] else IsReplyLine h.reply := by
    intro h hmem
    have hstart : '\n' ∉ s.greet.session.hostname := by
      rw [hgreet]
      exact hhost
    have hname : '\n' ∉ h.session.hostname :=
      kept_listFrom (fun s => '\n' ∉ s.hostname) (fun h hkept => by rwa [hostname_turn]) hstart h
        hmem
    have hpiece : h.piece ∈ sent :=
      (pieces_listFrom_isPrefix _ sent).subset (List.mem_map_of_mem hmem)
    split
    · next hcontent => exact reply_content hcontent
    · next hcontent =>
      exact Answer.isReplyLine_bytes (isSaid_turn hcontent hname (newline_notMem_chop hpiece))
  have hwritten : c.written = s.greet.answer.bytes ++ heard.flatMap reply :=
    written_run s reads delayed
  have hsession : c.session = leave s.greet.session heard := session_run s reads delayed
  refine ⟨hwritten, hgreeting, hreplies,
    ⟨flatten_pieces _, pieces_listFrom_isPrefix _ sent, fun hphase => ?_⟩, hsession, ?_⟩
  · rw [hsession] at hphase
    exact pieces_listFrom_eq hphase
  · rw [hwritten, List.count_append, hgreeting.count, count_replies hreplies]

/-- A domain that looks like a reply is repeated inside the one reply line it gets. -/
theorem replies_run_lookalike :
    let c := Conversation.run { hostname := "localhost".toList }
      ([Text.encode "HELO a\r250 OK\r\nDA".toList, Text.encode "TA\r\n".toList].map .bytes)
      .sound .down false
    c.written = Text.encode ("220 localhost SMTP service ready\r\n".toList ++
      "250 localhost Hello a\r250 OK\r\n".toList ++
      "503 Bad sequence of commands: DATA\r\n".toList) ∧
    c.written.count 10 = 3 := by
  have hs : ({ hostname := "localhost".toList } : Session).phase = .connect := rfl
  obtain ⟨hwritten, -, -, -, -, hcount⟩ := replies_run hs (by decide)
    [Text.encode "HELO a\r250 OK\r\nDA".toList, Text.encode "TA\r\n".toList] false
  exact ⟨hwritten.trans (by decide), hcount.trans (by decide)⟩

end MailCapture
