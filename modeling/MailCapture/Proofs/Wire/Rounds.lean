import MailCapture.Proofs.Session.Transcript
import MailCapture.Proofs.Wire.Pieces
import MailCapture.Proofs.Wire.Transmission

/-! The rounds of a conversation.

Where nothing disturbs it a conversation goes in rounds: the greeting, and then one round for each
piece that the interpreter cuts off the bytes. A round takes in a line, if its piece fits, and does
what the session's turn says, the delivery before the reply. `history_run`: the rounds in order are
all that is done. `endsMessage_iff`: the rounds that deliver are those that take in the dot at the
end of a message. -/
namespace MailCapture

/-- What a session makes of a line that does not fit. -/
def Session.overrun (s : Session) : Turn :=
  let next := if s.phase.isData then s.breakOff else s
  { session := next, answer := .lineTooLong next.phase, notices := [.lineTooLong] }

/-- What a turn does before it answers. -/
def Turn.quiet (t : Turn) : List Act :=
  t.notices.map .noticed ++ t.delivered.toList.map .delivered

theorem Turn.bytes_quiet (t : Turn) : t.quiet.flatMap Act.bytes = [] := by
  refine List.flatMap_eq_nil_iff.mpr fun act hact => ?_
  simp only [quiet, List.mem_append, List.mem_map] at hact
  rcases hact with ⟨_, -, rfl⟩ | ⟨_, -, rfl⟩ <;> rfl

theorem Turn.message?_quiet (t : Turn) : t.quiet.filterMap Act.message? = t.delivered.toList := by
  obtain ⟨_, _, delivered, _⟩ := t
  cases delivered <;> simp [quiet, List.filterMap_map, Act.message?]

structure Round where
  /-- The session it begins with. -/
  session : Session
  /-- The line taken in, if there is one that fits. -/
  line : Option Text
  turn : Turn
deriving DecidableEq, Repr

namespace Round

/-- The dot that ends a message comes in, and the message is within its size. -/
def EndsMessage (r : Round) : Prop :=
  r.session.phase.isData = true ∧ r.line = some ['.'] ∧ r.session.Fits ['.']

def ofPiece (s : Session) (piece : Bytes) : Round :=
  if pieceFits s.phase.lineLimit piece then
    { session := s, line := some (pieceText piece), turn := s.accept (pieceText piece) }
  else { session := s, line := none, turn := s.overrun }

/-- The rounds that some bytes make, until they are used up or the dialogue is over. -/
def listFrom (s : Session) (bytes : Bytes) : List Round :=
  if _ : s.phase = .connect ∨ bytes = [] then []
  else
    let round := ofPiece s (cutPiece bytes).1
    round :: listFrom round.turn.session (cutPiece bytes).2
termination_by bytes.length
decreasing_by exact length_cutPiece (not_or.mp ‹_›).2

/-- The greeting, and then the pieces. -/
def list (s : Session) (bytes : Bytes) : List Round :=
  { session := s, line := none, turn := s.greet } :: listFrom s.greet.session bytes

/-- What is written in some rounds. -/
def written (rounds : List Round) : Bytes := rounds.flatMap (·.turn.answer.bytes)

/-- What is delivered in some rounds. -/
def deliveries (rounds : List Round) : List Message := rounds.filterMap (·.turn.delivered)

/-- Everything done in some rounds. -/
def history (rounds : List Round) : List Act := rounds.flatMap (·.turn.acts)

/-! ### What is done in rounds -/

theorem history_append (a b : List Round) : history (a ++ b) = history a ++ history b :=
  List.flatMap_append

theorem deliveries_append (a b : List Round) :
    deliveries (a ++ b) = deliveries a ++ deliveries b := List.filterMap_append

theorem deliveries_singleton (r : Round) : deliveries [r] = r.turn.delivered.toList := by
  cases hdelivered : r.turn.delivered <;> simp [deliveries, hdelivered]

theorem written_history (rounds : List Round) :
    (history rounds).flatMap Act.bytes = written rounds := by
  rw [history, List.flatMap_assoc]
  congr 1
  funext r
  show (r.turn.quiet ++ r.turn.answer.acts).flatMap Act.bytes = _
  rw [List.flatMap_append, Turn.bytes_quiet, bytes_acts, List.nil_append]

theorem deliveries_history (rounds : List Round) :
    (history rounds).filterMap Act.message? = deliveries rounds := by
  induction rounds with
  | nil => rfl
  | cons r rest ih =>
    show (r.turn.quiet ++ r.turn.answer.acts ++ history rest).filterMap Act.message? = _
    rw [List.filterMap_append, List.filterMap_append, Turn.message?_quiet, message?_acts, ih,
      List.append_nil, ← List.singleton_append, deliveries_append, deliveries_singleton]

/-- A round up to its reply has written nothing, and delivered all it has to deliver. -/
theorem written_quiet (before : List Round) (r : Round) :
    (history before ++ r.turn.quiet).flatMap Act.bytes = written before := by
  rw [List.flatMap_append, written_history, Turn.bytes_quiet, List.append_nil]

theorem deliveries_quiet (before : List Round) (r : Round) :
    (history before ++ r.turn.quiet).filterMap Act.message? = deliveries (before ++ [r]) := by
  rw [List.filterMap_append, deliveries_history, Turn.message?_quiet, deliveries_append,
    deliveries_singleton]

theorem history_listFrom (s : Session) (bytes : Bytes) :
    history (listFrom s bytes) = (interpretFrom s bytes).acts := by
  induction s, bytes using interpretFrom.induct with
  | case1 s bytes h =>
    rw [listFrom, interpretFrom, dif_pos h, dif_pos h]
    rfl
  | case2 s bytes h piece rest hfits turn ih =>
    rw [listFrom, interpretFrom, dif_neg h, dif_neg h]
    simp only [piece] at hfits
    simp only [ofPiece, hfits, if_true]
    exact congrArg (turn.acts ++ ·) ih
  | case3 s bytes h piece hfits hdata =>
    rw [listFrom, interpretFrom, dif_neg h, dif_neg h]
    simp only [piece] at hfits
    simp only [ofPiece, hfits, hdata, Session.overrun, if_true, Bool.false_eq_true, if_false]
    -- the dialogue is over: no round follows
    rw [listFrom, dif_pos (.inl rfl)]
    rfl
  | case4 s bytes h piece rest hfits hdata ih =>
    rw [listFrom, interpretFrom, dif_neg h, dif_neg h]
    simp only [piece] at hfits
    simp only [ofPiece, hfits, hdata, Session.overrun, Bool.false_eq_true, if_false]
    exact congrArg (Act.refusal s.phase ++ ·) ih

/-- With nothing in the way, a conversation goes through its rounds. -/
theorem history_run (s : Session) (reads : List Bytes) (delayed : Bool) :
    (Conversation.run s (reads.map .bytes) .sound .down delayed).history =
      history (list s reads.flatten) := by
  rw [Conversation.run_eq_closed, Conversation.history_closed]
  exact congrArg (s.greet.acts ++ ·) (history_listFrom s.greet.session reads.flatten).symm

/-! ### Which rounds deliver -/

/-- A round that takes in a line does with it what the session does, and no other delivers. -/
def Takes (r : Round) : Prop :=
  match r.line with
  | some line => r.turn = r.session.accept line
  | none => r.turn.delivered = none

theorem takes_ofPiece (s : Session) (piece : Bytes) : (ofPiece s piece).Takes := by
  unfold ofPiece
  split <;> rfl

theorem takes_listFrom (s : Session) (bytes : Bytes) : ∀ r ∈ listFrom s bytes, r.Takes := by
  induction s, bytes using listFrom.induct with
  | case1 s bytes h =>
    rw [listFrom, dif_pos h]
    exact fun r hr => absurd hr List.not_mem_nil
  | case2 s bytes h round ih =>
    rw [listFrom, dif_neg h]
    intro r hr
    rcases List.mem_cons.mp hr with rfl | hr
    · exact takes_ofPiece s _
    · exact ih r hr

theorem takes_list {s : Session} {bytes : Bytes} {r : Round} (hr : r ∈ list s bytes) :
    r.Takes := by
  rcases List.mem_cons.mp hr with rfl | hr
  · exact s.delivered_greet
  · exact takes_listFrom _ _ r hr

variable {r : Round}

/-- The rounds that end a message are those that deliver one. -/
theorem Takes.endsMessage_iff (h : r.Takes) :
    r.EndsMessage ↔ r.turn.delivered.isSome = true := by
  obtain ⟨session, line, turn⟩ := r
  cases line with
  | none =>
    have hnone : turn.delivered = none := h
    simp [EndsMessage, hnone]
  | some line =>
    obtain rfl : turn = session.accept line := h
    rw [Session.isSome_delivered]
    refine and_congr_right fun _ => ?_
    constructor
    · rintro ⟨hline, hfits⟩
      obtain rfl := Option.some.inj hline
      exact ⟨rfl, hfits⟩
    · rintro ⟨rfl, hfits⟩
      exact ⟨rfl, hfits⟩

/-- They are answered 250. -/
theorem Takes.answer (h : r.Takes) (hends : r.EndsMessage) : r.turn.answer = .ok .quit := by
  obtain ⟨session, line, turn⟩ := r
  obtain ⟨hdata, rfl, hfits⟩ := hends
  obtain rfl : turn = session.accept ['.'] := h
  rw [Session.accept_dot hdata hfits]

end Round
end MailCapture
