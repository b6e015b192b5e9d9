import MailCapture.Proofs.Wire.Undisturbed

/-! A connection read piece by piece.

`interpret` is what a session is meant to make of the bytes of a client: the greeting, and then one
step for each piece of them that ends in a newline, or in the end of input. It knows nothing of
reads, of a line half read or of passing over the rest of one. `run_eq_closed`: with nothing in the
way, a conversation does exactly that, in that order. -/
namespace MailCapture

/-! ### Pieces -/

/-- The piece up to and including the first newline, or all there is, and what is left. -/
def cutPiece : Bytes → Bytes × Bytes
  | [] => ([], [])
  | b :: rest => if b = 10 then ([b], rest) else (b :: (cutPiece rest).1, (cutPiece rest).2)

/-- Bytes before the first newline only make its piece longer. -/
theorem cutPiece_before {raw : Bytes} (hraw : 10 ∉ raw) (bytes : Bytes) :
    cutPiece (raw ++ bytes) = (raw ++ (cutPiece bytes).1, (cutPiece bytes).2) := by
  induction raw with
  | nil => rfl
  | cons b more ih =>
    rw [List.mem_cons, not_or] at hraw
    simp only [List.cons_append, cutPiece, if_neg (Ne.symm hraw.1), ih hraw.2]

theorem cutPiece_newline {raw : Bytes} (hraw : 10 ∉ raw) (rest : Bytes) :
    cutPiece (raw ++ 10 :: rest) = (raw ++ [10], rest) :=
  cutPiece_before hraw (10 :: rest)

theorem cutPiece_all {raw : Bytes} (hraw : 10 ∉ raw) : cutPiece raw = (raw, []) := by
  have h := cutPiece_before hraw []
  rwa [List.append_nil, show cutPiece [] = ([], []) from rfl, List.append_nil] at h

/-- Every string of bytes is cut in one of these two ways. -/
theorem newline_or_none (bytes : Bytes) :
    (∃ raw rest, 10 ∉ raw ∧ bytes = raw ++ 10 :: rest) ∨ 10 ∉ bytes := by
  by_cases h : 10 ∈ bytes
  · obtain ⟨raw, rest, hbytes, hraw⟩ := List.eq_append_cons_of_mem h
    exact .inl ⟨raw, rest, hraw, hbytes⟩
  · exact .inr h

theorem cutPiece_append (bytes : Bytes) : (cutPiece bytes).1 ++ (cutPiece bytes).2 = bytes := by
  rcases newline_or_none bytes with ⟨raw, rest, hraw, rfl⟩ | hraw
  · rw [cutPiece_newline hraw]
    exact List.append_assoc ..
  · rw [cutPiece_all hraw]
    exact List.append_nil _

theorem cutPiece_ne_nil {bytes : Bytes} (h : bytes ≠ []) : (cutPiece bytes).1 ≠ [] := by
  rcases newline_or_none bytes with ⟨raw, rest, hraw, rfl⟩ | hraw
  · rw [cutPiece_newline hraw]
    exact List.append_ne_nil_of_right_ne_nil raw (List.cons_ne_nil 10 [])
  · rwa [cutPiece_all hraw]

theorem length_cutPiece {bytes : Bytes} (h : bytes ≠ []) :
    (cutPiece bytes).2.length < bytes.length := by
  have hlength := congrArg List.length (cutPiece_append bytes)
  have hpos := List.length_pos_iff.mpr (cutPiece_ne_nil h)
  rw [List.length_append] at hlength
  omega

/-- A piece with its newline may have as many bytes as the limit, and one without must have fewer:
at the limit nothing tells it from the start of a longer one. -/
def pieceFits (limit : Nat) (piece : Bytes) : Bool :=
  if piece.getLast? = some 10 then piece.length ≤ limit else piece.length < limit

/-- Without one byte, if it is the last. -/
def chop (b : UInt8) (bytes : Bytes) : Bytes :=
  if bytes.getLast? = some b then bytes.dropLast else bytes

/-- The text of a piece, without its line end. -/
def pieceText (piece : Bytes) : Text := Text.decode (chop 13 (chop 10 piece))

theorem getLast?_ne_newline {raw : Bytes} (hraw : 10 ∉ raw) : raw.getLast? ≠ some 10 :=
  fun h => hraw (List.mem_of_getLast? h)

theorem pieceText_newline (raw : Bytes) :
    pieceText (raw ++ [10]) = Conversation.lineText raw := by
  simp [pieceText, chop, Conversation.lineText]

theorem pieceText_all {raw : Bytes} (hraw : 10 ∉ raw) :
    pieceText raw = Conversation.lineText raw := by
  simp [pieceText, chop, Conversation.lineText, getLast?_ne_newline hraw]

theorem pieceFits_newline (limit : Nat) (raw : Bytes) :
    pieceFits limit (raw ++ [10]) = decide (raw.length < limit) := by
  rw [pieceFits, if_pos List.getLast?_concat, List.length_append]
  rfl

theorem pieceFits_all (limit : Nat) {raw : Bytes} (hraw : 10 ∉ raw) :
    pieceFits limit raw = decide (raw.length < limit) := by
  simp [pieceFits, getLast?_ne_newline hraw]

/-! ### The interpreter -/

/-- What comes of a conversation: the session it leaves, and what it did, in order. -/
structure Course where
  session : Session
  acts : List Act := []
deriving DecidableEq, Repr

namespace Course

/-- The same with something done first. -/
def behind (done : List Act) (o : Course) : Course := {o with acts := done ++ o.acts}

def written (o : Course) : Bytes :=
  o.acts.flatMap fun
    | .wrote bytes => bytes
    | _ => []

def deliveries (o : Course) : List Message :=
  o.acts.filterMap fun
    | .delivered m => some m
    | _ => none

end Course

/-- The pieces of the bytes in turn, until they are used up or the dialogue is over. -/
def interpretFrom (s : Session) (bytes : Bytes) : Course :=
  if _ : s.phase = .connect ∨ bytes = [] then { session := s }
  else
    let piece := (cutPiece bytes).1
    let rest := (cutPiece bytes).2
    if pieceFits s.phase.lineLimit piece then
      let turn := s.accept (pieceText piece)
      (interpretFrom turn.session rest).behind turn.acts
    else if s.phase.isData then { session := s.breakOff, acts := Act.refusal .connect }
    else (interpretFrom s rest).behind (Act.refusal s.phase)
termination_by bytes.length
decreasing_by all_goals exact length_cutPiece (not_or.mp ‹_›).2

/-- The greeting, and then the pieces. -/
def interpret (s : Session) (bytes : Bytes) : Course :=
  (interpretFrom s.greet.session bytes).behind s.greet.acts

/-! ### What the interpreter meets -/

/-- The ways the interpreter goes on, by the line that comes next and whether its bytes before the
newline stay below the limit. -/
inductive Interprets : Session → Bytes → Course → Prop
  | ended {s bytes} (h : s.phase = .connect ∨ bytes = []) : Interprets s bytes { session := s }
  | line {s raw rest o} (going : s.phase ≠ .connect) (newline : 10 ∉ raw)
      (fits : raw.length < s.phase.lineLimit)
      (next : Interprets (s.accept (Conversation.lineText raw)).session rest o) :
      Interprets s (raw ++ 10 :: rest) (o.behind (s.accept (Conversation.lineText raw)).acts)
  | lastLine {s raw} (going : s.phase ≠ .connect) (newline : 10 ∉ raw) (nonempty : raw ≠ [])
      (fits : raw.length < s.phase.lineLimit) :
      Interprets s raw
        ⟨(s.accept (Conversation.lineText raw)).session,
          (s.accept (Conversation.lineText raw)).acts⟩
  | longData {s raw rest} (data : s.phase.isData = true) (newline : 10 ∉ raw)
      (long : s.phase.lineLimit ≤ raw.length) :
      Interprets s (raw ++ rest) ⟨s.breakOff, Act.refusal .connect⟩
  | longCommand {s raw rest o} (going : s.phase ≠ .connect) (command : s.phase.isData = false)
      (newline : 10 ∉ raw) (long : s.phase.lineLimit ≤ raw.length)
      (next : Interprets s rest o) :
      Interprets s (raw ++ 10 :: rest) (o.behind (Act.refusal s.phase))
  | lastLongCommand {s raw} (going : s.phase ≠ .connect) (command : s.phase.isData = false)
      (newline : 10 ∉ raw) (long : s.phase.lineLimit ≤ raw.length) :
      Interprets s raw ⟨s, Act.refusal s.phase⟩

theorem interprets_interpretFrom (s : Session) (bytes : Bytes) :
    Interprets s bytes (interpretFrom s bytes) := by
  induction s, bytes using interpretFrom.induct with
  | case1 s bytes h =>
    rw [interpretFrom, dif_pos h]
    exact .ended h
  | case2 s bytes h piece rest hfits turn ih =>
    rw [interpretFrom, dif_neg h]
    obtain ⟨going, hne⟩ := not_or.mp h
    simp only [piece, rest, turn] at hfits ih
    rcases newline_or_none bytes with ⟨raw, left, newline, rfl⟩ | newline
    · rw [cutPiece_newline newline] at hfits ih ⊢
      rw [pieceText_newline] at ih
      simp only [hfits, if_true, pieceText_newline]
      rw [pieceFits_newline, decide_eq_true_eq] at hfits
      exact .line going newline hfits ih
    · rw [cutPiece_all newline] at hfits ⊢
      simp only [hfits, if_true, pieceText_all newline]
      rw [pieceFits_all _ newline, decide_eq_true_eq] at hfits
      rw [interpretFrom, dif_pos (.inr rfl)]
      simpa [Course.behind] using Interprets.lastLine going newline hne hfits
  | case3 s bytes h piece hfits hdata =>
    rw [interpretFrom, dif_neg h]
    simp only [piece] at hfits
    simp only [hfits, hdata, if_true, Bool.false_eq_true, if_false]
    rcases newline_or_none bytes with ⟨raw, left, newline, rfl⟩ | newline
    · rw [cutPiece_newline newline, pieceFits_newline, decide_eq_true_eq, Nat.not_lt] at hfits
      exact .longData hdata newline hfits
    · rw [cutPiece_all newline, pieceFits_all _ newline, decide_eq_true_eq, Nat.not_lt] at hfits
      rw [← List.append_nil bytes]
      exact .longData hdata newline hfits
  | case4 s bytes h piece rest hfits hdata ih =>
    rw [interpretFrom, dif_neg h]
    have going := (not_or.mp h).1
    have command := Bool.eq_false_iff.mpr hdata
    simp only [piece, rest] at hfits ih
    simp only [hfits, hdata, Bool.false_eq_true, if_false]
    rcases newline_or_none bytes with ⟨raw, left, newline, rfl⟩ | newline
    · rw [cutPiece_newline newline] at hfits ih ⊢
      rw [pieceFits_newline, decide_eq_true_eq, Nat.not_lt] at hfits
      exact .longCommand going command newline hfits ih
    · rw [cutPiece_all newline] at hfits ⊢
      rw [pieceFits_all _ newline, decide_eq_true_eq, Nat.not_lt] at hfits
      rw [interpretFrom, dif_pos (.inr rfl)]
      simpa [Course.behind] using Interprets.lastLongCommand going command newline hfits

/-! ### Agreement -/

namespace Conversation

/-- A conversation ready for a line does with the bytes to come what the interpreter does. -/
theorem close_receive {s : Session} {bytes : Bytes} {o : Course} (h : Interprets s bytes o)
    (delayed : Bool) (done : List Act) :
    ((ready s delayed done).receive (.bytes bytes)).close =
      closed o.session delayed (done ++ o.acts) := by
  induction h generalizing done with
  | ended h =>
    rw [List.append_nil]
    rcases h with hs | rfl
    · rw [receive_ready_ended hs, close_ready]
    · exact close_ready
  | line going newline fits next ih =>
    rw [List.append_cons, receive_bytes_append, hear_line delayed done newline going fits, ih,
      List.append_assoc]
    rfl
  | lastLine going newline nonempty fits => exact close_part newline nonempty going fits
  | longData data newline long => rw [hear_longData newline data long, close_ready]
  | longCommand going command newline long next ih =>
    rw [List.append_cons, receive_bytes_append, hear_longCommand newline going command long, ih,
      List.append_assoc]
    rfl
  | lastLongCommand going command newline long => exact close_longPart newline going command long

/-- With nothing in the way, a conversation is what the interpreter makes of its bytes. -/
theorem run_eq_closed (s : Session) (reads : List Bytes) (delayed : Bool) :
    run s (reads.map .bytes) .sound .down delayed =
      closed (interpret s reads.flatten).session delayed (interpret s reads.flatten).acts := by
  rw [run, start_eq_ready, receiveAll_bytes, close_receive (interprets_interpretFrom ..)]
  rfl

end Conversation

/-- There is only one way to go on. -/
theorem Interprets.unique {s : Session} {bytes : Bytes} {o : Course} (h : Interprets s bytes o) :
    o = interpretFrom s bytes := by
  have hclosed := (Conversation.close_receive h false []).symm.trans
    (Conversation.close_receive (interprets_interpretFrom s bytes) false [])
  have hsession := congrArg Conversation.session hclosed
  have hhistory := congrArg Conversation.history hclosed
  obtain ⟨session, acts⟩ := o
  obtain rfl : session = (interpretFrom s bytes).session := hsession
  obtain rfl : acts = (interpretFrom s bytes).acts := by simpa using hhistory
  rfl

end MailCapture
