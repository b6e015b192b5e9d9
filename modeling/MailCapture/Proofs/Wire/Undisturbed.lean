import MailCapture.Wire.Conversation

/-! Conversations that nothing disturbs.

With an outlet that takes every byte and a stop signal that stays down, all there is to a
conversation between two lines is its session and what has been done: it is `ready`. A line that
fits takes it to where `accept` takes its session (`hear_line`); an overlong command leaves it where
it was (`hear_longCommand`), and an overlong line of message data ends it (`hear_longData`). -/
namespace MailCapture

theorem Phase.lineLimit_pos (phase : Phase) : 0 < phase.lineLimit := by
  unfold lineLimit
  split <;> decide

theorem Phase.ne_connect_of_isData {phase : Phase} (hdata : phase.isData = true) :
    phase ≠ .connect := by
  intro heq
  subst heq
  exact absurd hdata (by decide)

/-! ### What is done -/

/-- What an answer does to the world. -/
def Answer.acts (a : Answer) : List Act :=
  a.reply.toList.map fun reply => .wrote (Text.encode reply.line)

/-- What a step does to the world, in order. -/
def Turn.acts (t : Turn) : List Act :=
  t.notices.map .noticed ++ t.delivered.toList.map .delivered ++ t.answer.acts

/-- What an overlong line does to the world. -/
def Act.refusal (next : Phase) : List Act := .noticed .lineTooLong :: (Answer.lineTooLong next).acts

namespace Conversation

/-! ### Speaking -/

/-- Between two lines, or over, with all that has been done. -/
def ready (s : Session) (delayed : Bool) (done : List Act) : Conversation :=
  { session := s
    mode := if s.phase = .connect then .ended none else .reading s.phase.lineLimit []
    delayed
    acts := done.reverse }

/-- The same when the input has come to its end. -/
def closed (s : Session) (delayed : Bool) (done : List Act) : Conversation :=
  (ready s delayed done).finish none

structure Undisturbed (c : Conversation) : Prop where
  outlet : c.outlet = .sound
  stop : c.stop = .down

variable {c : Conversation}

theorem Undisturbed.await (h : c.Undisturbed) : c.await = ready c.session c.delayed c.history := by
  obtain ⟨session, mode, outlet, stop, delayed, acts⟩ := c
  obtain ⟨rfl, rfl⟩ := h
  unfold Conversation.await ready history
  simp only [StopSignal.look_down, List.reverse_reverse, Bool.false_eq_true, if_false]
  split <;> rfl

theorem Undisturbed.say (h : c.Undisturbed) (a : Answer) :
    c.say a = ready c.session c.delayed (c.history ++ a.acts) := by
  obtain ⟨reply, next⟩ := a
  cases reply with
  | none =>
    show c.await = _
    rw [h.await]
    simp [Answer.acts]
  | some reply =>
    have hlook : (if c.delayed then c.stop.look else (false, c.stop)) = (false, c.stop) := by
      rw [h.stop]
      split <;> rfl
    have hsay : c.say ⟨some reply, next⟩ =
        {c with acts := .wrote (Text.encode reply.line) :: c.acts}.await := by
      simp only [Conversation.say, hlook, Bool.false_eq_true, if_false, write, h.outlet,
        Outlet.write, Option.isSome_none]
    have h' : Undisturbed {c with acts := .wrote (Text.encode reply.line) :: c.acts} :=
      ⟨h.outlet, h.stop⟩
    rw [hsay, h'.await]
    simp [history, Answer.acts]

theorem Undisturbed.follow (h : c.Undisturbed) (t : Turn) :
    c.follow t = ready t.session c.delayed (c.history ++ t.acts) := by
  let done := t.notices.map Act.noticed ++ t.delivered.toList.map Act.delivered
  have h' : Undisturbed {c with session := t.session, acts := done.reverse ++ c.acts} :=
    ⟨h.outlet, h.stop⟩
  show Conversation.say {c with session := t.session, acts := done.reverse ++ c.acts} t.answer = _
  rw [h'.say]
  simp [history, Turn.acts, done]

/-! ### Between two lines -/

variable {s : Session} {delayed : Bool} {done : List Act}

@[simp] theorem history_ready : (ready s delayed done).history = done := List.reverse_reverse done

@[simp] theorem history_closed : (closed s delayed done).history = done := List.reverse_reverse done

theorem ready_reading (hs : s.phase ≠ .connect) :
    (ready s delayed done).mode = .reading s.phase.lineLimit [] := if_neg hs

theorem ready_ended (hs : s.phase = .connect) :
    ready s delayed done = closed s delayed done := by
  simp only [closed, ready, finish, if_pos hs]

theorem start_eq_ready (s : Session) (delayed : Bool) :
    start s .sound .down delayed = ready s.greet.session delayed s.greet.acts :=
  Undisturbed.follow ⟨rfl, rfl⟩ s.greet

/-- Hearing stops once the dialogue is over. -/
theorem receive_ready_ended (hs : s.phase = .connect) (bytes : Bytes) :
    (ready s delayed done).receive (.bytes bytes) = ready s delayed done :=
  receive_ended (by rw [ready_ended hs]; rfl) _

/-- The end of input ends what has not ended yet. -/
theorem finish_ready :
    (if (ready s delayed done).isEnded then ready s delayed done
      else (ready s delayed done).finish none) = closed s delayed done := by
  by_cases hs : s.phase = .connect
  · rw [ready_ended hs]
    rfl
  · simp only [closed, isEnded, ready_reading hs, Bool.false_eq_true, if_false]

theorem close_ready : (ready s delayed done).close = closed s delayed done := by
  rw [← finish_ready]
  by_cases hs : s.phase = .connect
  · rw [ready_ended hs]
    rfl
  · simp only [close, ready_reading hs]

/-! ### A line that fits -/

/-- Bytes that neither end a line nor fill it join it. -/
theorem receive_reading {raw : Bytes} (hraw : 10 ∉ raw) {room : Nat} {line : Bytes}
    (hmode : c.mode = .reading room line) (hroom : raw.length < room) :
    c.receive (.bytes raw) =
      {c with mode := .reading (room - raw.length) (raw.reverse ++ line)} := by
  induction raw generalizing c room line with
  | nil =>
    obtain ⟨session, mode, outlet, stop, delayed, acts⟩ := c
    cases hmode
    rfl
  | cons b rest ih =>
    obtain ⟨hb, hrest⟩ : b ≠ 10 ∧ 10 ∉ rest := by
      rw [List.mem_cons, not_or] at hraw
      exact ⟨Ne.symm hraw.1, hraw.2⟩
    rw [List.length_cons] at hroom
    have hhear : c.hear b = {c with mode := .reading (room - 1) (b :: line)} := by
      unfold hear
      rw [hmode]
      simp only [if_neg hb, if_neg (show ¬ room ≤ 1 by omega)]
    show (c.hear b).receive (.bytes rest) = _
    rw [hhear, ih hrest rfl (by omega), List.length_cons, List.reverse_cons, List.append_assoc,
      List.singleton_append, Nat.sub_sub, Nat.add_comm 1]

/-- Part of a line, and no newline yet. -/
theorem hear_part {raw : Bytes} (hraw : 10 ∉ raw) (hs : s.phase ≠ .connect)
    (hfits : raw.length < s.phase.lineLimit) :
    (ready s delayed done).receive (.bytes raw) = {ready s delayed done with
      mode := .reading (s.phase.lineLimit - raw.length) raw.reverse} := by
  rw [receive_reading hraw (ready_reading hs) hfits, List.append_nil]

/-- A line that fits is accepted. -/
theorem hear_line (delayed : Bool) (done : List Act) {raw : Bytes} (hraw : 10 ∉ raw)
    (hs : s.phase ≠ .connect) (hfits : raw.length < s.phase.lineLimit) :
    (ready s delayed done).receive (.bytes (raw ++ [10])) =
      ready (s.accept (lineText raw)).session delayed
        (done ++ (s.accept (lineText raw)).acts) := by
  rw [receive_bytes_append, hear_part hraw hs hfits]
  show hearLine _ raw.reverse.reverse = _
  rw [List.reverse_reverse, hearLine, Undisturbed.follow ⟨rfl, rfl⟩]
  show ready _ delayed ((ready s delayed done).history ++ _) = _
  rw [history_ready]
  rfl

/-- So is a last line without a newline. -/
theorem close_part {raw : Bytes} (hraw : 10 ∉ raw) (hne : raw ≠ []) (hs : s.phase ≠ .connect)
    (hfits : raw.length < s.phase.lineLimit) :
    ((ready s delayed done).receive (.bytes raw)).close =
      closed (s.accept (lineText raw)).session delayed
        (done ++ (s.accept (lineText raw)).acts) := by
  have hheard := hear_line delayed done hraw hs hfits
  rw [receive_bytes_append, hear_part hraw hs hfits] at hheard
  rw [hear_part hraw hs hfits, ← finish_ready, ← hheard]
  obtain ⟨b, rest, hrev⟩ := List.exists_cons_of_ne_nil (mt List.reverse_eq_nil_iff.mp hne)
  rw [hrev]
  rfl

/-! ### A line that does not -/

/-- The byte that fills the line, and those after it. -/
theorem receive_overflow (delayed : Bool) (done : List Act) {raw : Bytes} (hraw : 10 ∉ raw)
    (hs : s.phase ≠ .connect) (hlong : s.phase.lineLimit ≤ raw.length) :
    ∃ rest, 10 ∉ rest ∧ (ready s delayed done).receive (.bytes raw) =
      (ready s delayed done).overflow.receive (.bytes rest) := by
  have hpos := s.phase.lineLimit_pos
  obtain ⟨part, more, hsplit, hpart⟩ : ∃ part more, part ++ more = raw ∧
      part.length + 1 = s.phase.lineLimit :=
    ⟨raw.take (s.phase.lineLimit - 1), raw.drop (s.phase.lineLimit - 1),
      List.take_append_drop .., by rw [List.length_take]; omega⟩
  subst hsplit
  obtain ⟨hnewline, hmore⟩ : 10 ∉ part ∧ 10 ∉ more := by
    rwa [List.mem_append, not_or] at hraw
  cases more with
  | nil =>
    rw [List.append_nil] at hlong
    omega
  | cons b rest =>
    rw [List.mem_cons, not_or] at hmore
    refine ⟨rest, hmore.2, ?_⟩
    rw [receive_bytes_append, hear_part hnewline hs (by omega)]
    show (hear _ b).receive (.bytes rest) = _
    congr 1
    unfold hear
    have hfull : s.phase.lineLimit - part.length ≤ 1 := by omega
    simp only [if_neg (Ne.symm hmore.1), if_pos hfull]
    rfl

/-- An overlong line of message data ends the conversation, whatever follows. -/
theorem hear_longData {raw : Bytes} (hraw : 10 ∉ raw) (hdata : s.phase.isData = true)
    (hlong : s.phase.lineLimit ≤ raw.length) (rest : Bytes) :
    (ready s delayed done).receive (.bytes (raw ++ rest)) =
      ready s.breakOff delayed (done ++ Act.refusal .connect) := by
  have hover : (ready s delayed done).overflow =
      ready s.breakOff delayed (done ++ Act.refusal .connect) := by
    unfold overflow
    show (if s.phase.isData then _ else _) = _
    rw [if_pos hdata, Undisturbed.say ⟨rfl, rfl⟩]
    show ready s.breakOff delayed ((.noticed .lineTooLong :: done.reverse).reverse ++ _) = _
    rw [List.reverse_cons, List.reverse_reverse, List.append_assoc]
    rfl
  obtain ⟨more, -, hmore⟩ :=
    receive_overflow delayed done hraw (Phase.ne_connect_of_isData hdata) hlong
  rw [receive_bytes_append, hmore, hover, receive_ready_ended rfl, receive_ready_ended rfl]

/-- Passing over the rest of an overlong command. -/
def skipping (s : Session) (delayed : Bool) (done : List Act) : Conversation :=
  {ready s delayed (done ++ [.noticed .lineTooLong]) with mode := .skipping}

theorem receive_skipping {rest : Bytes} (hrest : 10 ∉ rest) :
    (skipping s delayed done).receive (.bytes rest) = skipping s delayed done := by
  induction rest with
  | nil => rfl
  | cons b rest ih =>
    rw [List.mem_cons, not_or] at hrest
    have hhear : (skipping s delayed done).hear b = skipping s delayed done := by
      simp only [hear, skipping, if_neg (Ne.symm hrest.1)]
    show ((skipping s delayed done).hear b).receive (.bytes rest) = _
    rw [hhear]
    exact ih hrest.2

theorem refuse_skipping :
    (skipping s delayed done).refuse = ready s delayed (done ++ Act.refusal s.phase) := by
  rw [refuse, Undisturbed.say ⟨rfl, rfl⟩]
  show ready s delayed ((done ++ [Act.noticed .lineTooLong]).reverse.reverse ++ _) = _
  rw [List.reverse_reverse, List.append_assoc]
  rfl

/-- An overlong command is passed over. -/
theorem hear_longPart {raw : Bytes} (hraw : 10 ∉ raw) (hs : s.phase ≠ .connect)
    (hdata : s.phase.isData = false) (hlong : s.phase.lineLimit ≤ raw.length) :
    (ready s delayed done).receive (.bytes raw) = skipping s delayed done := by
  have hover : (ready s delayed done).overflow = skipping s delayed done := by
    unfold overflow
    show (if s.phase.isData then _ else _) = _
    rw [if_neg (by rw [hdata]; exact Bool.false_ne_true)]
    simp [skipping, ready]
  obtain ⟨more, hnewline, hmore⟩ :=
    receive_overflow delayed done hraw hs hlong
  rw [hmore, hover, receive_skipping hnewline]

/-- It is refused at its end, and the session stays where it was. -/
theorem hear_longCommand {raw : Bytes} (hraw : 10 ∉ raw) (hs : s.phase ≠ .connect)
    (hdata : s.phase.isData = false) (hlong : s.phase.lineLimit ≤ raw.length) :
    (ready s delayed done).receive (.bytes (raw ++ [10])) =
      ready s delayed (done ++ Act.refusal s.phase) := by
  rw [receive_bytes_append, hear_longPart hraw hs hdata hlong]
  exact refuse_skipping

/-- The end of input is an end too. -/
theorem close_longPart {raw : Bytes} (hraw : 10 ∉ raw) (hs : s.phase ≠ .connect)
    (hdata : s.phase.isData = false) (hlong : s.phase.lineLimit ≤ raw.length) :
    ((ready s delayed done).receive (.bytes raw)).close =
      closed s delayed (done ++ Act.refusal s.phase) := by
  rw [hear_longPart hraw hs hdata hlong, ← finish_ready, ← refuse_skipping]
  rfl

end Conversation
end MailCapture
