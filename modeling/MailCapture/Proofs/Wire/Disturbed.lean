import MailCapture.Proofs.Wire.Law
import MailCapture.Proofs.Wire.Rounds

/-! Conversations broken off before their end.

A fault may strike at any byte of the input, the outlet may fail inside a reply, the stop signal may
come up before any line or any reply. A conversation so disturbed follows the one that the same
bytes make undisturbed until it ends, and then it has been `CutShort`: what it did is where the
other's history begins, up to some act or into a write. `disturbed_run` says what that means for the
client and for whoever takes the messages: no reply is begun before its message is delivered, and no
message but the last is without its reply. -/
namespace MailCapture

/-- The bytes that arrive. -/
def Arrival.read : Arrival → Bytes
  | .bytes read => read
  | .fault _ => []

/-! ### Histories cut short -/

inductive CutShort : List Act → List Act → Prop
  /-- Before an act, or after the last. -/
  | between {done whole} (h : done <+: whole) : CutShort done whole
  /-- Within a write. -/
  | within {before taken bytes} (h : taken <+: bytes) (after : List Act) :
      CutShort (before ++ [.wrote taken]) (before ++ .wrote bytes :: after)

namespace CutShort
variable {done whole : List Act}

theorem written (h : CutShort done whole) : done.flatMap Act.bytes <+: whole.flatMap Act.bytes := by
  cases h with
  | between h =>
    obtain ⟨rest, rfl⟩ := h
    rw [List.flatMap_append]
    exact List.prefix_append ..
  | within h after =>
    rw [List.flatMap_append, List.flatMap_append, List.flatMap_singleton, List.flatMap_cons,
      List.prefix_append_right_inj]
    exact h.trans (List.prefix_append ..)

theorem deliveries (h : CutShort done whole) :
    done.filterMap Act.message? <+: whole.filterMap Act.message? := by
  cases h with
  | between h => exact h.filterMap _
  | within h after =>
    rw [List.filterMap_append, List.filterMap_append, List.prefix_append_right_inj]
    exact List.nil_prefix

theorem grow (h : CutShort done whole) {more : List Act} (hmore : whole <+: more) :
    CutShort done more := by
  cases h with
  | between h => exact .between (h.trans hmore)
  | within h after =>
    obtain ⟨rest, rfl⟩ := hmore
    rw [List.append_assoc]
    exact .within h (after ++ rest)

/-- So is all that has been done by an earlier moment. -/
theorem of_isPrefix (h : CutShort done whole) {moment : List Act} (hmoment : moment <+: done) :
    CutShort moment whole := by
  cases h with
  | between h => exact .between (hmoment.trans h)
  | within h after =>
    rcases List.prefix_concat_iff.mp hmoment with rfl | hbefore
    · exact .within h after
    · exact .between (hbefore.trans (List.prefix_append ..))

/-- What comes first is either done whole or cut short itself. -/
theorem split {first rest : List Act} (h : CutShort done (first ++ rest)) :
    CutShort done first ∨ first <+: done := by
  generalize hwhole : first ++ rest = whole at h
  cases h with
  | between h =>
    subst hwhole
    exact (List.prefix_or_prefix_of_prefix h (List.prefix_append ..)).imp_left .between
  | @within before taken bytes h after =>
    rcases List.append_eq_append_iff.mp hwhole with ⟨more, rfl, -⟩ | ⟨more, rfl, hmore⟩
    · rw [List.append_assoc]
      exact .inr (List.prefix_append ..)
    · cases more with
      | nil =>
        rw [List.append_nil]
        exact .inr (List.prefix_append ..)
      | cons act more =>
        obtain ⟨rfl, -⟩ := List.cons.inj hmore
        exact .inl (.within h more)

end CutShort

/-- An outlet that does not fail takes everything. -/
theorem Outlet.write_all {bytes : Bytes} {o : Outlet}
    (h : (o.write bytes).2.2 = none) : (o.write bytes).1 = bytes := by
  cases o with
  | sound => rfl
  | failing room e =>
    unfold write at h ⊢
    simp only at h ⊢
    split at h
    · next hroom => rw [if_pos hroom]
    · cases h

namespace Conversation
variable {c w : Conversation}

/-! ### What has been done stays done -/

theorem history_await (c : Conversation) : c.await.history = c.history := by
  unfold await
  split
  · rfl
  · simp only
    split <;> rfl

theorem history_write (c : Conversation) (bytes : Bytes) :
    (c.write bytes).history = c.history ++ [.wrote (c.outlet.write bytes).1] := by
  unfold write
  simp only
  split
  · exact List.reverse_cons
  · rw [history_await]
    exact List.reverse_cons

theorem isPrefix_say (c : Conversation) (a : Answer) : c.history <+: (c.say a).history := by
  unfold say
  split
  · exact (history_await c).symm ▸ List.prefix_rfl
  · generalize (if c.delayed then c.stop.look else (false, c.stop)) = look
    obtain ⟨raised, stop⟩ := look
    cases raised with
    | true => exact List.prefix_rfl
    | false =>
      simp only [Bool.false_eq_true, if_false]
      rw [history_write]
      exact List.prefix_append ..

theorem isPrefix_follow (c : Conversation) (t : Turn) : c.history <+: (c.follow t).history := by
  refine List.IsPrefix.trans ?_ (isPrefix_say _ t.answer)
  simp only [history, List.reverse_append]
  exact List.prefix_append ..

theorem isPrefix_overflow (c : Conversation) : c.history <+: c.overflow.history := by
  have hnoticed : c.history <+: ({c with acts := .noticed .lineTooLong :: c.acts}).history := by
    simp only [history, List.reverse_cons]
    exact List.prefix_append ..
  unfold overflow
  simp only
  split
  · refine hnoticed.trans ?_
    exact isPrefix_say
      {c with session := c.session.breakOff, acts := .noticed .lineTooLong :: c.acts} _
  · exact hnoticed

theorem isPrefix_hear (c : Conversation) (b : UInt8) : c.history <+: (c.hear b).history := by
  unfold hear
  split
  · split
    · exact isPrefix_follow ..
    · split
      · exact isPrefix_overflow c
      · exact List.prefix_rfl
  · split
    · exact isPrefix_say ..
    · exact List.prefix_rfl
  · exact List.prefix_rfl

theorem isPrefix_close (c : Conversation) : c.history <+: c.close.history := by
  have hflush : c.history <+: c.flush.history := by
    unfold flush
    split
    · exact List.prefix_rfl
    · exact isPrefix_follow ..
    · exact isPrefix_say ..
    · exact List.prefix_rfl
  rw [close_eq]
  split
  · exact hflush
  · exact hflush

/-! ### Following the undisturbed conversation -/

/-- The same conversation, with nothing in the way from now on. -/
def unhindered (c : Conversation) : Conversation := {c with outlet := .sound, stop := .down}

/-- `c` does what `w` does, until it ends. -/
inductive Follows (c w : Conversation) : Prop
  | alongside (h : w = c.unhindered)
  | behind (ended : c.isEnded = true) (cut : CutShort c.history w.history)

theorem Follows.cutShort (h : Follows c w) : CutShort c.history w.history := by
  cases h with
  | alongside h =>
    subst h
    exact .between List.prefix_rfl
  | behind ended cut => exact cut

/-- It may end at any time. -/
theorem follows_finish (c : Conversation) (failure : Option StreamError) :
    Follows (c.finish failure) c.unhindered :=
  .behind rfl (.between List.prefix_rfl)

theorem follows_await (c : Conversation) : Follows c.await c.unhindered.await := by
  unfold await
  by_cases hphase : c.session.phase = .connect
  · rw [if_pos hphase, if_pos (show c.unhindered.session.phase = .connect from hphase)]
    exact .alongside rfl
  · rw [if_neg hphase, if_neg (show ¬ c.unhindered.session.phase = .connect from hphase)]
    rcases hlook : c.stop.look with ⟨raised, stop⟩
    cases raised with
    | true => exact .behind rfl (.between List.prefix_rfl)
    | false => exact .alongside rfl

theorem follows_write (c : Conversation) (bytes : Bytes) :
    Follows (c.write bytes) (c.unhindered.write bytes) := by
  rcases hwrite : c.outlet.write bytes with ⟨taken, outlet, failure⟩
  cases failure with
  | some e =>
    have hc : c.write bytes = {c with outlet, acts := .wrote taken :: c.acts}.finish (some e) := by
      simp only [write, hwrite, Option.isSome_some, if_true]
    have htaken : taken <+: bytes := by
      have hprefix := Outlet.write_isPrefix bytes c.outlet
      rwa [hwrite] at hprefix
    rw [hc]
    refine .behind rfl ?_
    have hw : (c.unhindered.write bytes).history = c.history ++ [.wrote bytes] :=
      history_write c.unhindered bytes
    have hdone : ({c with outlet, acts := .wrote taken :: c.acts}.finish (some e)).history =
        c.history ++ [.wrote taken] := List.reverse_cons
    rw [hw, hdone]
    exact .within htaken []
  | none =>
    have hall : taken = bytes := by
      have hall := Outlet.write_all (congrArg (fun w => w.2.2) hwrite)
      rwa [hwrite] at hall
    subst hall
    have hc : c.write taken = {c with outlet, acts := .wrote taken :: c.acts}.await := by
      simp only [write, hwrite, Option.isSome_none, Bool.false_eq_true, if_false]
    rw [hc]
    exact follows_await {c with outlet, acts := .wrote taken :: c.acts}

theorem follows_say (c : Conversation) (a : Answer) : Follows (c.say a) (c.unhindered.say a) := by
  obtain ⟨reply, next⟩ := a
  cases reply with
  | none => exact follows_await c
  | some reply =>
    have hlook : (if c.unhindered.delayed then c.unhindered.stop.look
        else (false, c.unhindered.stop)) = (false, .down) := by
      split <;> rfl
    have hw : c.unhindered.say ⟨some reply, next⟩ =
        c.unhindered.write (Text.encode reply.line) := by
      simp only [say, hlook, Bool.false_eq_true, if_false]
      rfl
    rw [hw]
    unfold say
    simp only
    generalize (if c.delayed then c.stop.look else (false, c.stop)) = look
    obtain ⟨raised, stop⟩ := look
    cases raised with
    | true =>
      refine .behind rfl (.between ?_)
      rw [history_write]
      exact List.prefix_append ..
    | false => exact follows_write {c with stop} _

theorem follows_follow (c : Conversation) (t : Turn) :
    Follows (c.follow t) (c.unhindered.follow t) :=
  follows_say {c with session := t.session, acts := _} t.answer

theorem follows_overflow (c : Conversation) : Follows c.overflow c.unhindered.overflow := by
  unfold overflow
  show Follows (if c.session.phase.isData then _ else _) (if c.session.phase.isData then _ else _)
  split
  · exact follows_say {c with session := c.session.breakOff, acts := _} _
  · exact .alongside rfl

theorem follows_hear (c : Conversation) (b : UInt8) : Follows (c.hear b) (c.unhindered.hear b) := by
  obtain ⟨session, mode, outlet, stop, delayed, acts⟩ := c
  cases mode with
  | reading room line =>
    simp only [hear, unhindered]
    split
    · exact follows_follow ..
    · split
      · exact follows_overflow _
      · exact .alongside rfl
  | skipping =>
    simp only [hear, unhindered]
    split
    · exact follows_say ..
    · exact .alongside rfl
  | ended failure => exact .alongside rfl

theorem Follows.hear (h : Follows c w) (b : UInt8) : Follows (c.hear b) (w.hear b) := by
  cases h with
  | alongside h =>
    subst h
    exact follows_hear c b
  | behind ended cut =>
    rw [hear_ended ended]
    exact .behind ended (cut.grow (isPrefix_hear w b))

theorem Follows.stumble (h : Follows c w) (e : StreamError) : Follows (c.stumble e) w := by
  cases h with
  | alongside h =>
    subst h
    unfold Conversation.stumble
    split
    · split
      · exact .alongside rfl
      · exact follows_finish c none
      · exact follows_finish c (some e)
    · exact follows_finish c (some e)
    · exact .alongside rfl
  | behind ended cut =>
    have hsame : c.stumble e = c := receive_ended ended (.fault e)
    rw [hsame]
    exact .behind ended cut

theorem Follows.receive (h : Follows c w) (a : Arrival) :
    Follows (c.receive a) (w.receive (.bytes a.read)) := by
  cases a with
  | fault e => exact h.stumble e
  | bytes read =>
    induction read generalizing c w with
    | nil => exact h
    | cons b rest ih => exact ih (h.hear b)

theorem Follows.receiveAll (h : Follows c w) (arrivals : List Arrival) :
    Follows (c.receiveAll arrivals) (w.receive (.bytes (arrivals.flatMap Arrival.read))) := by
  induction arrivals generalizing c w with
  | nil => exact h
  | cons a rest ih =>
    rw [List.flatMap_cons, receive_bytes_append]
    exact ih (h.receive a)

theorem follows_flush (c : Conversation) : Follows c.flush c.unhindered.flush := by
  obtain ⟨session, mode, outlet, stop, delayed, acts⟩ := c
  cases mode with
  | reading room line =>
    cases line with
    | nil => exact .alongside rfl
    | cons b line => exact follows_follow ..
  | skipping =>
    exact follows_say ⟨session, .skipping, outlet, stop, delayed, acts⟩ (.lineTooLong session.phase)
  | ended failure => exact .alongside rfl

/-- The end of the input changes nothing more. -/
theorem Follows.close (h : Follows c w) : CutShort c.close.history w.close.history := by
  have hclose (c : Conversation) : c.close.history = c.flush.history := by
    rw [close_eq]
    split <;> rfl
  cases h with
  | alongside h =>
    subst h
    rw [hclose, hclose]
    exact (follows_flush c).cutShort
  | behind ended cut =>
    have hsame : c.flush = c := by
      unfold isEnded at ended
      unfold flush
      split at ended <;> simp_all
    rw [hclose, hsame]
    exact cut.grow (isPrefix_close w)

/-- A conversation is cut short where it is disturbed, and does all else as if it were not. -/
theorem run_cutShort (s : Session) (arrivals : List Arrival) (outlet : Outlet) (stop : StopSignal)
    (delayed : Bool) :
    CutShort (run s arrivals outlet stop delayed).history
      (Round.history (Round.list s (arrivals.flatMap Arrival.read))) := by
  have hstart : Follows (start s outlet stop delayed) (start s .sound .down delayed) :=
    follows_follow { session := s, mode := .ended none, outlet, stop, delayed } s.greet
  have hrun := (hstart.receiveAll arrivals).close
  have hwhole := Round.history_run s [arrivals.flatMap Arrival.read] delayed
  rw [List.flatten_singleton] at hwhole
  rw [← hwhole]
  exact hrun

end Conversation

/-! ### A premature end -/

section Moment
variable {moment : List Act} {before after : List Round} {r : Round}

/-- By the time a byte of a round's reply is written, all that is delivered up to the reply has been. -/
theorem CutShort.deliveries_of_begun (h : CutShort moment (Round.history (before ++ r :: after)))
    (hbegun : (Round.written before).length < (moment.flatMap Act.bytes).length) :
    Round.deliveries (before ++ [r]) <+: moment.filterMap Act.message? := by
  have hhistory : Round.history (before ++ r :: after) =
      (Round.history before ++ r.turn.quiet) ++ (r.turn.answer.acts ++ Round.history after) := by
    rw [Round.history_append, List.append_assoc, ← List.append_assoc r.turn.quiet]
    rfl
  rw [hhistory] at h
  rcases h.split with hshort | hdone
  · have hlength := hshort.written.length_le
    rw [Round.written_quiet] at hlength
    omega
  · rw [← Round.deliveries_quiet]
    exact hdone.filterMap _

/-- By the time more is delivered than in some rounds, their replies have been written. -/
theorem CutShort.written_of_more (h : CutShort moment (Round.history (before ++ after)))
    (hmore : (Round.deliveries before).length < (moment.filterMap Act.message?).length) :
    Round.written before <+: moment.flatMap Act.bytes := by
  rw [Round.history_append] at h
  rcases h.split with hshort | hdone
  · have hlength := hshort.deliveries.length_le
    rw [Round.deliveries_history] at hlength
    omega
  · rw [← Round.written_history]
    exact (CutShort.between hdone).written

end Moment

/-- **A premature end is safe.** Take the rounds of the undisturbed conversation over some bytes:
those that end a message deliver it and answer 250, and no other round delivers. However the same
bytes come in, with faults anywhere among them, an outlet that fails anywhere and a stop signal that
comes up at any time: what is written is a start of what the rounds write, and what is delivered of
what they deliver. At no moment has a byte of a round's reply been written before its message was
delivered, and at no moment has a message been delivered while an earlier one lacks a byte of its
reply. -/
theorem disturbed_run (s : Session) (arrivals : List Arrival) (outlet : Outlet) (stop : StopSignal)
    (delayed : Bool) :
    let bytes := arrivals.flatMap Arrival.read
    let rounds := Round.list s bytes
    let c := Conversation.run s arrivals outlet stop delayed
    (∀ (reads : List Bytes) (delayed : Bool), reads.flatten = bytes →
      let whole := Conversation.run s (reads.map .bytes) .sound .down delayed
      whole.written = Round.written rounds ∧ whole.deliveries = Round.deliveries rounds) ∧
    (∀ r ∈ rounds, (r.EndsMessage ↔ r.turn.delivered.isSome = true) ∧
      (r.EndsMessage → r.turn.answer = .ok .quit)) ∧
    (c.written <+: Round.written rounds ∧ c.deliveries <+: Round.deliveries rounds) ∧
    ∀ moment, moment <+: c.history → ∀ before r after, rounds = before ++ r :: after →
      ((Round.written before).length < (moment.flatMap Act.bytes).length →
        Round.deliveries (before ++ [r]) <+: moment.filterMap Act.message?) ∧
      ((Round.deliveries (before ++ [r])).length < (moment.filterMap Act.message?).length →
        Round.written (before ++ [r]) <+: moment.flatMap Act.bytes) := by
  intro bytes rounds c
  have hcut : CutShort c.history (Round.history rounds) :=
    Conversation.run_cutShort s arrivals outlet stop delayed
  refine ⟨fun reads delayed hreads => ?_, fun r hr => ?_, ⟨?_, ?_⟩,
    fun moment hmoment before r after hsplit => ?_⟩
  · have hhistory := Round.history_run s reads delayed
    rw [hreads] at hhistory
    constructor
    · rw [← Round.written_history, ← hhistory]
      rfl
    · rw [← Round.deliveries_history, ← hhistory]
      rfl
  · have htakes := Round.takes_list hr
    exact ⟨htakes.endsMessage_iff, htakes.answer⟩
  · rw [← Round.written_history]
    exact hcut.written
  · rw [← Round.deliveries_history]
    exact hcut.deliveries
  · have hmoment : CutShort moment (Round.history (before ++ r :: after)) :=
      hsplit ▸ hcut.of_isPrefix hmoment
    refine ⟨hmoment.deliveries_of_begun, fun hnext => ?_⟩
    rw [List.append_cons] at hmoment
    exact hmoment.written_of_more hnext

/-- An outlet that fails inside the reply to the dot: the message is there, its reply is not. -/
example :
    let sent := Text.encode "MAIL FROM:<a>\r\nRCPT TO:<b>\r\nDATA\r\n.\r\nNOOP\r\n".toList
    let c := Conversation.run { hostname := "mx".toList } [.bytes sent]
      (.failing 91 ⟨.broken, []⟩) .down false
    c.deliveries = [{ sender := some ['a'], recipients := [['b']] }] ∧
      c.written = Text.encode ("220 mx SMTP service ready\r\n250 OK\r\n250 OK\r\n".toList ++
        "354 Start mail input; end with <CRLF>.<CRLF>\r\n25".toList) := by
  decide +kernel

end MailCapture
