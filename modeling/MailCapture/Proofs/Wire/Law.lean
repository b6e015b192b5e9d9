import MailCapture.Proofs.Session.Steps
import MailCapture.Proofs.Text.Decoding
import MailCapture.Wire.Conversation

/-! What no conversation breaks.

Whatever arrives, wherever the outlet fails and whenever the stop signal comes up, a conversation
does only three things to its session: it greets, it accepts lines without a newline, and it breaks
off at an overlong line of message data. A `Law` says what these keep and what the messages are that
they deliver; `Law.run` says that whole conversations then keep it too, with no more to be said of
outlets, faults or signals. -/
namespace MailCapture

/-- What is kept of a session, and what is then true of the messages it delivers. -/
structure Law (Kept : Session → Prop) (Given : Message → Prop) : Prop where
  greet : ∀ s, Kept s → Kept s.greet.session
  accept : ∀ s line, Kept s → '\n' ∉ line → Kept (s.accept line).session
  breakOff : ∀ s, Kept s → s.phase.isData = true → Kept s.breakOff
  delivered : ∀ s line m, Kept s → '\n' ∉ line → (s.accept line).delivered = some m → Given m

namespace Conversation

theorem mem_deliveries {c : Conversation} {m : Message} :
    m ∈ c.deliveries ↔ Act.delivered m ∈ c.acts := by
  rw [deliveries, List.mem_filterMap]
  constructor
  · rintro ⟨act, hmem, hact⟩
    cases act with
    | delivered m' =>
      obtain rfl := Option.some.inj hact
      exact List.mem_reverse.mp hmem
    | wrote | noticed => cases hact
  · intro hmem
    exact ⟨.delivered m, List.mem_reverse.mpr hmem, rfl⟩

/-- A law kept so far, with no newline in the line half read. -/
structure Keeps (Kept : Session → Prop) (Given : Message → Prop) (c : Conversation) : Prop where
  session : Kept c.session
  deliveries : ∀ m, Act.delivered m ∈ c.acts → Given m
  line : ∀ room line, c.mode = .reading room line → 10 ∉ line

variable {Kept : Session → Prop} {Given : Message → Prop} {c : Conversation}

/-! ### Speaking -/

theorem Keeps.finish (h : c.Keeps Kept Given) (failure : Option StreamError) :
    (c.finish failure).Keeps Kept Given :=
  ⟨h.session, h.deliveries, fun _ _ hmode => Mode.noConfusion hmode⟩

theorem Keeps.await (h : c.Keeps Kept Given) : c.await.Keeps Kept Given := by
  unfold Conversation.await
  split
  · exact h.finish none
  · simp only
    split
    · exact ⟨h.session, h.deliveries, fun _ _ hmode => Mode.noConfusion hmode⟩
    · refine ⟨h.session, h.deliveries, fun room line hmode => ?_⟩
      cases hmode
      exact List.not_mem_nil

theorem Keeps.write (h : c.Keeps Kept Given) (bytes : Bytes) : (c.write bytes).Keeps Kept Given := by
  have hwrote : Keeps Kept Given
      {c with outlet := (c.outlet.write bytes).2.1, acts := .wrote (c.outlet.write bytes).1 :: c.acts} :=
    ⟨h.session, fun m hmem => h.deliveries m (by simpa using hmem), h.line⟩
  unfold Conversation.write
  simp only
  split
  · exact hwrote.finish _
  · exact hwrote.await

theorem Keeps.say (h : c.Keeps Kept Given) (a : Answer) : (c.say a).Keeps Kept Given := by
  unfold Conversation.say
  split
  · exact h.await
  · next reply _ =>
    generalize (if c.delayed then c.stop.look else (false, c.stop)) = look
    obtain ⟨raised, stop⟩ := look
    have hlook : Keeps Kept Given {c with stop} := ⟨h.session, h.deliveries, h.line⟩
    cases raised with
    | true => exact hlook.finish none
    | false => exact hlook.write _

theorem Keeps.follow (h : c.Keeps Kept Given) {t : Turn} (hsession : Kept t.session)
    (hdelivered : ∀ m, t.delivered = some m → Given m) : (c.follow t).Keeps Kept Given := by
  let done := t.notices.map Act.noticed ++ t.delivered.toList.map Act.delivered
  have hdone : ∀ m, Act.delivered m ∈ done → t.delivered = some m := by
    intro m hmem
    simpa [done] using hmem
  have htaken : Keeps Kept Given {c with session := t.session, acts := done.reverse ++ c.acts} := by
    refine ⟨hsession, fun m hmem => ?_, h.line⟩
    rcases List.mem_append.mp hmem with hmem | hmem
    · exact hdelivered m (hdone m (List.mem_reverse.mp hmem))
    · exact h.deliveries m hmem
  exact htaken.say t.answer

/-! ### Listening -/

theorem newline_notMem_lineText {raw : Bytes} (h : 10 ∉ raw) : '\n' ∉ lineText raw := by
  refine Text.newline_notMem_decode ?_
  split
  · exact fun hmem => h (List.dropLast_subset raw hmem)
  · exact h

theorem Keeps.hearLine (law : Law Kept Given) (h : c.Keeps Kept Given) {raw : Bytes}
    (hraw : 10 ∉ raw) : (c.hearLine raw).Keeps Kept Given :=
  have hline := newline_notMem_lineText hraw
  h.follow (law.accept _ _ h.session hline) fun m => law.delivered _ _ m h.session hline

theorem Keeps.overflow (law : Law Kept Given) (h : c.Keeps Kept Given) :
    c.overflow.Keeps Kept Given := by
  have hacts : ∀ m, Act.delivered m ∈ .noticed .lineTooLong :: c.acts → Given m :=
    fun m hmem => h.deliveries m (by simpa using hmem)
  unfold Conversation.overflow
  simp only
  split
  · next hdata =>
    have hbroken : Keeps Kept Given
        {c with session := c.session.breakOff, acts := .noticed .lineTooLong :: c.acts} :=
      ⟨law.breakOff _ h.session hdata, hacts, h.line⟩
    exact hbroken.say _
  · exact ⟨h.session, hacts, fun _ _ hmode => Mode.noConfusion hmode⟩

theorem Keeps.hear (law : Law Kept Given) (h : c.Keeps Kept Given) (b : UInt8) :
    (c.hear b).Keeps Kept Given := by
  unfold Conversation.hear
  split
  · next room line hmode =>
    have hline := h.line room line hmode
    split
    · exact h.hearLine law fun hmem => hline (List.mem_reverse.mp hmem)
    · next hb =>
      split
      · exact h.overflow law
      · refine ⟨h.session, h.deliveries, fun _ _ hnext => ?_⟩
        cases hnext
        exact List.not_mem_cons_of_ne_of_not_mem (Ne.symm hb) hline
  · split
    · exact h.say _
    · exact h
  · exact h

theorem Keeps.stumble (h : c.Keeps Kept Given) (e : StreamError) :
    (c.stumble e).Keeps Kept Given := by
  unfold Conversation.stumble
  split
  · split
    · exact h
    · exact h.finish none
    · exact h.finish (some e)
  · exact h.finish (some e)
  · exact h

theorem Keeps.receive (law : Law Kept Given) (h : c.Keeps Kept Given) (a : Arrival) :
    (c.receive a).Keeps Kept Given := by
  cases a with
  | fault e => exact h.stumble e
  | bytes read =>
    induction read generalizing c with
    | nil => exact h
    | cons b rest ih => exact ih (h.hear law b)

theorem Keeps.receiveAll (law : Law Kept Given) (h : c.Keeps Kept Given)
    (arrivals : List Arrival) : (c.receiveAll arrivals).Keeps Kept Given := by
  induction arrivals generalizing c with
  | nil => exact h
  | cons a rest ih => exact ih (h.receive law a)

/-- What is left of the last line is heard first. -/
def flush (c : Conversation) : Conversation :=
  match c.mode with
  | .reading _ [] => c
  | .reading _ line => c.hearLine line.reverse
  | .skipping => c.refuse
  | .ended _ => c

theorem close_eq (c : Conversation) :
    c.close = if c.flush.isEnded then c.flush else c.flush.finish none := rfl

theorem Keeps.flush (law : Law Kept Given) (h : c.Keeps Kept Given) :
    c.flush.Keeps Kept Given := by
  unfold Conversation.flush
  split
  · exact h
  · next room line _ hmode =>
    exact h.hearLine law fun hmem => h.line room line hmode (List.mem_reverse.mp hmem)
  · exact h.say _
  · exact h

theorem Keeps.close (law : Law Kept Given) (h : c.Keeps Kept Given) :
    c.close.Keeps Kept Given := by
  rw [close_eq]
  split
  · exact h.flush law
  · exact (h.flush law).finish none

end Conversation

/-- A law holds of every conversation's deliveries, and still holds after it. -/
theorem Law.run {Kept : Session → Prop} {Given : Message → Prop} (law : Law Kept Given)
    {s : Session} (h : Kept s) (arrivals : List Arrival) (outlet : Outlet) (stop : StopSignal)
    (delayed : Bool) :
    let c := Conversation.run s arrivals outlet stop delayed
    Kept c.session ∧ ∀ m ∈ c.deliveries, Given m := by
  intro c
  have hnew : Conversation.Keeps Kept Given
      { session := s, mode := .ended none, outlet, stop, delayed } :=
    ⟨h, fun _ hmem => absurd hmem List.not_mem_nil, fun _ _ hmode => Conversation.Mode.noConfusion hmode⟩
  have hnone : ∀ m, s.greet.delivered = some m → Given m := by
    intro m hm
    rw [s.delivered_greet] at hm
    cases hm
  have hc : c.Keeps Kept Given :=
    ((hnew.follow (law.greet s h) hnone).receiveAll law arrivals).close law
  exact ⟨hc.session, fun m hm => hc.deliveries m (Conversation.mem_deliveries.mp hm)⟩

end MailCapture
