import MailCapture.Proofs.Session.Transcript

/-! What the size limit does to a message.

The lines of a message are counted from its 354 on, whatever came before (`Standing.startInput`). Up
to the limit a session takes them as it would with any other (`accept_within`). The line that takes
the sum past the limit is answered 552 and leaves a dialogue that is over, with nothing of the message
left (`accept_past`). -/
namespace MailCapture

theorem Command.eq_data_of_answer {c : Command} {phase : Phase} {hostname : Text}
    (h : (c.answer phase hostname).code? = some 354) : c = .data ∧ phase = .recipient := by
  unfold Command.answer at h
  simp only at h
  split at h <;> split at h <;> first | exact ⟨rfl, ‹_›⟩ | cases h

namespace Session

/-! ### Another limit -/

/-- The same session with another limit. -/
def withLimit (s : Session) (limit : Nat) : Session := {s with sizeLimit := limit}

end Session

def Turn.withLimit (t : Turn) (limit : Nat) : Turn :=
  {t with session := t.session.withLimit limit}

/-- The limit it has already. -/
theorem Turn.withLimit_withLimit {t : Turn} {limit : Nat} (h : t.session.sizeLimit = limit)
    (other : Nat) : (t.withLimit other).withLimit limit = t := by
  subst h
  rfl

namespace Session
variable {s : Session} {line : Text}

theorem draftHeader_withLimit (s : Session) (limit : Nat) (line : Text) :
    (s.withLimit limit).draftHeader line =
      ((s.draftHeader line).1.withLimit limit, (s.draftHeader line).2) := by
  simp only [draftHeader, withLimit]
  split
  · rfl
  · rfl
  · split <;> rfl
  · rfl

theorem record_withLimit (s : Session) (limit : Nat) (c : Command) :
    (s.withLimit limit).record c = ((s.record c).1.withLimit limit, (s.record c).2) := by
  obtain ⟨hostname, sizeLimit, phase, draft, lastField, received⟩ := s
  cases c with
  | mail address | rcpt address => cases address <;> cases phase <;> rfl
  | headerLine line =>
    cases phase
    case headers => exact draftHeader_withLimit _ limit line
    all_goals rfl
  | bodyLine | reset => cases phase <;> rfl
  | _ => rfl

theorem perform_withLimit (s : Session) (limit : Nat) (c : Command) :
    (s.withLimit limit).perform c = (s.perform c).withLimit limit := by
  have hrecord := record_withLimit {s with phase := (c.answer s.phase s.hostname).next} limit c
  simp only [withLimit] at hrecord
  simp only [perform, withLimit, hrecord]
  split <;> rfl

/-- A line that is within both limits is taken in the same way. -/
theorem accept_withLimit (hdata : s.phase.isData = true) {limit : Nat} (hfits : s.Fits line)
    (hother : (s.withLimit limit).Fits line) :
    (s.withLimit limit).accept line = (s.accept line).withLimit limit := by
  have hdata' : (s.withLimit limit).phase.isData = true := hdata
  rw [accept_data hdata hfits, accept_data hdata' hother]
  exact perform_withLimit (s.count line) limit _

/-! ### Lines of message data -/

/-- Content within the limit is counted, and more of it can follow. -/
theorem DataTurn.counted {t : Turn} (hturn : DataTurn s line t) (hfits : s.Fits line)
    (hdot : line ≠ ['.']) :
    t.session.phase.isData = true ∧ t.session.received = s.received + lineSize line ∧
      t.session.sizeLimit = s.sizeLimit := by
  cases hturn with
  | tooMuch hexcess => exact absurd hfits hexcess
  | dot _ hisDot => exact absurd hisDot hdot
  | emptyLine => exact ⟨rfl, rfl, rfl⟩
  | headerLine _ hphase =>
    rw [draftHeader_eq_take]
    exact ⟨congrArg Phase.isData hphase, rfl, rfl⟩
  | bodyLine _ hphase => exact ⟨congrArg Phase.isData hphase, rfl, rfl⟩

variable {lines : List Text}

theorem after_content (hdata : s.phase.isData = true) (hdots : ∀ l ∈ lines, l ≠ ['.'])
    (hsum : s.received + linesSize lines ≤ s.sizeLimit) :
    (s.after lines).phase.isData = true ∧
      (s.after lines).received = s.received + linesSize lines ∧
      (s.after lines).sizeLimit = s.sizeLimit := by
  induction lines generalizing s with
  | nil => exact ⟨hdata, rfl, rfl⟩
  | cons line rest ih =>
    obtain ⟨hdot, hmore⟩ := List.forall_mem_cons.mp hdots
    rw [linesSize, ← Nat.add_assoc] at hsum
    have hfits : s.Fits line := Nat.le_trans (Nat.le_add_right _ _) hsum
    obtain ⟨hnext, hreceived, hlimit⟩ := (dataTurn_accept hdata line).counted hfits hdot
    rw [after_cons, linesSize, ← Nat.add_assoc, ← hreceived, ← hlimit]
    exact ih hnext hmore (by rw [hreceived, hlimit]; exact hsum)

theorem after_withLimit (hdata : s.phase.isData = true) (hdots : ∀ l ∈ lines, l ≠ ['.'])
    (hsum : s.received + linesSize lines ≤ s.sizeLimit) {limit : Nat}
    (hother : s.received + linesSize lines ≤ limit) :
    (s.withLimit limit).after lines = (s.after lines).withLimit limit := by
  induction lines generalizing s with
  | nil => rfl
  | cons line rest ih =>
    obtain ⟨hdot, hmore⟩ := List.forall_mem_cons.mp hdots
    rw [linesSize, ← Nat.add_assoc] at hsum hother
    have hfits : s.Fits line := Nat.le_trans (Nat.le_add_right _ _) hsum
    have hfits' : (s.withLimit limit).Fits line := Nat.le_trans (Nat.le_add_right _ _) hother
    obtain ⟨hnext, hreceived, hlimit⟩ := (dataTurn_accept hdata line).counted hfits hdot
    rw [after_cons, after_cons, accept_withLimit hdata hfits hfits']
    exact ih hnext hmore (by rw [hreceived, hlimit]; exact hsum) (by rw [hreceived]; exact hother)

/-! ### The limit -/

variable {hostname : Text} {limit : Nat}

/-- Up to the limit a line does what it would do with another. -/
theorem accept_within (hs : Standing hostname limit s) (hdata : s.phase.isData = true)
    (hdots : ∀ l ∈ lines, l ≠ ['.']) (hsum : s.received + linesSize (lines ++ [line]) ≤ limit)
    {other : Nat} (hother : s.received + linesSize (lines ++ [line]) ≤ other) :
    (s.after lines).accept line =
      (((s.withLimit other).after lines).accept line).withLimit limit := by
  obtain ⟨-, rfl⟩ := hs.settings
  rw [linesSize_append, ← Nat.add_assoc] at hsum hother
  have hlines := Nat.le_trans (Nat.le_add_right _ _) hsum
  obtain ⟨hgoing, hreceived, hlimit⟩ := after_content hdata hdots hlines
  have hfits : (s.after lines).Fits line := by
    rw [Fits, hreceived, hlimit]
    exact hsum
  have hfits' : ((s.after lines).withLimit other).Fits line := by
    show (s.after lines).received + lineSize line ≤ other
    rw [hreceived]
    exact hother
  have hsame : ((s.after lines).accept line).session.sizeLimit = s.sizeLimit :=
    ((hs.after lines).accept line).settings.2
  rw [after_withLimit hdata hdots hlines (Nat.le_trans (Nat.le_add_right _ _) hother),
    accept_withLimit hgoing hfits hfits']
  exact (Turn.withLimit_withLimit hsame other).symm

/-- The line that takes the sum past the limit ends the dialogue, and nothing is left. -/
theorem accept_past (hs : Standing hostname limit s) (hdata : s.phase.isData = true)
    (hdots : ∀ l ∈ lines, l ≠ ['.']) (hsum : s.received + linesSize lines ≤ limit)
    (hpast : limit < s.received + linesSize (lines ++ [line])) :
    (s.after lines).accept line =
      { session := { hostname, sizeLimit := limit }
        answer := .tooMuchData
        notices := [.messageTooLarge] } := by
  have ht : Standing hostname limit ((s.after lines).accept line).session :=
    (hs.after lines).accept line
  obtain ⟨-, rfl⟩ := hs.settings
  rw [linesSize_append, ← Nat.add_assoc] at hpast
  obtain ⟨hgoing, hreceived, hlimit⟩ := after_content hdata hdots hsum
  have hexcess : ¬ (s.after lines).Fits line := by
    rw [Fits, hreceived, hlimit]
    exact Nat.not_le_of_lt hpast
  rw [accept_tooMuch hgoing hexcess] at ht ⊢
  exact congrArg (Turn.mk · _ _ _) (ht.of_closed rfl)

/-- A dialogue that is over refuses everything. -/
theorem accept_connect (hphase : s.phase = .connect) (line : Text) :
    s.accept line =
      { session := s, answer := .badSequence (Command.parseCommand line).verb .connect } := by
  have hspoken := Command.isSpoken_parseCommand line
  rw [accept_command (by rw [hphase]; rfl)]
  generalize Command.parseCommand line = c at hspoken
  obtain ⟨hostname, sizeLimit, phase, draft, lastField, received⟩ := s
  cases hphase
  cases c with
  | connect | headerLine | emptyLine | bodyLine | endOfData => cases hspoken
  | mail address | rcpt address => cases address <;> rfl
  | _ => rfl

theorem after_connect (hphase : s.phase = .connect) (lines : List Text) : s.after lines = s := by
  induction lines with
  | nil => rfl
  | cons line rest ih => rw [after_cons, accept_connect hphase, ih]

/-! ### A message and its limit -/

/-- Only DATA after a recipient is answered 354. -/
theorem accept_startInput (hcode : (s.accept line).answer.code? = some 354) :
    s.phase = .recipient ∧
      s.accept line = { session := {s with phase := .headers}, answer := .startInput } := by
  by_cases hdata : s.phase.isData = true
  · have hturn := dataTurn_accept hdata line
    generalize s.accept line = t at hturn hcode
    cases hturn <;> cases hcode
  · rw [accept_command (Bool.eq_false_iff.mpr hdata)] at hcode ⊢
    rw [answer_perform] at hcode
    obtain ⟨hcommand, hphase⟩ := Command.eq_data_of_answer hcode
    rw [hcommand]
    exact ⟨hphase, perform_data hphase⟩

/-- Nothing has been counted then. -/
theorem Standing.startInput (h : Standing hostname limit s)
    (hcode : (s.accept line).answer.code? = some 354) :
    (s.accept line).session.phase = .headers ∧ (s.accept line).session.received = 0 := by
  obtain ⟨hphase, haccept⟩ := accept_startInput hcode
  obtain ⟨_, _, -, hs⟩ := h.of_isAddressing (by rw [hphase]; rfl)
  rw [haccept, hs]
  exact ⟨rfl, rfl⟩

/-- **The size limit is on the sum of a message's lines.** Take any session that has just answered
354, and lines of which only the last may be a lone dot, each counted by its bytes and two more. Up to
the limit each line does what it would do with any other limit that the sum is within, however high.
The first line past the limit, be it the dot, is answered 552, delivers nothing and leaves nothing of
the message, and every line after it is answered 503 and changes nothing. The sum of a message starts
from nothing, whatever the session has been through. -/
theorem input_limited {s₀ : Session} (hreached : Reached hostname limit s₀) {start : Text}
    (hstart : (s₀.accept start).answer.code? = some 354) {lines : List Text}
    (hdots : ∀ line ∈ lines.dropLast, line ≠ ['.']) :
    let s := (s₀.accept start).session
    (s.phase = .headers ∧ s.received = 0) ∧
    ∀ earlier line later, lines = earlier ++ line :: later →
      let t := (s.after earlier).accept line
      let sum := linesSize (earlier ++ [line])
      (sum ≤ limit → ∀ other, sum ≤ other →
        t = (((s.withLimit other).after earlier).accept line).withLimit limit) ∧
      (linesSize earlier ≤ limit → limit < sum →
        (t.answer.code? = some 552 ∧ t.delivered = none ∧
          t.session = { hostname, sizeLimit := limit, phase := .connect, draft := {}
                        lastField := none, received := 0 }) ∧
        ∀ more next,
          let refused := (t.session.after more).accept next
          refused.answer.code? = some 503 ∧ refused.session = t.session ∧
            refused.delivered = none) := by
  intro s
  have hs : Standing hostname limit s := hreached.standing.accept start
  obtain ⟨hphase, hreceived⟩ := hreached.standing.startInput hstart
  have hdata : s.phase.isData = true := congrArg Phase.isData hphase
  refine ⟨⟨hphase, hreceived⟩, ?_⟩
  rintro earlier line later rfl t sum
  have hcontent : ∀ l ∈ earlier, l ≠ ['.'] := fun l hl => hdots l <| by
    rw [List.dropLast_append_of_ne_nil (List.cons_ne_nil line later)]
    exact List.mem_append_left _ hl
  have hcount (content : List Text) : s.received + linesSize content = linesSize content := by
    rw [hreceived, Nat.zero_add]
  constructor
  · intro hwithin other hother
    exact accept_within hs hdata hcontent (by rwa [hcount]) (by rwa [hcount])
  · intro hearlier hpast
    have ht : t = _ := accept_past hs hdata hcontent (by rwa [hcount]) (by rwa [hcount])
    rw [ht]
    refine ⟨⟨rfl, rfl, rfl⟩, fun more next => ?_⟩
    rw [after_connect rfl, accept_connect rfl]
    exact ⟨rfl, rfl, rfl⟩

/-- The dot takes the sum of a message past the limit. -/
theorem input_limited_dot :
    let s₀ := (greeted "mx".toList 8).after ["MAIL FROM:<a>".toList, "RCPT TO:<b>".toList]
    let s := (s₀.accept "DATA".toList).session
    let t := (s.after [[], "one".toList]).accept ['.']
    (s.after [[]]).accept "one".toList =
        (((s.withLimit 1000).after [[]]).accept "one".toList).withLimit 8 ∧
      t.answer.code? = some 552 ∧ t.delivered = none ∧
      ((t.session.after ["RSET".toList]).accept "DATA".toList).answer.code? = some 503 := by
  intro s₀ s t
  have hreached : Reached "mx".toList 8 s₀ := .line (.line (.greet .new) _) _
  have hstart : (s₀.accept "DATA".toList).answer.code? = some 354 := by decide +kernel
  obtain ⟨-, hlines⟩ := input_limited hreached hstart
    (show ∀ line ∈ [[], "one".toList, ['.']].dropLast, line ≠ ['.'] by decide)
  have hone := (hlines [[]] "one".toList [['.']] rfl).1 (by decide) 1000 (by decide)
  obtain ⟨⟨hcode, hdelivered, -⟩, hlater⟩ :=
    (hlines [[], "one".toList] ['.'] [] rfl).2 (by decide) (by decide)
  exact ⟨hone, hcode, hdelivered, (hlater _ _).1⟩

end Session
end MailCapture
