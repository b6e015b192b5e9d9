import MailCapture.Proofs.Message.Reading
import MailCapture.Proofs.Wire.Uses

/-! What is delivered is what is recovered.

A session drafts nothing but sound headers, so the text of a message it delivers reads back as that
message: the same names in the same order, the same body, and under each name its values, trimmed
(`delivered_recovered`). Only a value with folds can lose anything by that, and then only blanks at
its ends; but a message may well be delivered with such a value (`fold_not_recovered`). -/
namespace MailCapture
open Message

theorem Command.newline_notMem_unstuff {line : Text} (h : '\n' ∉ line) :
    '\n' ∉ Command.unstuff line := by
  unfold Command.unstuff
  split
  · exact fun hmem => h (List.mem_cons_of_mem _ hmem)
  · exact h

namespace Session
variable {s : Session}

/-- What is drafted is a sound header, and a fold would continue a field of some name. -/
structure DraftsSound (s : Session) : Prop where
  sound : s.draft.fields.Sound
  last : ∀ name, s.lastField = some name → IsLabel name

theorem DraftsSound.discarded {phase : Phase} : DraftsSound {s.discard with phase} := ⟨.nil, nofun⟩

theorem DraftsSound.command (h : DraftsSound s) {c : Command} {t : Turn}
    (hturn : CommandTurn s c t) : DraftsSound t.session := by
  cases hturn with
  | reset => exact .discarded
  | _ => exact ⟨h.sound, h.last⟩

theorem DraftsSound.draftHeader (h : DraftsSound s) {line : Text} (hline : '\n' ∉ line) :
    DraftsSound (s.draftHeader line).1 := by
  unfold Session.draftHeader
  split
  · next _ name hfolded hlast =>
    exact ⟨h.sound.extend (h.last name hlast) hfolded hline, h.last⟩
  · exact h
  · next name value _ _ hsplit =>
    obtain ⟨hname, hvalue⟩ := splitField_sound hline hsplit
    split
    · exact h
    · refine ⟨h.sound.add hname hvalue, fun other hother => ?_⟩
      obtain rfl := Option.some.inj hother
      exact hname
  · exact h

theorem DraftsSound.data (h : DraftsSound s) {line : Text} (hline : '\n' ∉ line) {t : Turn}
    (hturn : DataTurn s line t) : DraftsSound t.session := by
  cases hturn with
  | tooMuch | dot => exact .discarded
  | emptyLine | bodyLine => exact ⟨h.sound, h.last⟩
  | headerLine hfits =>
    have hcount : DraftsSound (s.count line) := ⟨h.sound, h.last⟩
    exact hcount.draftHeader (Command.newline_notMem_unstuff hline)

/-- Headers stay sound in all that a conversation does, and so are those delivered. -/
theorem DraftsSound.law : Law DraftsSound (fun m => m.fields.Sound) where
  greet s h := by
    by_cases hphase : s.phase = .connect
    · rw [greet_connect hphase]
      exact ⟨h.sound, h.last⟩
    · rw [greet_refused hphase]
      exact h
  accept s line h hline := by
    cases hdata : s.phase.isData with
    | false => exact h.command (commandTurn_accept hdata line)
    | true => exact h.data hline (dataTurn_accept hdata line)
  breakOff _ _ _ := .discarded
  delivered s line m h _ hm := by
    obtain ⟨-, rfl⟩ := delivered_accept hm
    exact h.sound

theorem DraftsSound.connections (h : DraftsSound s) (connections : List Connection) :
    DraftsSound (s.useAll (connections.map .connection)) := by
  induction connections generalizing s with
  | nil => exact h
  | cons c rest ih => exact ih (law.run h ..).1

/-- **What is delivered is what is recovered**, but for blanks at the ends of folded values. Whatever
conversations a new session has, the text of a message it delivers reads back with the same names in
the same order, the same body and no envelope, and each value comes back trimmed. So a value that
came on one line is the same again; a value with folds is the same exactly if its first line gives
it some text and its last does not end blank. -/
theorem delivered_recovered (hostname : Text) (sizeLimit : Nat) (earlier : List Connection)
    (c : Connection) :
    let s := useAll { hostname, sizeLimit } (earlier.map .connection)
    ∀ m ∈ (s.converse c).deliveries,
      let r := parse m.text
      (r.fields.map Field.name = m.fields.map Field.name ∧ r.body = m.body ∧
        r.sender = none ∧ r.recipients = []) ∧
      ∀ name, Fields.values name r.fields = (Fields.values name m.fields).map Text.trim ∧
        ∀ value ∈ Fields.values name m.fields, ∃ first folds, Gathered value first folds ∧
          (Text.trim value = value ↔
            folds = [] ∨ first ≠ [] ∧ value.getLast?.any Text.isBlank = false) := by
  intro s m hm r
  have hnew : DraftsSound { hostname, sizeLimit } := ⟨.nil, nofun⟩
  have hsound : m.fields.Sound := (DraftsSound.law.run (hnew.connections earlier) ..).2 m hm
  obtain ⟨hfields, hbody, hsender, hrecipients⟩ := parse_text hsound
  refine ⟨⟨?_, hbody, hsender, hrecipients⟩, fun name => ⟨?_, fun value hvalue => ?_⟩⟩
  · show (parse m.text).fields.map Field.name = _
    rw [hfields, List.map_map]
    rfl
  · show Fields.values name (parse m.text).fields = _
    rw [hfields, Fields.values_trimmed]
  · obtain ⟨f, hf, hvalue⟩ := Fields.mem_values hvalue
    obtain ⟨-, first, folds, hgathered⟩ := hsound.value f hf value hvalue
    exact ⟨first, folds, hgathered, hgathered.trim_eq_self_iff⟩

/-- Two fields with a fold each, one that ends in a space and one that ends in a carriage return. -/
def folded : Connection where
  arrivals := [.bytes (Text.encode ("MAIL FROM:<a>\r\nRCPT TO:<b>\r\nDATA\r\n".toList ++
    "Subject: one\r\n two \r\nComments: three\r\n four\r\r\n\r\nbody\r\n.\r\n".toList))]

theorem delivered_recovered_folded :
    let new : Session := { hostname := "mx".toList }
    let m : Message := {
      fields := [⟨"Subject".toList, ["one two ".toList]⟩, ⟨"Comments".toList, ["three four\r".toList]⟩]
      linesBack := ["body".toList], sender := some ['a'], recipients := [['b']] }
    m ∈ (new.converse folded).deliveries ∧ (parse m.text).body = "body".toList ∧
      Fields.values "subject".toList (parse m.text).fields = ["one two".toList] := by
  intro new m
  have hm : m ∈ (new.converse folded).deliveries := by decide +kernel
  have h := delivered_recovered "mx".toList defaultSizeLimit [] folded m hm
  exact ⟨hm, h.1.2.1, (h.2 "subject".toList).1.trans (by decide +kernel)⟩

/-- What a fold ends with is delivered, and lost when the text is read back. -/
theorem fold_not_recovered :
    ∃ m ∈ (converse { hostname := "mx".toList } folded).deliveries,
      (Fields.values "Subject".toList m.fields = ["one two ".toList] ∧
        Fields.values "Subject".toList (parse m.text).fields = ["one two".toList]) ∧
      (Fields.values "Comments".toList m.fields = ["three four\r".toList] ∧
        Fields.values "Comments".toList (parse m.text).fields = ["three four".toList]) := by
  decide +kernel

end Session
end MailCapture
