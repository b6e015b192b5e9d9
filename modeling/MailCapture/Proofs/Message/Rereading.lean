import MailCapture.Proofs.Message.Reading
import MailCapture.Proofs.Message.Writes

/-! Messages written and read again.

What reads back from a message's text is the body, and the header with names and values trimmed and
added anew (`text_reread`): so a header without blank ends reads back as it is. Reading has by then
trimmed all there is to trim, and the message read is written and read again without a change. -/
namespace MailCapture
open Message

namespace Fields

/-- What is true of all that is added is true of the header it makes. -/
theorem forall_addAll {P Q : Text → Prop} {given : List (Text × Text)}
    (hgiven : ∀ p ∈ given, P p.1 ∧ Q p.2) {fields : Fields}
    (hfields : ∀ f ∈ fields, P f.name ∧ ∀ v ∈ f.values, Q v) :
    ∀ f ∈ addAll given fields, P f.name ∧ ∀ v ∈ f.values, Q v := by
  induction given generalizing fields with
  | nil => exact hfields
  | cons p rest ih =>
    obtain ⟨⟨hname, hvalue⟩, hrest⟩ := List.forall_mem_cons.mp hgiven
    rw [addAll_cons, add_eq_update]
    refine ih hrest fun g hg => ?_
    rcases mem_update hg with rfl | ⟨f, hf, rfl | rfl⟩
    · exact ⟨hname, List.forall_mem_singleton.mpr hvalue⟩
    · exact hfields g hf
    · exact ⟨(hfields f hf).1,
        List.forall_mem_append.mpr ⟨(hfields f hf).2, List.forall_mem_singleton.mpr hvalue⟩⟩

/-- No name and no value has a blank end. -/
def Tight (fields : Fields) : Prop :=
  ∀ f ∈ fields, Text.trim f.name = f.name ∧ ∀ v ∈ f.values, Text.trim v = v

instance (fields : Fields) : Decidable fields.Tight :=
  inferInstanceAs (Decidable (∀ f ∈ fields, _ ∧ ∀ v ∈ f.values, _))

theorem Tight.pairs_eq {fields : Fields} (h : Tight fields) :
    (pairs fields).map (fun p => (Text.trim p.1, Text.trim p.2)) = pairs fields := by
  refine (List.map_congr_left fun p hp => ?_).trans (List.map_id _)
  obtain ⟨f, hf, hpair⟩ := List.mem_flatMap.mp hp
  obtain ⟨value, hvalue, rfl⟩ := List.mem_map.mp hpair
  exact Prod.ext (h f hf).1 ((h f hf).2 value hvalue)

end Fields

namespace Message
variable {m : Message}

/-- What has been read is a sound header with nothing to trim. -/
theorem sound_parse_text (h : m.fields.Writable) :
    (parse m.text).fields.Sound ∧ (parse m.text).fields.Tight := by
  let given := (Fields.pairs m.fields).map fun p => (Text.trim p.1, Text.trim p.2)
  have hgiven : ∀ p ∈ given, IsLabel p.1 ∧ IsValue p.2 ∧ Text.trim p.2 = p.2 := by
    intro p hp
    obtain ⟨p, hpairs, rfl⟩ := List.mem_map.mp hp
    obtain ⟨htag, hvalue⟩ := mem_pairs h hpairs
    exact ⟨isLabel_trim htag.colon htag.newline, isValue_trim hvalue, Text.trim_trim p.2⟩
  have hfields : ∀ f ∈ Fields.addAll given [],
      IsLabel f.name ∧ ∀ v ∈ f.values, IsValue v ∧ Text.trim v = v :=
    Fields.forall_addAll hgiven nofun
  have hformed : (Fields.addAll given []).Formed := Fields.Formed.nil.addAll given
  rw [parse_text_eq h]
  refine ⟨{
    label := fun f hf => (hfields f hf).1
    nonempty := hformed.nonempty
    value := fun f hf v hv => ((hfields f hf).2 v hv).1
    distinct := hformed.distinct }, fun f hf => ?_⟩
  exact ⟨(hfields f hf).1.trimmed, fun v hv => ((hfields f hf).2 v hv).2⟩

/-- Nothing is lost of a header that has nothing to trim. -/
theorem parse_text_tight (h : m.fields.Writable) (hformed : m.fields.Formed)
    (htight : m.fields.Tight) :
    parse m.text = ({ fields := m.fields } : Message).withLines (bodyLines (m.body ++ ['\n'])) := by
  rw [parse_text_eq h, htight.pairs_eq, Fields.addAll_pairs hformed]

/-- **A message read from its text** has the body that was written and no envelope, and its header is
made anew of the names and values, trimmed. So a header that has come about by writes, with no
blanks at the ends of its names and values, is the same again. No written file is taken for one
whose lines end with a carriage return, and a message that has been read is written and read again
as it is. -/
theorem text_reread (m : Message) :
    let r := parse m.text
    let given := (Fields.pairs m.fields).map fun p => (Text.trim p.1, Text.trim p.2)
    endsReturned m.text = false ∧
    (m.fields.Writable →
      (r.fields = Fields.addAll given [] ∧ r.body = m.body ∧
        r.sender = none ∧ r.recipients = []) ∧
      (∀ writes, m.fields = (writeAll {} writes).fields → m.fields.Tight → r.fields = m.fields) ∧
      parse r.text = r) := by
  intro r given
  refine ⟨endsReturned_text m, fun h => ?_⟩
  have hr : r = ({ fields := Fields.addAll given [] } : Message).withLines
      (bodyLines (m.body ++ ['\n'])) := parse_text_eq h
  have hbody : r.body = m.body := body_parse_text h
  refine ⟨⟨congrArg fields hr, hbody, congrArg sender hr, congrArg recipients hr⟩, ?_, ?_⟩
  · intro writes hwrites htight
    have hformed : m.fields.Formed := hwrites ▸ formed_writeAll (m := {}) .nil writes
    have hsame : r = _ := parse_text_tight h hformed htight
    rw [hsame]
    rfl
  · obtain ⟨hsound, htight⟩ := sound_parse_text h
    have hagain : parse r.text = _ := parse_text_tight hsound.writable hsound.formed htight
    rw [hagain, hbody, hr]
    rfl

/-- A name in two spellings with blanks at their ends, and carriage returns at the ends of lines. -/
def blankEnds : Message where
  fields := [⟨"\u00a0Subject".toList, [" one\r".toList, []]⟩, ⟨"subject\r".toList, ["two: ".toList]⟩]
  linesBack := ["\r".toList, ": x".toList, [], " y\r".toList]
  sender := some ['a']

/-- A field written in two spellings, with a carriage return inside. -/
def writtenTwice : List Write :=
  [.add "Subject".toList "one".toList, .extend "SUBJECT".toList "\rtwo".toList]

theorem text_reread_blankEnds :
    (blankEnds.fields.Writable ∧
      (parse blankEnds.text).fields = [⟨"Subject".toList, ["one".toList, [], "two:".toList]⟩] ∧
      (parse blankEnds.text).body = " y\r\n\n: x\n\r".toList ∧
      parse (parse blankEnds.text).text = parse blankEnds.text) ∧
    (parse (writeAll {} writtenTwice).text).fields = (writeAll {} writtenTwice).fields := by
  have hwritable : blankEnds.fields.Writable := by decide
  obtain ⟨⟨hfields, hbody, -⟩, -, hagain⟩ := (text_reread blankEnds).2 hwritable
  have hsame := ((text_reread (writeAll {} writtenTwice)).2 (by decide)).2.1
  exact ⟨⟨hwritable, hfields.trans (by decide), hbody.trans (by decide), hagain⟩,
    hsame writtenTwice rfl (by decide)⟩

end Message
end MailCapture
