import Mathlib.Data.List.Forall2
import MailCapture.Proofs.Message.Header
import MailCapture.Proofs.Message.LineEnds

/-! Messages read back from their text.

A header can be written if each of its lines reads as one (`Writable`). The text of a message with
such a header reads back as the message without its envelope, every name and value trimmed
(`parse_text_eq`); with a sound header only the values have anything to trim (`parse_text`). The
header ends at the first empty line because no line of a header is empty, and carriage returns are
kept because the newline of that empty line never follows one. -/
namespace MailCapture

/-- The same field with its values trimmed. -/
def Field.trimmed (f : Field) : Field := {f with values := f.values.map Text.trim}

namespace Fields

theorem values_trimmed (name : Text) (fields : Fields) :
    values name (fields.map Field.trimmed) = (values name fields).map Text.trim := by
  induction fields with
  | nil => rfl
  | cons f rest ih =>
    rw [List.map_cons, values, values]
    show (if Text.sameName f.name name then _ else _) = _
    split
    · rfl
    · exact ih

theorem pairs_trimmed (fields : Fields) :
    pairs (fields.map Field.trimmed) = (pairs fields).map fun p => (p.1, Text.trim p.2) := by
  rw [pairs, pairs, List.flatMap_map, List.map_flatMap]
  simp only [Field.trimmed, List.map_map, Function.comp_def]

theorem Formed.trimmed {fields : Fields} (h : Formed fields) :
    Formed (fields.map Field.trimmed) where
  distinct := List.pairwise_map.mpr h.distinct
  nonempty f hf := by
    obtain ⟨f', hf', rfl⟩ := List.mem_map.mp hf
    exact fun hnil => h.nonempty f' hf' (List.map_eq_nil_iff.mp hnil)

end Fields

/-! ### Headers that can be written -/

/-- A name that reads back from the line it starts: it ends at its colon, and the line is no fold. -/
structure Message.IsTag (name : Text) : Prop where
  colon : ':' ∉ name
  newline : '\n' ∉ name
  unfolded : isFolded name = false

instance (name : Text) : Decidable (Message.IsTag name) :=
  decidable_of_iff (':' ∉ name ∧ '\n' ∉ name ∧ Message.isFolded name = false)
    ⟨fun ⟨colon, newline, unfolded⟩ => ⟨colon, newline, unfolded⟩,
      fun h => ⟨h.colon, h.newline, h.unfolded⟩⟩

theorem Message.IsLabel.isTag {name : Text} (h : IsLabel name) : IsTag name where
  colon := h.colon
  newline := h.newline
  unfolded := by
    cases name with
    | nil => rfl
    | cons c rest => exact isFolded_of_head (Text.head_of_trim h.trimmed) rest

structure Fields.Writable (fields : Fields) : Prop where
  tag : ∀ f ∈ fields, Message.IsTag f.name
  value : ∀ f ∈ fields, ∀ v ∈ f.values, '\n' ∉ v

instance (fields : Fields) : Decidable fields.Writable :=
  decidable_of_iff
    ((∀ f ∈ fields, Message.IsTag f.name) ∧ ∀ f ∈ fields, ∀ v ∈ f.values, '\n' ∉ v)
    ⟨fun ⟨tag, value⟩ => ⟨tag, value⟩, fun h => ⟨h.tag, h.value⟩⟩

theorem Fields.Sound.writable {fields : Fields} (h : fields.Sound) : fields.Writable where
  tag f hf := (h.label f hf).isTag
  value f hf v hv := (h.value f hf v hv).1

namespace Message

/-! ### The end of the header -/

theorem flatMap_newline {lines : List Text} (hne : lines ≠ []) :
    lines.flatMap (· ++ ['\n']) = Text.join '\n' lines ++ ['\n'] := by
  induction lines with
  | nil => exact absurd rfl hne
  | cons line more ih =>
    rw [List.flatMap_cons]
    by_cases hmore : more = []
    · subst hmore
      exact List.append_nil _
    · rw [ih hmore, Text.join_cons hmore, List.append_assoc, List.append_assoc]
      rfl

/-- An empty line is past what holds no newline. -/
theorem emptyLine_past {line rest : Text} (hline : '\n' ∉ line)
    (h : ['\n', '\n'] <:+: line ++ rest) : ['\n', '\n'] <:+: rest := by
  induction line with
  | nil => exact h
  | cons c more ih =>
    rw [List.mem_cons, not_or] at hline
    refine ih hline.2 ((List.infix_cons_iff.mp h).resolve_left fun hstart => ?_)
    exact hline.1 (List.cons_prefix_cons.mp hstart).1

/-- Lines that are not empty have no empty line among them. -/
theorem no_emptyLine {lines : List Text} (h : ∀ line ∈ lines, line ≠ [] ∧ '\n' ∉ line) :
    ¬ ['\n', '\n'] <:+: lines.flatMap (· ++ ['\n']) := by
  induction lines with
  | nil => simp
  | cons line more ih =>
    obtain ⟨⟨-, hline⟩, hmore⟩ := List.forall_mem_cons.mp h
    rw [List.flatMap_cons, List.append_assoc, List.singleton_append]
    intro hempty
    rcases List.infix_cons_iff.mp (emptyLine_past hline hempty) with hstart | hlater
    · -- The newline that ends the line is followed by the next line, which is not empty.
      cases more with
      | nil => simp at hstart
      | cons next others =>
        obtain ⟨⟨hne, hnext⟩, -⟩ := List.forall_mem_cons.mp hmore
        obtain ⟨c, tail, rfl⟩ := List.exists_cons_of_ne_nil hne
        have hc : '\n' = c := by simpa using hstart
        exact hnext (hc ▸ List.mem_cons_self)
    · exact ih hmore hlater

theorem splitHeader_join {lines : List Text} (hne : lines ≠ [])
    (h : ∀ line ∈ lines, line ≠ [] ∧ '\n' ∉ line) (rest : Text) :
    splitHeader (Text.join '\n' lines ++ '\n' :: '\n' :: rest) =
      (Text.join '\n' lines, rest) := by
  have hfirst := no_emptyLine h
  rw [flatMap_newline hne] at hfirst
  refine (Divided.emptyLine (fun hhead => ?_) rfl hfirst).splitHeader_eq
  obtain ⟨line, more, rfl⟩ := List.exists_cons_of_ne_nil hne
  obtain ⟨hline, hnewline⟩ := h line List.mem_cons_self
  obtain ⟨c, tail, rfl⟩ := List.exists_cons_of_ne_nil hline
  have hc : c = '\n' := by
    cases more <;> exact Option.some.inj hhead
  exact hnewline (hc ▸ List.mem_cons_self)

/-! ### Texts of messages -/

/-- The header lines of a message's text. -/
def fieldLines (fields : Fields) : List Text :=
  (Fields.pairs fields).map fun p => fieldLine p.1 p.2

theorem text_eq (m : Message) :
    m.text = (fieldLines m.fields).flatMap (· ++ ['\n']) ++ '\n' :: (m.body ++ ['\n']) := by
  rw [text, List.append_assoc, fieldLines, List.flatMap_map, List.cons_append]
  congr 2
  funext p
  simp [fieldLine]

variable {m : Message}

theorem mem_pairs {fields : Fields} (h : fields.Writable) {p : Text × Text}
    (hp : p ∈ Fields.pairs fields) : IsTag p.1 ∧ '\n' ∉ p.2 := by
  obtain ⟨f, hf, hpair⟩ := List.mem_flatMap.mp hp
  obtain ⟨value, hvalue, rfl⟩ := List.mem_map.mp hpair
  exact ⟨h.tag f hf, h.value f hf value hvalue⟩

theorem mem_fieldLines {fields : Fields} (h : fields.Writable) :
    ∀ line ∈ fieldLines fields, line ≠ [] ∧ '\n' ∉ line := by
  intro line hline
  obtain ⟨p, hp, rfl⟩ := List.mem_map.mp hline
  obtain ⟨htag, hvalue⟩ := mem_pairs h hp
  exact ⟨List.append_ne_nil_of_right_ne_nil _ (List.cons_ne_nil _ _),
    newline_notMem_fieldLine htag.newline hvalue⟩

/-- The line ends of a written file are newlines alone. -/
theorem endsReturned_text (m : Message) : endsReturned m.text = false := by
  rw [text_eq]
  by_cases hlines : fieldLines m.fields = []
  · rw [hlines]
    rfl
  · rw [flatMap_newline hlines, List.append_assoc, List.singleton_append]
    exact endsReturned_emptyLine ..

/-- So it keeps its carriage returns. -/
theorem normalize_text (m : Message) : normalize m.text = m.text := by
  rw [normalize, endsReturned_text, if_neg Bool.false_ne_true]

theorem splitHeader_text (h : m.fields.Writable) :
    splitHeader m.text = (Text.join '\n' (fieldLines m.fields), m.body ++ ['\n']) := by
  have hlines := mem_fieldLines h
  rw [text_eq]
  generalize fieldLines m.fields = lines at hlines
  by_cases hne : lines = []
  · rw [hne]
    rfl
  · rw [flatMap_newline hne, List.append_assoc, List.singleton_append]
    exact splitHeader_join hne hlines _

/-! ### Header lines -/

/-- A line that gives a name and a value. -/
structure Reads (line : Text) (p : Text × Text) : Prop where
  unfolded : isFolded line = false
  split : splitField line = some p

theorem readHeader_reads {lines : List Text} {given : List (Text × Text)}
    (h : List.Forall₂ Reads lines given) (m : Message) (last : Option Text) :
    readHeader m last lines =
      {m with fields := Fields.addAll given m.fields} := by
  induction h generalizing m last with
  | nil => rfl
  | @cons line p lines given hline hrest ih =>
    obtain ⟨name, value⟩ := p
    simp only [readHeader, hline.unfolded, hline.split, Bool.false_eq_true, if_false]
    exact ih (m.addField name value) (some name)

theorem reads_fieldLine {name : Text} (hname : IsTag name) (value : Text) :
    Reads (fieldLine name value) (Text.trim name, Text.trim value) where
  unfolded := by
    cases name with
    | nil => exact isFolded_of_head (by decide) _
    | cons c rest => exact hname.unfolded
  split := splitField_of_colon hname.colon value

/-- A carriage return at the end of the line makes no difference, as the value is trimmed. -/
theorem reads_dropFinal {name : Text} (hname : IsTag name) (value : Text) :
    Reads (Text.dropFinal '\r' (fieldLine name value)) (Text.trim name, Text.trim value) := by
  unfold Text.dropFinal
  split
  · next hlast =>
    rcases List.eq_nil_or_concat value with rfl | ⟨before, c, rfl⟩
    · simp [fieldLine] at hlast
    · have hline : fieldLine name (before.concat c) = fieldLine name before ++ [c] := by
        simp [fieldLine]
      rw [hline, List.getLast?_concat] at hlast
      obtain rfl := Option.some.inj hlast
      rw [hline, List.dropLast_concat, List.concat_eq_append, Text.trim_concat_blank (by decide)]
      exact reads_fieldLine hname before
  · exact reads_fieldLine hname value

theorem lines_join {lines : List Text} {last : Text} (hne : last ≠ [])
    (h : ∀ line ∈ lines ++ [last], '\n' ∉ line) :
    Text.lines (Text.join '\n' (lines ++ [last])) =
      lines.map (Text.dropFinal '\r') ++ [last] := by
  have hsplit := Text.split_join (by simp) h
  simp [Text.lines, hsplit, hne]

/-- The lines of a header read as its names and values, trimmed. -/
theorem reads_lines {fields : Fields} (h : fields.Writable) :
    List.Forall₂ Reads (Text.lines (Text.join '\n' (fieldLines fields)))
      ((Fields.pairs fields).map fun p => (Text.trim p.1, Text.trim p.2)) := by
  have hpairs : ∀ p ∈ Fields.pairs fields, IsTag p.1 := fun p hp => (mem_pairs h hp).1
  have hlines := mem_fieldLines h
  unfold fieldLines at hlines ⊢
  generalize Fields.pairs fields = given at hpairs hlines
  rcases List.eq_nil_or_concat given with rfl | ⟨before, last, rfl⟩
  · exact .nil
  · simp only [List.concat_eq_append] at hpairs hlines ⊢
    rw [List.map_append, List.map_singleton] at hlines ⊢
    rw [lines_join (hlines _ (by simp)).1 fun line hline => (hlines line hline).2, List.map_append,
      List.map_map]
    refine List.rel_append ?_ (.cons (reads_fieldLine (hpairs last (by simp)) _) .nil)
    rw [List.forall₂_map_left_iff, List.forall₂_map_right_iff, List.forall₂_same]
    exact fun p hp => reads_dropFinal (hpairs p (List.mem_append_left _ hp)) _

/-! ### Messages -/

/-- **A message's text reads back** as its names and values, trimmed and added one by one, with the
lines of its body. -/
theorem parse_text_eq (h : m.fields.Writable) :
    parse m.text =
      ({ fields := Fields.addAll
          ((Fields.pairs m.fields).map fun p => (Text.trim p.1, Text.trim p.2)) [] } :
        Message).withLines (bodyLines (m.body ++ ['\n'])) := by
  rw [parse, normalize_text, splitHeader_text h]
  exact congrArg (withLines · _) (readHeader_reads (reads_lines h) {} none)

theorem body_parse_text (h : m.fields.Writable) : (parse m.text).body = m.body := by
  rw [body_parse, normalize_text, splitHeader_text h]
  simp [Text.dropFinal]

/-- **With a sound header**, it reads back with every value trimmed. -/
theorem parse_text (h : m.fields.Sound) :
    (parse m.text).fields = m.fields.map Field.trimmed ∧ (parse m.text).body = m.body ∧
      (parse m.text).sender = none ∧ (parse m.text).recipients = [] := by
  have htrimmed : (Fields.pairs m.fields).map (fun p => (Text.trim p.1, Text.trim p.2)) =
      Fields.pairs (m.fields.map Field.trimmed) := by
    rw [Fields.pairs_trimmed]
    refine List.map_congr_left fun p hp => ?_
    obtain ⟨f, hf, hpair⟩ := List.mem_flatMap.mp hp
    obtain ⟨value, -, rfl⟩ := List.mem_map.mp hpair
    exact congrArg (·, Text.trim value) (h.label f hf).trimmed
  have hbody := body_parse_text h.writable
  rw [parse_text_eq h.writable, htrimmed, Fields.addAll_pairs h.formed.trimmed] at hbody ⊢
  exact ⟨rfl, hbody, rfl, rfl⟩

end Message
end MailCapture
