import MailCapture.Proofs.Message.Reading
import MailCapture.Proofs.Session.Transcript

/-! Header lines, sent and in a file.

A session takes header lines as they come (`after_headerLines`) and `parse` reads those of a file
(`fields_parse_join`). Both amount to the rules of `Header.take`, so a header comes out the same either
way (`header_parsed`): they agree at every line on the field that a fold would continue. -/
namespace MailCapture
open Message

/-- A header line that can stand in a file as it is sent. -/
structure IsHeaderLine (line : Text) : Prop where
  nonempty : line ≠ []
  newline : '\n' ∉ line
  dot : line.head? ≠ some '.'
  colon : line.head? ≠ some ':'
  returned : line.getLast? ≠ some '\r'

instance (line : Text) : Decidable (IsHeaderLine line) :=
  decidable_of_iff (line ≠ [] ∧ '\n' ∉ line ∧ line.head? ≠ some '.' ∧ line.head? ≠ some ':' ∧
      line.getLast? ≠ some '\r')
    ⟨fun ⟨nonempty, newline, dot, colon, returned⟩ => ⟨nonempty, newline, dot, colon, returned⟩,
      fun h => ⟨h.nonempty, h.newline, h.dot, h.colon, h.returned⟩⟩

variable {lines : List Text}

/-! ### Sent -/

theorem Command.unstuff_of_head {line : Text} (h : line.head? ≠ some '.') : unstuff line = line := by
  unfold unstuff
  split
  · exact absurd rfl h
  · rfl

namespace Session
variable {s : Session}

theorem accept_header (hphase : s.phase = .headers) {line : Text} (hline : IsHeaderLine line)
    (hfits : s.Fits line) :
    (s.accept line).session = {s.count line with
      draft := {s.draft with fields := (Header.take ⟨s.draft.fields, s.lastField⟩ line).fields}
      lastField := (Header.take ⟨s.draft.fields, s.lastField⟩ line).last} := by
  have hdot : line ≠ ['.'] := fun heq => hline.dot (by rw [heq]; rfl)
  rw [accept_headerLine hphase hfits hdot hline.nonempty, Command.unstuff_of_head hline.dot,
    draftHeader_eq_take]
  rfl

/-- Header lines are taken into the header and counted. They touch nothing else. -/
theorem after_headerLines (hphase : s.phase = .headers) (hlines : ∀ line ∈ lines, IsHeaderLine line)
    (hsum : s.received + linesSize lines ≤ s.sizeLimit) :
    s.after lines = {s with
      draft := {s.draft with
        fields := (lines.foldl Header.take ⟨s.draft.fields, s.lastField⟩).fields}
      lastField := (lines.foldl Header.take ⟨s.draft.fields, s.lastField⟩).last
      received := s.received + linesSize lines} := by
  induction lines generalizing s with
  | nil => rfl
  | cons line rest ih =>
    obtain ⟨hline, hrest⟩ := List.forall_mem_cons.mp hlines
    rw [linesSize, ← Nat.add_assoc] at hsum ⊢
    have hfits : s.Fits line := Nat.le_trans (Nat.le_add_right _ _) hsum
    rw [after_cons, accept_header hphase hline hfits]
    exact ih hphase hrest hsum

/-- There is no field to continue before the first. -/
theorem Collecting.lastField {hostname : Text} {sizeLimit : Nat} (h : Collecting hostname sizeLimit s)
    (hfields : s.draft.fields = []) : s.lastField = none := by
  cases hlast : s.lastField with
  | none => rfl
  | some name =>
    have hvalues := h.continued name hlast
    rw [hfields] at hvalues
    exact absurd rfl hvalues

end Session

namespace Message

/-! ### In a file -/

/-- The rule about a colon at the start of a line is the session's alone. -/
theorem readHeader_eq_take (hlines : ∀ line ∈ lines, line.head? ≠ some ':') (m : Message)
    (last : Option Text) :
    readHeader m last lines =
      {m with fields := (lines.foldl Header.take ⟨m.fields, last⟩).fields} := by
  induction lines generalizing m last with
  | nil => rfl
  | cons line rest ih =>
    obtain ⟨hcolon, hrest⟩ := List.forall_mem_cons.mp hlines
    simp only [readHeader, List.foldl_cons, Header.take, hcolon, if_false]
    split
    · cases last <;> exact ih hrest _ _
    · cases splitField line <;> exact ih hrest _ _

/-- Lines that do not end in a carriage return are the lines of what they join to. -/
theorem lines_join_self (hlines : ∀ line ∈ lines, IsHeaderLine line) :
    Text.lines (Text.join '\n' lines) = lines := by
  rcases List.eq_nil_or_concat lines with rfl | ⟨before, last, rfl⟩
  · rfl
  · rw [List.concat_eq_append] at hlines ⊢
    rw [lines_join (hlines last (by simp)).nonempty fun line hline => (hlines line hline).newline]
    congr 1
    refine (List.map_congr_left fun line hline => ?_).trans (List.map_id _)
    exact if_neg (hlines line (List.mem_append_left _ hline)).returned

theorem fields_parse_join (hlines : ∀ line ∈ lines, IsHeaderLine line) :
    (parse (Text.join '\n' lines ++ ['\n', '\n'])).fields = (Header.ofLines lines).fields := by
  have hnormal : normalize (Text.join '\n' lines ++ ['\n', '\n']) =
      Text.join '\n' lines ++ ['\n', '\n'] := by
    rw [normalize, endsReturned_emptyLine, if_neg Bool.false_ne_true]
  have hsplit : (splitHeader (Text.join '\n' lines ++ ['\n', '\n'])).1 = Text.join '\n' lines := by
    by_cases hne : lines = []
    · rw [hne]
      rfl
    · rw [splitHeader_join hne fun line hl => ⟨(hlines line hl).nonempty, (hlines line hl).newline⟩]
  simp only [parse, hnormal, hsplit, lines_join_self hlines]
  rw [readHeader_eq_take fun line hl => (hlines line hl).colon]
  rfl

end Message

namespace Session

/-! ### Either -/

/-- **A header is read alike from a client and from a file.** Give any session that is in the header
of a message and has no field yet lines that would do for a file, within its size limit. It is still
in the header, and has drafted the fields that a file with those lines has. -/
theorem header_parsed {hostname : Text} {limit : Nat} {s : Session}
    (hreached : Reached hostname limit s) (hphase : s.phase = .headers)
    (hfields : s.draft.fields = []) (hlines : ∀ line ∈ lines, IsHeaderLine line)
    (hsum : s.received + linesSize lines ≤ limit) :
    (s.after lines).phase = .headers ∧
      (s.after lines).draft.fields = (parse (Text.join '\n' lines ++ ['\n', '\n'])).fields := by
  have hcollecting : Collecting hostname limit s :=
    hreached.standing.of_isData (by rw [hphase]; rfl)
  rw [fields_parse_join hlines,
    after_headerLines hphase hlines (by rw [hcollecting.settings.2]; exact hsum), hfields,
    hcollecting.lastField hfields]
  exact ⟨hphase, rfl⟩

/-- Lines with nothing to continue, a colon in a fold, a name in other letters, and no colon. -/
theorem header_parsed_folds :
    let s := (greeted "mx".toList 100).after
      ["MAIL FROM:<a>".toList, "RCPT TO:<b>".toList, "DATA".toList]
    let lines := [" lost".toList, "To: a".toList, "\tcc: b".toList, "Date: c".toList, "none".toList,
      "TO: d".toList, " e".toList]
    (s.after lines).draft.fields = (parse (Text.join '\n' lines ++ ['\n', '\n'])).fields ∧
      (s.after lines).draft.fields =
        [⟨"To".toList, ["a\tcc: b".toList, "d e".toList]⟩, ⟨"Date".toList, ["c".toList]⟩] := by
  intro s lines
  have hreached : Reached "mx".toList 100 s := .line (.line (.line (.greet .new) _) _) _
  obtain ⟨-, hparsed⟩ :=
    header_parsed hreached (show s.phase = .headers by decide +kernel) (by decide +kernel)
      (show ∀ line ∈ lines, IsHeaderLine line by decide) (by decide +kernel)
  exact ⟨hparsed, by decide +kernel⟩

end Session
end MailCapture
