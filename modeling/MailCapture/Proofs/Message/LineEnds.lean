import Mathlib.Data.List.Infix
import MailCapture.Message.File

/-! The line ends of files.

A file may end its lines with a newline or, all of them, with a carriage return and a newline
(`endsReturned_iff`): what is read is the same (`normalize_addReturns`). One newline that stands
alone decides it. The file is then read as it is, and its body is what follows its header, every
carriage return included. Where the header ends is said apart from how it is found (`Divided`). -/
namespace MailCapture.Message
variable {t header rest : Text}

/-! ### Carriage returns -/

/-- A newline stands first or further on. -/
theorem forall_newline_cons {P : Text → Prop} {c : Char} {rest : Text} :
    (∀ before after, c :: rest = before ++ '\n' :: after → P before) ↔
      (c = '\n' → P []) ∧ ∀ before after, rest = before ++ '\n' :: after → P (c :: before) := by
  constructor
  · intro h
    refine ⟨fun hc => h [] rest (by rw [hc]; rfl), fun before after heq => ?_⟩
    exact h (c :: before) after (by rw [heq]; rfl)
  · rintro ⟨hfirst, hfurther⟩ before after heq
    cases before with
    | nil => exact hfirst (List.cons.inj heq).1
    | cons d more =>
      obtain ⟨rfl, hrest⟩ := List.cons.inj heq
      exact hfurther more after hrest

/-- What the scan for carriage returns answers, past the part of a text it has `seen`. -/
theorem endsReturnedFrom_iff (seen : Text) (found : Bool) (t : Text) :
    endsReturnedFrom (seen.getLast? = some '\r') found t = true ↔
      (found = true ∨ '\n' ∈ t) ∧ ∀ before after, t = before ++ '\n' :: after →
        (seen ++ before).getLast? = some '\r' := by
  induction t generalizing seen found with
  | nil => simp [endsReturnedFrom]
  | cons c rest ih =>
    have hseen : decide ((seen ++ [c]).getLast? = some '\r') = decide (c = '\r') := by simp
    have hrest := ih (seen ++ [c])
    simp only [hseen, List.append_assoc, List.singleton_append] at hrest
    rw [forall_newline_cons, List.append_nil]
    by_cases hc : c = '\n'
    · subst hc
      have hfound := hrest true
      rw [decide_eq_false (by decide)] at hfound
      rw [endsReturnedFrom, Bool.and_eq_true, hfound]
      simp
    · rw [endsReturnedFrom, hrest]
      · simp [hc, Ne.symm hc]
      · exact hc

/-- A text ends its lines with a carriage return and a newline if there is a newline and none stands
alone. -/
theorem endsReturned_iff {t : Text} : endsReturned t = true ↔
    '\n' ∈ t ∧ ∀ before after, t = before ++ '\n' :: after → before.getLast? = some '\r' := by
  simpa [endsReturned] using endsReturnedFrom_iff [] false t

theorem endsReturned_of_alone {before : Text} (h : before.getLast? ≠ some '\r') (after : Text) :
    endsReturned (before ++ '\n' :: after) = false :=
  Bool.eq_false_iff.mpr fun hends => h ((endsReturned_iff.mp hends).2 before after rfl)

/-- The newline of an empty line does not follow a carriage return. -/
theorem endsReturned_emptyLine (before after : Text) :
    endsReturned (before ++ '\n' :: '\n' :: after) = false := by
  have halone : endsReturned ((before ++ ['\n']) ++ '\n' :: after) = false :=
    endsReturned_of_alone (by simp) after
  rwa [List.append_assoc] at halone

/-! ### Carriage returns added -/

/-- A text with a carriage return before each of its newlines. -/
def addReturns (t : Text) : Text := t.flatMap fun c => if c = '\n' then ['\r', '\n'] else [c]

theorem addReturns_newline (t : Text) : addReturns ('\n' :: t) = '\r' :: '\n' :: addReturns t := rfl

theorem addReturns_cons {c : Char} (h : c ≠ '\n') (t : Text) :
    addReturns (c :: t) = c :: addReturns t := by
  rw [addReturns, List.flatMap_cons, if_neg h]
  rfl

theorem addReturns_of_notMem (h : '\n' ∉ t) : addReturns t = t := by
  induction t with
  | nil => rfl
  | cons c rest ih =>
    rw [List.mem_cons, not_or] at h
    rw [addReturns_cons (Ne.symm h.1), ih h.2]

/-- No newline comes first, as its carriage return does. -/
theorem head?_addReturns (t : Text) : (addReturns t).head? ≠ some '\n' := by
  cases t with
  | nil => exact nofun
  | cons c rest =>
    by_cases hc : c = '\n'
    · rw [hc, addReturns_newline]
      exact fun h => absurd (Option.some.inj h) (by decide)
    · rw [addReturns_cons hc]
      exact fun h => hc (Option.some.inj h)

/-- What has been added is dropped again. Carriage returns of the text itself stay: the newline they
stand before has got another one. -/
theorem dropReturns_addReturns (t : Text) : dropReturns (addReturns t) = t := by
  induction t with
  | nil => rfl
  | cons c rest ih =>
    by_cases hc : c = '\n'
    · rw [hc, addReturns_newline, dropReturns, ih]
    · rw [addReturns_cons hc, dropReturns, ih]
      rintro rest' - heq
      exact head?_addReturns rest (by rw [heq]; rfl)

theorem endsReturnedFrom_addReturns (returned found : Bool) (t : Text) :
    endsReturnedFrom returned found (addReturns t) = true ↔ found = true ∨ '\n' ∈ t := by
  induction t generalizing returned found with
  | nil => simp [addReturns, endsReturnedFrom]
  | cons c rest ih =>
    by_cases hc : c = '\n'
    · simp [hc, addReturns_newline, endsReturnedFrom, ih]
    · rw [addReturns_cons hc, endsReturnedFrom, ih]
      · simp [Ne.symm hc]
      · exact hc

theorem normalize_addReturns (t : Text) : normalize (addReturns t) = t := by
  rw [normalize]
  split
  · exact dropReturns_addReturns t
  · next hends =>
    have hnone : '\n' ∉ t := fun h =>
      hends ((endsReturnedFrom_addReturns false false t).mpr (.inr h))
    exact addReturns_of_notMem hnone

/-! ### Nothing to normalize -/

theorem normalize_of_alone {before : Text} (h : before.getLast? ≠ some '\r') (after : Text) :
    normalize (before ++ '\n' :: after) = before ++ '\n' :: after := by
  rw [normalize, endsReturned_of_alone h, if_neg Bool.false_ne_true]

theorem normalize_of_notInfix (h : ¬ ['\r', '\n'] <:+: t) : normalize t = t := by
  refine if_neg fun hends => h ?_
  obtain ⟨hnewline, hreturned⟩ := endsReturned_iff.mp hends
  obtain ⟨before, after, rfl⟩ := List.append_of_mem hnewline
  obtain ⟨start, rfl⟩ := List.getLast?_eq_some_iff.mp (hreturned before after rfl)
  exact ⟨start, after, by simp⟩

/-! ### Where the header ends -/

/-- The header of a text, and the rest that its body is read from. -/
inductive Divided (t : Text) : (header rest : Text) → Prop where
  /-- There is no header, only the empty line that would end it. -/
  | bare {rest : Text} : t = '\n' :: rest → Divided t [] rest
  /-- The newline that ends the header is the first that another one follows. -/
  | emptyLine {header rest : Text} : t.head? ≠ some '\n' → t = header ++ '\n' :: '\n' :: rest →
      ¬ ['\n', '\n'] <:+: header ++ ['\n'] → Divided t header rest
  /-- All is header. -/
  | whole : t.head? ≠ some '\n' → ¬ ['\n', '\n'] <:+: t → Divided t t []

/-- Short of an empty line, the cut goes on with the next character. -/
theorem splitAtEmptyLine_cons {c : Char} {t : Text} (h : ¬ ['\n', '\n'] <+: c :: t) :
    splitAtEmptyLine (c :: t) = (c :: (splitAtEmptyLine t).1, (splitAtEmptyLine t).2) := by
  rw [splitAtEmptyLine]
  rintro rest rfl rfl
  exact h ⟨rest, rfl⟩

/-- Whether an empty line follows a character shows up to the next newline. -/
theorem startsEmptyLine_iff (c : Char) (more rest : Text) :
    ['\n', '\n'] <+: c :: (more ++ '\n' :: rest) ↔ ['\n', '\n'] <+: c :: (more ++ ['\n']) := by
  cases more <;> simp

theorem splitAtEmptyLine_first (h : ¬ ['\n', '\n'] <:+: header ++ ['\n']) (rest : Text) :
    splitAtEmptyLine (header ++ '\n' :: '\n' :: rest) = (header, rest) := by
  induction header with
  | nil => rfl
  | cons c more ih =>
    rw [List.cons_append, List.infix_cons_iff, not_or] at h
    have hstart := mt (startsEmptyLine_iff c more ('\n' :: rest)).mp h.1
    rw [List.cons_append, splitAtEmptyLine_cons hstart, ih h.2]

theorem splitAtEmptyLine_whole (h : ¬ ['\n', '\n'] <:+: t) : splitAtEmptyLine t = (t, []) := by
  induction t with
  | nil => rfl
  | cons c more ih =>
    rw [List.infix_cons_iff, not_or] at h
    rw [splitAtEmptyLine_cons h.1, ih h.2]

theorem splitHeader_of_head (h : t.head? ≠ some '\n') : splitHeader t = splitAtEmptyLine t := by
  rw [splitHeader]
  rintro rest rfl
  exact h rfl

/-- A text is divided in one way only, the way it is split. -/
theorem Divided.splitHeader_eq (h : Divided t header rest) : splitHeader t = (header, rest) := by
  cases h with
  | bare heq => rw [heq, splitHeader]
  | emptyLine hhead heq hfirst =>
    rw [splitHeader_of_head hhead, heq, splitAtEmptyLine_first hfirst]
  | whole hhead hnone => rw [splitHeader_of_head hhead, splitAtEmptyLine_whole hnone]

/-- Of the empty lines of a text one is the first. -/
theorem exists_firstEmptyLine (h : ['\n', '\n'] <:+: t) :
    ∃ header rest, t = header ++ '\n' :: '\n' :: rest ∧ ¬ ['\n', '\n'] <:+: header ++ ['\n'] := by
  induction t with
  | nil => simp at h
  | cons c more ih =>
    by_cases hstart : ['\n', '\n'] <+: c :: more
    · obtain ⟨rest, hrest⟩ := hstart
      exact ⟨[], rest, hrest.symm, by decide⟩
    · obtain ⟨header, rest, rfl, hfirst⟩ := ih ((List.infix_cons_iff.mp h).resolve_left hstart)
      refine ⟨c :: header, rest, rfl, ?_⟩
      rw [List.cons_append, List.infix_cons_iff, not_or]
      exact ⟨mt (startsEmptyLine_iff c header ('\n' :: rest)).mpr hstart, hfirst⟩

theorem exists_divided (t : Text) : ∃ header rest, Divided t header rest := by
  by_cases hhead : t.head? = some '\n'
  · obtain ⟨rest, heq⟩ := List.head?_eq_some_iff.mp hhead
    exact ⟨[], rest, .bare heq⟩
  · by_cases hempty : ['\n', '\n'] <:+: t
    · obtain ⟨header, rest, heq, hfirst⟩ := exists_firstEmptyLine hempty
      exact ⟨header, rest, .emptyLine hhead heq hfirst⟩
    · exact ⟨t, [], .whole hhead hempty⟩

/-! ### Files -/

/-- The lines of a body are all of it but a final newline. -/
theorem join_bodyLines (body : Text) :
    Text.join '\n' (bodyLines body) = Text.dropFinal '\n' body := by
  rw [bodyLines]
  split
  · next hnone => exact hnone.symm
  · exact Text.join_split '\n' _

theorem body_parse (t : Text) :
    (parse t).body = Text.dropFinal '\n' (splitHeader (normalize t)).2 := by
  rw [parse, body, lines_withLines, join_bodyLines]

/-- **The line ends of a file make no difference**, as long as they are all of one kind: a text that
holds no carriage return before a newline reads the same, header and lines of the body, with one
before every newline. If some newline has none, the carriage returns that others have are text.
Nothing is normalized then, and the body is what follows the header less one final newline. -/
theorem lineEnds_read (t : Text) :
    (¬ ['\r', '\n'] <:+: t → parse (addReturns t) = parse t) ∧
    ∀ before after, t = before ++ '\n' :: after → before.getLast? ≠ some '\r' →
      normalize t = t ∧ (∃ header rest, Divided t header rest) ∧
        ∀ header rest, Divided t header rest → (parse t).body = Text.dropFinal '\n' rest := by
  constructor
  · intro h
    rw [parse, parse, normalize_addReturns, normalize_of_notInfix h]
  · intro before after heq hlast
    have hnormal : normalize t = t := by rw [heq, normalize_of_alone hlast]
    refine ⟨hnormal, exists_divided t, fun header rest hdivided => ?_⟩
    rw [body_parse, hnormal, hdivided.splitHeader_eq]

/-- Carriage returns after newlines, at the start of a fold and of a line of the body. -/
def returnsAfter : Text := "Subject: a\n\rb\nTo\n: c\n\n\rone\r \n\n".toList

/-- An empty line of each kind. -/
def mixedEnds : Text := "To: a\r\n\r\nb\n\nc\r\n".toList

theorem lineEnds_read_mixed :
    (parse (addReturns returnsAfter) = parse returnsAfter ∧
      (parse returnsAfter).fields = [⟨"Subject".toList, ["a\rb".toList]⟩, ⟨[], [['c']]⟩] ∧
      (parse returnsAfter).lines = ["\rone\r ".toList, []]) ∧
    normalize mixedEnds = mixedEnds ∧ (parse mixedEnds).body = "c\r".toList := by
  have hsame := (lineEnds_read returnsAfter).1 (by decide)
  obtain ⟨hnormal, -, hbody⟩ :=
    (lineEnds_read mixedEnds).2 "To: a\r\n\r\nb".toList "\nc\r\n".toList (by decide) (by decide)
  have hdivided : Divided mixedEnds "To: a\r\n\r\nb".toList "c\r\n".toList :=
    .emptyLine (by decide) (by decide) (by decide)
  exact ⟨⟨hsame, by decide, by decide⟩, hnormal, hbody _ _ hdivided⟩

end MailCapture.Message
