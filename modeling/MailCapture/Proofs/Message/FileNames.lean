import MailCapture.Message.FileName
import MailCapture.Proofs.Disk.Inside
import MailCapture.Proofs.Text.AsciiBytes

/-! What the names of message files tell.

The name of a message file is one name of a path, never `.` or `..` and without a slash
(`isName_fileName`). It tells the number of the message (`sequence_of_fileName`) and nothing of its
body, so there are always two messages of one name with different files (`exists_other_text`).
Whatever the subject, the name is not too long and is known again for that of a message file
(`fileName_recognized`). -/
namespace MailCapture.Message

/-- The digits of a number are left as they are. -/
theorem sanitize_decimal (n : Nat) : sanitize (Text.decimal n) = Text.decimal n := by
  have hkept : ∀ c ∈ Text.decimal n, (if reservedInName.contains c then '_' else c) = c := by
    intro c hc
    have hdigit : c.isDigit = true := Text.isDigit_decimal hc
    have hreserved : reservedInName.any Char.isDigit = false := by decide
    refine if_neg fun hmem => ?_
    exact List.any_eq_false.mp hreserved c (List.contains_iff_mem.mp hmem) hdigit
  exact (List.map_congr_left hkept).trans (List.map_id' _)

theorem fileName_eq (m : Message) (k : Nat) :
    m.fileName k = Text.decimal k ++
      '_' :: (sanitize (Text.cut subjectBytes (m.subject?.getD [])) ++ ".eml".toList) := by
  rw [fileName, sanitize_append, sanitize_append, sanitize_decimal, List.append_assoc]
  rfl

/-- A number is cut off at the underscore after it, whatever follows. -/
theorem splitFirst_digits {digits : Text} (h : ∀ c ∈ digits, c.isDigit = true) (rest : Text) :
    Text.splitFirst (· = '_') (digits ++ '_' :: rest) = some (digits, rest) := by
  refine Text.splitFirst_append rest (fun c hc => decide_eq_false fun heq => ?_) rfl
  have hdigit := h c hc
  rw [heq] at hdigit
  exact absurd hdigit (by decide)

theorem splitFirst_fileName (m : Message) (k : Nat) :
    Text.splitFirst (· = '_') (m.fileName k) = some (Text.decimal k,
      sanitize (Text.cut subjectBytes (m.subject?.getD [])) ++ ".eml".toList) := by
  rw [fileName_eq, splitFirst_digits fun _ => Text.isDigit_decimal]

/-- The names of message files: digits, an underscore, anything and the ending. -/
theorem isMessageFile_iff {name : Text} : isMessageFile name = true ↔
    ∃ digits text, digits ≠ [] ∧ (∀ c ∈ digits, c.isDigit = true) ∧
      name = digits ++ '_' :: (text ++ ".eml".toList) := by
  constructor
  · intro h
    rw [isMessageFile] at h
    split at h
    · next digits rest hcut =>
      simp only [Bool.and_eq_true] at h
      obtain ⟨⟨hne, hdigits⟩, hend⟩ := h
      obtain ⟨text, htext⟩ := List.isSuffixOf_iff_suffix.mp hend
      obtain ⟨c, hc, hname, -⟩ := Text.splitFirst_eq_some hcut
      obtain rfl : c = '_' := of_decide_eq_true hc
      refine ⟨digits, text, ?_, List.all_eq_true.mp hdigits, by rw [hname, htext]⟩
      rintro rfl
      exact absurd hne (by decide)
    · cases h
  · rintro ⟨digits, text, hne, hdigits, rfl⟩
    rw [isMessageFile, splitFirst_digits hdigits]
    simp only [List.isEmpty_eq_false_iff.mpr hne, List.all_eq_true.mpr hdigits,
      List.isSuffixOf_iff_suffix.mpr (List.suffix_append text ".eml".toList), Bool.not_false,
      Bool.and_self]

theorem isMessageFile_fileName (m : Message) (k : Nat) : isMessageFile (m.fileName k) = true :=
  isMessageFile_iff.mpr
    ⟨Text.decimal k, _, Nat.toDigits_ne_nil, fun _ => Text.isDigit_decimal, fileName_eq m k⟩

/-- A name tells the number. -/
theorem sequence_of_fileName {m m' : Message} {j k : Nat} (h : m.fileName j = m'.fileName k) :
    j = k := by
  have hcut := congrArg (Text.splitFirst (· = '_')) h
  rw [splitFirst_fileName, splitFirst_fileName] at hcut
  have hdecimal : Text.decimal j = Text.decimal k := congrArg Prod.fst (Option.some.inj hcut)
  have hvalue := congrArg (Nat.ofDigitChars 10 · 0) hdecimal
  simpa only [Text.decimal, Nat.ofDigitChars_ten_toDigits] using hvalue

theorem size_sanitize (t : Text) : Text.size (sanitize t) = Text.size t := by
  induction t with
  | nil => rfl
  | cons c rest ih =>
    have hc : (if reservedInName.contains c then '_' else c).utf8Size = c.utf8Size := by
      split
      · next hmem =>
        have hsizes : reservedInName.all (·.utf8Size = 1) = true := by decide
        have hc := List.all_eq_true.mp hsizes c (List.contains_iff_mem.mp hmem)
        exact (of_decide_eq_true hc).symm
      · rfl
    show Text.size (_ :: sanitize rest) = _
    rw [Text.size, Text.size, hc, ih]

theorem size_fileName_le (m : Message) {k : Nat} (hk : k < 18446744073709551616) :
    Text.size (m.fileName k) ≤ 225 := by
  have hdigits : Text.size (Text.decimal k) ≤ 20 := Text.size_decimal_le hk
  have hsubject := Text.size_cut_le subjectBytes (m.subject?.getD [])
  have hend : Text.size ".eml".toList = 4 := by decide
  have hunderscore : '_'.utf8Size = 1 := by decide
  rw [fileName_eq, Text.size_append, Text.size, Text.size_append, size_sanitize, hend, hunderscore]
  rw [subjectBytes] at hsubject ⊢
  omega

theorem isName_fileName (m : Message) (k : Nat) :
    Path.IsName (Text.encode (m.fileName k)) := by
  have hslash : '/' ∉ m.fileName k := not_mem_sanitize (by decide) _
  have hlong : 2 < (Text.encode (m.fileName k)).length := by
    rw [fileName, sanitize_append, Text.encode_append, List.length_append]
    have hend : (Text.encode (sanitize ".eml".toList)).length = 4 := by decide
    omega
  refine ⟨Text.notMem_encode (by decide) hslash, ?_, ?_, ?_⟩
  · intro hnil
    rw [hnil] at hlong
    exact absurd hlong (by decide)
  · intro hhere
    rw [hhere] at hlong
    exact absurd hlong (by decide)
  · intro habove
    rw [habove] at hlong
    exact absurd hlong (by decide)

/-- The name of any message file on a disk. -/
theorem isName_of_isMessageFile {bytes : Bytes} {name : Text}
    (hname : Text.decode? bytes = some name) (hfile : isMessageFile name = true)
    (hslash : Path.slash ∉ bytes) : Path.IsName bytes := by
  refine ⟨hslash, ?_, ?_, ?_⟩
  · intro heq
    subst heq
    obtain rfl : [] = name := Option.some.inj hname
    exact absurd hfile (by decide)
  · intro heq
    subst heq
    obtain rfl : ['.'] = name := Option.some.inj hname
    exact absurd hfile (by decide)
  · intro heq
    subst heq
    obtain rfl : ['.', '.'] = name := Option.some.inj hname
    exact absurd hfile (by decide)

/-- **The name of a message file** is one that is recognized, whatever the subject is: the number,
an underscore, as much of the subject as fits, without the characters that a name may not hold, and
the ending. It takes at most 225 bytes, it names something in the directory and nothing above or
below it, and messages of different numbers never share one. What is recognized is just what starts
with digits and an underscore and has the ending. -/
theorem fileName_recognized (m : Message) {k : Nat} (hk : k < 18446744073709551616) :
    (isMessageFile (m.fileName k) = true ∧
      (∀ c ∈ ['\\', '/', '<', '>', '?', '*', '"', '|'], c ∉ m.fileName k) ∧
      Text.size (m.fileName k) ≤ 225 ∧
      ∃ subject, subject <+: m.subject?.getD [] ∧ Text.size subject ≤ 200 ∧
        (∀ longer, longer <+: m.subject?.getD [] → Text.size longer ≤ 200 → longer <+: subject) ∧
        m.fileName k = Text.decimal k ++ '_' :: (sanitize subject ++ ".eml".toList)) ∧
    (∀ directory,
      let path := Path.inside directory (Text.encode (m.fileName k))
      Path.names path = Path.parts directory ++ [Text.encode (m.fileName k)] ∧
      ∀ (d : Disk) place, d.Houses directory place → Path.objection? path = none →
        d.leads? .entry path = some (place ++ [Text.encode (m.fileName k)])) ∧
    (∀ (m' : Message) j, m'.fileName j = m.fileName k → j = k) ∧
    ∀ name, isMessageFile name = true ↔ ∃ digits text, digits ≠ [] ∧
      (∀ c ∈ digits, c.isDigit = true) ∧ name = digits ++ '_' :: (text ++ ".eml".toList) := by
  have hsize : Text.size (m.fileName k) ≤ 225 := size_fileName_le m hk
  have hname : Path.IsName (Text.encode (m.fileName k)) := isName_fileName m k
  refine ⟨⟨isMessageFile_fileName m k, fun c hc => not_mem_sanitize hc _, hsize,
    Text.cut subjectBytes (m.subject?.getD []), Text.cut_isPrefix _ _, Text.size_cut_le _ _,
    fun longer => Text.isPrefix_cut, fileName_eq m k⟩,
    fun directory => ⟨Path.names_inside directory hname, fun d place h hpath => ?_⟩,
    fun m' j => sequence_of_fileName, fun name => isMessageFile_iff⟩
  have hshort : (Text.encode (m.fileName k)).length ≤ Path.maxName := by
    rw [Text.length_encode]
    exact Nat.le_trans hsize (by decide)
  rw [Disk.leads?_inside h hname (.inl rfl), Disk.mayName, hpath, if_pos (by simp [hshort])]

/-- A subject that climbs out of the directory and has a character of two bytes at the cut. -/
def climbing : Message where
  fields := [⟨"subject".toList, ["../9_\"".toList ++ List.replicate 193 'x' ++ "é.eml".toList]⟩]

theorem fileName_recognized_climbing :
    climbing.fileName 18446744073709551615 =
      "18446744073709551615_.._9__".toList ++ List.replicate 193 'x' ++ ".eml".toList ∧
    isMessageFile (climbing.fileName 18446744073709551615) = true ∧
    Text.size (climbing.fileName 18446744073709551615) ≤ 225 ∧
    climbing.fileName 9 ≠ climbing.fileName 18446744073709551615 ∧
    Disk.leads? {entries := [([[109]], .directory)]} .entry
        (Path.inside [47, 109, 47] (Text.encode (climbing.fileName 18446744073709551615))) =
      some [[109], Text.encode (climbing.fileName 18446744073709551615)] := by
  obtain ⟨⟨hfile, -, hsize, -⟩, hinside, hdistinct, -⟩ :=
    fileName_recognized climbing (k := 18446744073709551615) (by decide)
  have hhouses : Disk.Houses {entries := [([[109]], .directory)]} [47, 109, 47] [[109]] :=
    ⟨by decide +kernel, by decide⟩
  refine ⟨by decide +kernel, hfile, hsize, fun heq => ?_,
    (hinside [47, 109, 47]).2 _ [[109]] hhouses (by decide +kernel)⟩
  exact absurd (hdistinct climbing 9 heq) (by decide)

/-- Whatever a file holds, some message of the same name would change it. -/
theorem exists_other_text (m : Message) (content : Bytes) :
    ∃ m' : Message, (∀ k, m'.fileName k = m.fileName k) ∧ Text.encode m'.text ≠ content := by
  by_cases h : Text.encode (m.withLines []).text = content
  · refine ⟨m.withLines [['x']], fun _ => rfl, fun h' => ?_⟩
    have htext := congrArg Text.decode (h.trans h'.symm)
    rw [Text.decode_encode, Text.decode_encode, text, text, body, body, lines_withLines,
      lines_withLines] at htext
    have hlength := congrArg List.length htext
    simp [withLines, Text.join] at hlength
  · exact ⟨m.withLines [], fun _ => rfl, h⟩

end MailCapture.Message
