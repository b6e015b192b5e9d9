import MailCapture.Dialogue.Command
import MailCapture.Message.File
import MailCapture.Proofs.Text.Trimming

/-! How a client writes so as to be understood.

An envelope command names its address in angle brackets, a header line puts a colon and a space
between name and value, and a line of content that starts with a dot gets another. Each of these
reads back as what was written, whatever else the parts look like. -/
namespace MailCapture

/-! ### Spellings -/

namespace Text

theorem isUpper_iff {c : Char} : c.isUpper = true ↔ 65 ≤ c.toNat ∧ c.toNat ≤ 90 := by
  have hrange : c.isUpper = true ↔ 'A'.val ≤ c.val ∧ c.val ≤ 'Z'.val := decide_eq_true_iff
  exact hrange.trans (and_congr UInt32.le_iff_toNat_le UInt32.le_iff_toNat_le)

/-- Only the capitals of ASCII have another small letter. -/
theorem toLower_cases (c : Char) : (c.isUpper = false ∧ c.toLower = c) ∨
    c.isUpper = true ∧ c.toLower = .ofNat (c.toNat + 32) := by
  cases h : c.isUpper with
  | false =>
    have hc : ¬ (c.val ≥ 'A'.val ∧ c.val ≤ 'Z'.val) := of_decide_eq_false h
    exact .inl ⟨rfl, dif_neg hc⟩
  | true =>
    have hc : c.val ≥ 'A'.val ∧ c.val ≤ 'Z'.val := of_decide_eq_true h
    have hle := (isUpper_iff.mp h).2
    have hval : c.toLower.toNat = (c.val + 32).toNat := congrArg Char.toNat (dif_pos hc)
    refine .inr ⟨rfl, ?_⟩
    rw [← Char.ofNat_toNat c.toLower, hval, UInt32.toNat_add]
    show Char.ofNat ((c.toNat + 32) % 4294967296) = _
    rw [Nat.mod_eq_of_lt (by omega)]

/-- The letters of ASCII: their numbers, their capitals, and none of them is blank. -/
theorem letters : ∀ n < 91, 65 ≤ n → (Char.ofNat (n + 32)).toNat = n + 32 ∧
    capital (.ofNat n) = [.ofNat n] ∧ capital (.ofNat (n + 32)) = [.ofNat n] ∧
      isBlank (.ofNat n) = false ∧ isBlank (.ofNat (n + 32)) = false := by
  decide

theorem isBlank_toLower (c : Char) : isBlank c.toLower = isBlank c := by
  rcases toLower_cases c with ⟨-, hc⟩ | ⟨hupper, hc⟩
  · rw [hc]
  · obtain ⟨hle, hlt⟩ := isUpper_iff.mp hupper
    obtain ⟨-, -, -, hlarge, hsmall⟩ := letters c.toNat (by omega) hle
    rw [Char.ofNat_toNat] at hlarge
    rw [hc, hlarge, hsmall]

/-- A capital letter is the capital of either case. -/
theorem capital_of_toLower {k c : Char} (hk : k.isUpper = true) (h : k.toLower = c.toLower) :
    capital c = [k] := by
  have hle := isUpper_iff.mp hk
  obtain ⟨hnat, hlarge, hsmall, -⟩ := letters k.toNat (by omega) hle.1
  rw [Char.ofNat_toNat] at hlarge hsmall
  have hkc : Char.ofNat (k.toNat + 32) = c.toLower := by
    rcases toLower_cases k with ⟨hnot, -⟩ | ⟨-, hlower⟩
    · rw [hk] at hnot
      cases hnot
    · rw [← hlower, h]
  rcases toLower_cases c with ⟨-, hc⟩ | ⟨hupper, hc⟩
  · rwa [hkc, hc] at hsmall
  · have hle' := isUpper_iff.mp hupper
    obtain ⟨hnat', -⟩ := letters c.toNat (by omega) hle'.1
    rw [hc] at hkc
    have hsum : k.toNat + 32 = c.toNat + 32 := by rw [← hnat, hkc, hnat']
    rwa [Char.toNat_inj.mp (Nat.add_right_cancel hsum).symm]

/-- The capitals of every spelling of a word in capitals. -/
theorem capitals_of_sameName {word spelling : Text} (hword : word.all Char.isUpper = true)
    (h : sameName word spelling = true) : capitals spelling = word := by
  rw [sameName_iff, lower, lower] at h
  induction word generalizing spelling with
  | nil => rw [List.map_eq_nil_iff.mp h.symm, capitals_nil]
  | cons k word ih =>
    obtain ⟨c, rest, rfl, hc, hrest⟩ := List.map_eq_cons_iff.mp h.symm
    obtain ⟨hk, hword⟩ := Bool.and_eq_true_iff.mp hword
    rw [capitals_cons, capital_of_toLower hk hc.symm, ih hword hrest.symm]
    rfl

/-- Every spelling of a word is a word. -/
theorem IsWord.of_sameName {word spelling : Text} (hword : IsWord word)
    (h : sameName word spelling = true) : IsWord spelling := by
  have hlower : word.map Char.toLower = spelling.map Char.toLower := sameName_iff.mp h
  refine ⟨fun hnil => hword.nonempty ?_, fun c hc => ?_⟩
  · rw [hnil] at hlower
    exact List.map_eq_nil_iff.mp hlower
  · have hmem : c.toLower ∈ word.map Char.toLower := by
      rw [hlower]
      exact List.mem_map_of_mem hc
    obtain ⟨k, hk, hkc⟩ := List.mem_map.mp hmem
    rw [← isBlank_toLower, ← hkc, isBlank_toLower]
    exact hword.unbroken k hk

end Text

/-! ### Envelope commands -/

namespace Command

/-- A line is heard by its first word and the rest of it. -/
theorem parseCommand_words {indent verb tail : Text} (hindent : Text.AreBlank indent)
    (hverb : Text.IsWord verb) (htail : Text.EndsWord tail) :
    parseCommand (indent ++ (verb ++ tail)) =
      (ofWord? (Text.capitals verb) (Text.trim tail)).getD (.unknown verb) := by
  rw [parseCommand, Text.splitWord_trim hindent hverb htail]

/-- What an address is named as. -/
inductive Clause where
  | sender
  | recipient

namespace Clause

def verb : Clause → Text
  | sender => "MAIL".toList
  | recipient => "RCPT".toList

def keyword : Clause → Text
  | sender => "FROM:".toList
  | recipient => "TO:".toList

def command : Clause → Option Text → Command
  | sender => .mail
  | recipient => .rcpt

variable {clause : Clause}

theorem isWord_verb (clause : Clause) : Text.IsWord clause.verb := by
  cases clause <;> decide

theorem isWord_keyword (clause : Clause) : Text.IsWord clause.keyword := by
  cases clause <;> decide

theorem ofWord?_verb (clause : Clause) (argument : Text) :
    ofWord? clause.verb argument = some (clause.command (parseAddress clause.keyword argument)) := by
  cases clause <;> rfl

/-- The command of a clause, however its verb is spelled and whatever blanks are before it. -/
theorem parseCommand_verb {indent verb tail : Text} (hindent : Text.AreBlank indent)
    (hverb : Text.sameName clause.verb verb = true) (htail : Text.EndsWord tail) :
    parseCommand (indent ++ (verb ++ tail)) =
      clause.command (parseAddress clause.keyword (Text.trim tail)) := by
  have hupper : clause.verb.all Char.isUpper = true := by cases clause <;> rfl
  rw [parseCommand_words hindent (clause.isWord_verb.of_sameName hverb) htail,
    Text.capitals_of_sameName hupper hverb, ofWord?_verb, Option.getD_some]

end Clause

/-- An address in angle brackets after a keyword. -/
def bracketed (keyword address : Text) : Text := keyword ++ '<' :: (address ++ ['>'])

def mailLine (address : Text) : Text := "MAIL ".toList ++ bracketed "FROM:".toList address

def rcptLine (address : Text) : Text := "RCPT ".toList ++ bracketed "TO:".toList address

/-- An address in angle brackets ends at the closing one, whatever follows. -/
theorem parseAddress_bracketed {keyword spelling space address : Text}
    (hspelling : Text.sameName keyword spelling = true) (hspace : Text.AreBlank space)
    (h : '>' ∉ address) (after : Text) :
    parseAddress keyword (spelling ++ (space ++ '<' :: (address ++ '>' :: after))) =
      some address := by
  have hdrop : Text.dropKeyword keyword (spelling ++ (space ++ '<' :: (address ++ '>' :: after))) =
      some (space ++ '<' :: (address ++ '>' :: after)) :=
    Text.dropKeyword_eq_some.mpr ⟨spelling, rfl, hspelling⟩
  have hinner : ∀ x ∈ address, (decide (x ≠ '>')) = true := by
    intro x hx
    apply decide_eq_true
    intro heq
    subst heq
    exact h hx
  have htake : (address ++ '>' :: after).takeWhile (· ≠ '>') = address := by
    rw [List.takeWhile_append_of_pos hinner, List.takeWhile_cons_of_neg (by decide)]
    exact List.append_nil address
  rw [parseAddress, hdrop, Option.map_some, hspace.trimStart_append,
    Text.trimStart_of_head (by decide)]
  exact congrArg some htake

/-- Blanks around an address in angle brackets, and anything after it. -/
theorem Clause.parseCommand_bracketed (clause : Clause) {verb keyword address : Text}
    (hverb : Text.sameName clause.verb verb = true)
    (hkeyword : Text.sameName clause.keyword keyword = true) (h : '>' ∉ address)
    (indent gap space after : Text) (hindent : Text.AreBlank indent) (hgap : Text.AreBlank gap)
    (hne : gap ≠ []) (hspace : Text.AreBlank space) :
    parseCommand (indent ++ (verb ++
      (gap ++ (keyword ++ (space ++ '<' :: (address ++ '>' :: after)))))) =
      clause.command (some address) := by
  have hclosed : Text.trimEnd (space ++ '<' :: (address ++ '>' :: after)) =
      space ++ '<' :: (address ++ '>' :: Text.trimEnd after) := by
    have hend := Text.trimEnd_append_cons (c := '>') (by decide) (space ++ '<' :: address) after
    simpa only [List.append_assoc, List.cons_append] using hend
  rw [Clause.parseCommand_verb hindent hverb (hgap.endsWord hne _), hgap.trim_append,
    (clause.isWord_keyword.of_sameName hkeyword).trim_append, hclosed,
    parseAddress_bracketed hkeyword hspace h]

theorem parseCommand_mailLine {address : Text} (h : '>' ∉ address) :
    parseCommand (mailLine address) = .mail (some address) := by
  have hverb : "MAIL ".toList = Clause.verb .sender ++ [' '] := by decide
  rw [mailLine, bracketed, hverb, List.append_assoc]
  exact Clause.parseCommand_bracketed .sender (Text.sameName_refl _) (Text.sameName_refl _) h
    [] [' '] [] [] (by decide) (by decide) (by decide) (by decide)

theorem parseCommand_rcptLine {address : Text} (h : '>' ∉ address) :
    parseCommand (rcptLine address) = .rcpt (some address) := by
  have hverb : "RCPT ".toList = Clause.verb .recipient ++ [' '] := by decide
  rw [rcptLine, bracketed, hverb, List.append_assoc]
  exact Clause.parseCommand_bracketed .recipient (Text.sameName_refl _) (Text.sameName_refl _) h
    [] [' '] [] [] (by decide) (by decide) (by decide) (by decide)

theorem newline_notMem_mailLine {address : Text} (h : '\n' ∉ address) :
    '\n' ∉ mailLine address := by
  simp [mailLine, bracketed, h]

theorem newline_notMem_rcptLine {address : Text} (h : '\n' ∉ address) :
    '\n' ∉ rcptLine address := by
  simp [rcptLine, bracketed, h]

/-! ### Content -/

/-- A line of content as it is sent. -/
def stuff : Text → Text
  | '.' :: rest => '.' :: '.' :: rest
  | line => line

@[simp] theorem unstuff_stuff (line : Text) : unstuff (stuff line) = line := by
  unfold stuff
  split
  · rfl
  · next hdot =>
    unfold unstuff
    split
    · next rest => exact absurd rfl (hdot ('.' :: rest))
    · rfl

/-- No line of content ends the data. -/
theorem stuff_ne_dot (line : Text) : stuff line ≠ ['.'] := by
  unfold stuff
  split
  · next rest => exact fun h => absurd (List.cons.inj h).2 (List.cons_ne_nil '.' rest)
  · next hdot => exact fun h => hdot [] h

theorem stuff_eq_nil {line : Text} : stuff line = [] ↔ line = [] := by
  unfold stuff
  split
  · exact ⟨fun h => absurd h (List.cons_ne_nil _ _), fun h => absurd h (List.cons_ne_nil _ _)⟩
  · exact Iff.rfl

theorem newline_notMem_stuff {line : Text} (h : '\n' ∉ line) : '\n' ∉ stuff line := by
  unfold stuff
  split
  · intro hmem
    cases hmem with
    | tail _ hmem => exact h hmem
  · exact h

end Command

/-! ### Header lines -/

namespace Message

/-- A name that a header line can give. -/
structure IsName (name : Text) : Prop where
  nonempty : name ≠ []
  trimmed : Text.trim name = name
  colon : ':' ∉ name

def fieldLine (name value : Text) : Text := name ++ ':' :: ' ' :: value

theorem newline_notMem_fieldLine {name value : Text} (hname : '\n' ∉ name) (hvalue : '\n' ∉ value) :
    '\n' ∉ fieldLine name value := by
  simp [fieldLine, hname, hvalue]

/-- A header line is cut at the colon after its name. -/
theorem splitField_of_colon {name : Text} (hcolon : ':' ∉ name) (value : Text) :
    splitField (fieldLine name value) = some (Text.trim name, Text.trim value) := by
  have hall : ∀ x ∈ name, decide (x = ':') = false := by
    intro x hx
    apply decide_eq_false
    intro heq
    subst heq
    exact hcolon hx
  have hcut : Text.splitFirst (· = ':') (fieldLine name value) = some (name, ' ' :: value) :=
    Text.splitFirst_append _ hall rfl
  rw [splitField, hcut, Option.map_some]
  show some (Text.trim name, Text.trim (' ' :: value)) = _
  rw [Text.trim_blank (by decide)]

theorem splitField_fieldLine {name value : Text} (hname : IsName name)
    (hvalue : Text.trim value = value) :
    splitField (fieldLine name value) = some (name, value) := by
  rw [splitField_of_colon hname.colon, hname.trimmed, hvalue]

/-- Every folding character is blank. -/
theorem isFolded_of_head {c : Char} (h : Text.isBlank c = false) (rest : Text) :
    isFolded (c :: rest) = false := by
  cases hfolded : isFolded (c :: rest) with
  | false => rfl
  | true =>
    have hmem : c ∈ [' ', '\t', '\x0b', '\x0c', '\r', '\n'] := List.contains_iff_mem.mp hfolded
    have hblank : [' ', '\t', '\x0b', '\x0c', '\r', '\n'].all Text.isBlank = true := by decide
    exact absurd h (by rw [List.all_eq_true.mp hblank c hmem]; decide)

theorem isFolded_fieldLine {name : Text} (hname : IsName name) (value : Text) :
    isFolded (fieldLine name value) = false := by
  obtain ⟨c, rest, rfl⟩ := List.exists_cons_of_ne_nil hname.nonempty
  exact isFolded_of_head (Text.head_of_trim hname.trimmed) _

theorem head_fieldLine {name : Text} (hname : IsName name) (value : Text) :
    (fieldLine name value).head? ≠ some ':' := by
  obtain ⟨c, rest, rfl⟩ := List.exists_cons_of_ne_nil hname.nonempty
  intro h
  obtain rfl : c = ':' := Option.some.inj h
  exact hname.colon List.mem_cons_self

end Message
end MailCapture
