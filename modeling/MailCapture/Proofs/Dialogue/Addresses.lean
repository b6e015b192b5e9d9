import MailCapture.Proofs.Dialogue.Phrases
import MailCapture.Proofs.Session.Steps

/-! Which address a line names.

The blanks around the words of a line, the case of its letters and what follows the address make no
difference to it. An address in angle brackets may hold anything but the closing one, blanks and
words of the dialogue among it, and one without brackets is a word (`address_read`). -/
namespace MailCapture.Command
open Text

/-! ### An address without brackets -/

theorem parseAddress_word {keyword spelling space address after : Text}
    (hspelling : sameName keyword spelling = true) (hspace : AreBlank space)
    (haddress : IsWord address) (hbare : address.head? ≠ some '<') (hafter : EndsWord after) :
    parseAddress keyword (spelling ++ (space ++ (address ++ after))) = some address := by
  have hdrop : dropKeyword keyword (spelling ++ (space ++ (address ++ after))) =
      some (space ++ (address ++ after)) :=
    dropKeyword_eq_some.mpr ⟨spelling, rfl, hspelling⟩
  rw [parseAddress, hdrop, Option.map_some, hspace.trimStart_append, haddress.trimStart_append]
  obtain ⟨first, more, rfl⟩ := List.exists_cons_of_ne_nil haddress.nonempty
  have hfirst : first ≠ '<' := fun h => hbare (congrArg some h)
  rw [List.cons_append]
  split
  · next heq => exact absurd (List.cons.inj heq).1 hfirst
  · exact congrArg some (haddress.firstWord_append hafter)

/-- Blanks around an address without brackets, and parameters after it. -/
theorem Clause.parseCommand_word (clause : Clause) {verb keyword address : Text}
    (hverb : sameName clause.verb verb = true)
    (hkeyword : sameName clause.keyword keyword = true) (haddress : IsWord address)
    (hbare : address.head? ≠ some '<') (indent gap space after : Text) (hindent : AreBlank indent)
    (hgap : AreBlank gap) (hne : gap ≠ []) (hspace : AreBlank space) (hafter : EndsWord after) :
    parseCommand (indent ++ (verb ++ (gap ++ (keyword ++ (space ++ (address ++ after)))))) =
      clause.command (some address) := by
  rw [Clause.parseCommand_verb hindent hverb (hgap.endsWord hne _), hgap.trim_append,
    (clause.isWord_keyword.of_sameName hkeyword).trim_append,
    haddress.trimEnd_append_append,
    parseAddress_word hkeyword hspace haddress hbare hafter.trimEnd]

/-! ### No address -/

/-- What follows the verb starts with a spelling of the keyword. -/
def Clause.Keyed (clause : Clause) (argument : Text) : Prop :=
  ∃ spelling rest, argument = spelling ++ rest ∧ sameName clause.keyword spelling = true

theorem Clause.parseAddress_eq_none {clause : Clause} {argument : Text} :
    parseAddress clause.keyword argument = none ↔ ¬ clause.Keyed argument := by
  rw [parseAddress, Option.map_eq_none_iff, Option.eq_none_iff_forall_ne_some]
  constructor
  · rintro h ⟨spelling, rest, hargument, hspelling⟩
    exact h rest (dropKeyword_eq_some.mpr ⟨spelling, hargument, hspelling⟩)
  · intro h rest hdrop
    obtain ⟨spelling, hargument, hspelling⟩ := dropKeyword_eq_some.mp hdrop
    exact h ⟨spelling, rest, hargument, hspelling⟩

theorem Clause.command_inj {clause : Clause} {a b : Option Text} :
    clause.command a = clause.command b ↔ a = b := by
  cases clause <;> exact ⟨fun h => by injection h, congrArg _⟩

/-- **An envelope command** names its sender or recipient however its verb and keyword are spelled
and whatever blanks stand before the verb, between the two and after the keyword. In angle brackets
the address is all up to the first closing one, and anything may follow; a bare address is one word
that does not open a bracket, and parameters may follow. If what comes after the verb does not start
with the keyword, and only then, the command has no address. -/
theorem address_read (clause : Clause) {phase : Phase} (hphase : phase.isData = false)
    {indent verb : Text} (hindent : AreBlank indent) (hverb : sameName clause.verb verb = true) :
    (∀ gap keyword space, AreBlank gap → gap ≠ [] → sameName clause.keyword keyword = true →
      AreBlank space → ∀ address after,
        ('>' ∉ address →
          parse (indent ++ (verb ++ (gap ++ (keyword ++
            (space ++ '<' :: (address ++ '>' :: after)))))) phase =
              clause.command (some address)) ∧
        (IsWord address → address.head? ≠ some '<' → EndsWord after →
          parse (indent ++ (verb ++ (gap ++ (keyword ++ (space ++ (address ++ after)))))) phase =
            clause.command (some address))) ∧
    ∀ tail, EndsWord tail →
      (parse (indent ++ (verb ++ tail)) phase = clause.command none ↔
        ¬ clause.Keyed (trim tail)) := by
  refine ⟨fun gap keyword space hgap hne hkeyword hspace address after => ⟨?bracketed, ?bare⟩,
    fun tail htail => ?missing⟩
  case bracketed =>
    intro h
    rw [parse_command hphase]
    exact Clause.parseCommand_bracketed clause hverb hkeyword h indent gap space after hindent hgap
      hne hspace
  case bare =>
    intro haddress hbare hafter
    rw [parse_command hphase]
    exact Clause.parseCommand_word clause hverb hkeyword haddress hbare indent gap space after
      hindent hgap hne hspace hafter
  case missing =>
    rw [parse_command hphase, Clause.parseCommand_verb hindent hverb htail, Clause.command_inj,
      Clause.parseAddress_eq_none]

theorem address_read_lookalikes :
    parse "  mAiL\tfrom:\u00a0<a <FROM: b> c>".toList .quit = .mail (some "a <FROM: b".toList) ∧
    parse "rcpt TO: TO:<a>\u2003NOTIFY=<b>".toList .sender = .rcpt (some "TO:<a>".toList) ∧
    parse "MAIL FROMé:<a>".toList .greet = .mail none ∧
    parse " RCPT\r".toList .recipient = .rcpt none := by
  have hmail := ((address_read .sender (show Phase.isData .quit = false from rfl)
    (show AreBlank "  ".toList by decide) (show sameName _ "mAiL".toList = true by decide)).1
      "\t".toList "from:".toList "\u00a0".toList (by decide) (by decide) (by decide) (by decide)
      "a <FROM: b".toList " c>".toList).1 (by decide)
  have hrcpt := ((address_read .recipient (show Phase.isData .sender = false from rfl)
    (show AreBlank [] by decide) (show sameName _ "rcpt".toList = true by decide)).1
      " ".toList "TO:".toList " ".toList (by decide) (by decide) (by decide) (by decide)
      "TO:<a>".toList "\u2003NOTIFY=<b>".toList).2 (by decide) (by decide) (by decide)
  have hunkeyed := (address_read .sender (show Phase.isData .greet = false from rfl)
    (show AreBlank [] by decide) (show sameName _ "MAIL".toList = true by decide)).2
      " FROMé:<a>".toList (by decide)
  have hbare := (address_read .recipient (show Phase.isData .recipient = false from rfl)
    (show AreBlank " ".toList by decide) (show sameName _ "RCPT".toList = true by decide)).2
      "\r".toList (by decide)
  have hmailLine : "  mAiL\tfrom:\u00a0<a <FROM: b> c>".toList = "  ".toList ++ ("mAiL".toList ++
      ("\t".toList ++ ("from:".toList ++ ("\u00a0".toList ++
        '<' :: ("a <FROM: b".toList ++ '>' :: " c>".toList))))) := by decide
  have hrcptLine : "rcpt TO: TO:<a>\u2003NOTIFY=<b>".toList = [] ++ ("rcpt".toList ++
      (" ".toList ++ ("TO:".toList ++ (" ".toList ++
        ("TO:<a>".toList ++ "\u2003NOTIFY=<b>".toList))))) := by decide
  have hunkeyedLine : "MAIL FROMé:<a>".toList =
      [] ++ ("MAIL".toList ++ " FROMé:<a>".toList) := by decide
  have hbareLine : " RCPT\r".toList = " ".toList ++ ("RCPT".toList ++ "\r".toList) := by decide
  rw [hmailLine, hrcptLine, hunkeyedLine, hbareLine]
  exact ⟨hmail, hrcpt, hunkeyed.mpr (Clause.parseAddress_eq_none.mp (by decide)),
    hbare.mpr (Clause.parseAddress_eq_none.mp (by decide))⟩

end MailCapture.Command
