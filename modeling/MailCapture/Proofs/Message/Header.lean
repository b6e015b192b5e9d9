import MailCapture.Proofs.Dialogue.Phrases
import MailCapture.Proofs.Message.Fields

/-! Headers as header lines make them.

Whatever the lines of a header, the names are trimmed and without colon or newline, no two of them
are the same, and every value is trimmed text with the folds that came after it (`Gathered`). Such a
header is `Sound`, and stays so whatever lines come. -/
namespace MailCapture
open Message

/-! ### Names and values -/

/-- A name that a header line gives. It may be empty. -/
structure Message.IsLabel (name : Text) : Prop where
  trimmed : Text.trim name = name
  colon : ':' ∉ name
  newline : '\n' ∉ name

/-- A value of a first line and the folds after it. -/
structure Message.Gathered (value first : Text) (folds : List Text) : Prop where
  joined : value = first ++ folds.flatten
  trimmed : Text.trim first = first
  folded : ∀ fold ∈ folds, isFolded fold = true

/-- A value that header lines give. -/
def Message.IsValue (value : Text) : Prop :=
  '\n' ∉ value ∧ ∃ first folds, Gathered value first folds

theorem Message.isLabel_trim {name : Text} (hcolon : ':' ∉ name) (hnewline : '\n' ∉ name) :
    IsLabel (Text.trim name) where
  trimmed := Text.trim_trim name
  colon := fun hmem => hcolon (Text.mem_of_mem_trim hmem)
  newline := fun hmem => hnewline (Text.mem_of_mem_trim hmem)

theorem Message.isValue_trim {value : Text} (hnewline : '\n' ∉ value) : IsValue (Text.trim value) := by
  have hgathered : Gathered (Text.trim value) (Text.trim value) [] :=
    ⟨(List.append_nil _).symm, Text.trim_trim value, nofun⟩
  exact ⟨fun hmem => hnewline (Text.mem_of_mem_trim hmem), _, _, hgathered⟩

/-- A header line without a newline gives a label and a value. -/
theorem Message.splitField_sound {line name value : Text} (hline : '\n' ∉ line)
    (h : splitField line = some (name, value)) : IsLabel name ∧ IsValue value := by
  obtain ⟨⟨before, after⟩, hcut, heq⟩ := Option.map_eq_some_iff.mp h
  obtain ⟨rfl, rfl⟩ := Prod.mk.inj heq
  obtain ⟨c, -, rfl, hbefore⟩ := Text.splitFirst_eq_some hcut
  rw [List.mem_append, List.mem_cons, not_or, not_or] at hline
  have hcolon : ':' ∉ before := fun hmem => absurd (hbefore ':' hmem) (by decide)
  exact ⟨isLabel_trim hcolon hline.1, isValue_trim hline.2.2⟩

/-- A fold makes a value longer by a line. -/
theorem Message.IsValue.fold {value line : Text} (h : IsValue value)
    (hfolded : isFolded line = true) (hline : '\n' ∉ line) : IsValue (value ++ line) := by
  obtain ⟨hnewline, first, folds, hgathered⟩ := h
  refine ⟨by simp [hnewline, hline], first, folds ++ [line], ?_, hgathered.trimmed, ?_⟩
  · rw [hgathered.joined, List.flatten_append, List.flatten_singleton, List.append_assoc]
  · intro fold hfold
    rcases List.mem_append.mp hfold with hfold | hfold
    · exact hgathered.folded fold hfold
    · rwa [List.mem_singleton.mp hfold]

/-- Trimming keeps a value as it is unless it has folds and then starts or ends blank. -/
theorem Message.Gathered.trim_eq_self_iff {value first : Text} {folds : List Text}
    (h : Gathered value first folds) :
    Text.trim value = value ↔
      folds = [] ∨ first ≠ [] ∧ value.getLast?.any Text.isBlank = false := by
  obtain ⟨rfl, htrimmed, hfolded⟩ := h
  cases folds with
  | nil =>
    rw [List.flatten_nil, List.append_nil]
    exact ⟨fun _ => .inl rfl, fun _ => htrimmed⟩
  | cons fold rest =>
    simp only [List.cons_ne_nil, false_or]
    cases first with
    | nil =>
      refine ⟨fun hvalue => ?_, fun h => absurd rfl h.1⟩
      have hblank := hfolded fold List.mem_cons_self
      cases fold with
      | nil => cases hblank
      | cons c more =>
        rw [isFolded_of_head (Text.head_of_trim hvalue)] at hblank
        cases hblank
    | cons c more =>
      have hc := Text.head_of_trim htrimmed
      rw [List.cons_append, Text.trim_eq_self_iff hc,
        List.getLast?_eq_some_getLast (List.cons_ne_nil _ _), Option.any_some]
      exact ⟨fun hlast => ⟨List.cons_ne_nil _ _, hlast⟩, fun h => h.2⟩

namespace Fields

/-! ### Sound headers -/

variable {name : Text} {change : List Text → List Text} {fields : Fields}

/-- A header that header lines may have made. -/
structure Sound (fields : Fields) : Prop where
  label : ∀ f ∈ fields, IsLabel f.name
  nonempty : ∀ f ∈ fields, f.values ≠ []
  value : ∀ f ∈ fields, ∀ v ∈ f.values, IsValue v
  distinct : Distinct fields

theorem Sound.nil : Sound [] := ⟨nofun, nofun, nofun, .nil⟩

theorem Sound.formed (h : Sound fields) : Formed fields := ⟨h.distinct, h.nonempty⟩

theorem Sound.update (h : Sound fields) (hname : IsLabel name)
    (hnonempty : ∀ values, change values ≠ [])
    (hvalue : ∀ values, (∀ v ∈ values, IsValue v) → ∀ v ∈ change values, IsValue v) :
    Sound (update name change fields) where
  label g hg := by
    rcases mem_update hg with rfl | ⟨f, hf, rfl | rfl⟩
    · exact hname
    · exact h.label g hf
    · exact h.label f hf
  nonempty g hg := by
    rcases mem_update hg with rfl | ⟨f, hf, rfl | rfl⟩
    · exact hnonempty []
    · exact h.nonempty g hf
    · exact hnonempty f.values
  value g hg := by
    rcases mem_update hg with rfl | ⟨f, hf, rfl | rfl⟩
    · exact hvalue [] nofun
    · exact h.value g hf
    · exact hvalue f.values (h.value f hf)
  distinct := h.distinct.update

theorem Sound.add (h : Sound fields) (hname : IsLabel name) {value : Text} (hvalue : IsValue value) :
    Sound (add name value fields) := by
  rw [add_eq_update]
  refine h.update hname (fun values => List.append_ne_nil_of_right_ne_nil values (List.cons_ne_nil _ _))
    fun values hvalues v hv => ?_
  rcases List.mem_append.mp hv with hv | hv
  · exact hvalues v hv
  · rwa [List.mem_singleton.mp hv]

theorem isValue_lengthen {line : Text} (hfolded : isFolded line = true) (hline : '\n' ∉ line)
    {values : List Text} (h : ∀ v ∈ values, IsValue v) : ∀ v ∈ lengthen line values, IsValue v := by
  induction values with
  | nil =>
    -- a fold with nothing before it continues an empty value
    have hempty : IsValue [] := ⟨List.not_mem_nil, [], [], rfl, rfl, nofun⟩
    intro v hv
    rw [List.mem_singleton.mp hv]
    exact hempty.fold hfolded hline
  | cons value rest ih =>
    have hvalue := h value List.mem_cons_self
    cases rest with
    | nil =>
      intro v hv
      rw [List.mem_singleton.mp hv]
      exact hvalue.fold hfolded hline
    | cons next more =>
      intro v hv
      rcases List.mem_cons.mp hv with rfl | hv
      · exact hvalue
      · exact ih (fun v hv => h v (List.mem_cons_of_mem value hv)) v hv

theorem Sound.extend (h : Sound fields) (hname : IsLabel name) {line : Text}
    (hfolded : isFolded line = true) (hline : '\n' ∉ line) : Sound (extend name line fields) := by
  rw [extend_eq_update]
  exact h.update hname (lengthen_ne_nil line) fun values => isValue_lengthen hfolded hline

end Fields
end MailCapture
