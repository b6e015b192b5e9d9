import MailCapture.Message.Basic
import MailCapture.Proofs.Message.Fields

/-! Headers as they have been written.

A header comes about by writes: a value more under a name, or text at the end of the last value
under it. `header_replayed` reads the whole header off the writes. The names are those written, each
in its first place and spelling; the values under a name come of the writes to that name alone,
replayed in order; and so the writes to other names might as well not have been made. -/
namespace MailCapture

/-! ### Writes -/

inductive Write where
  | add (name value : Text)
  | extend (name value : Text)
deriving DecidableEq, Repr

namespace Write

def name : Write → Text
  | add name _ | extend name _ => name

/-- What a write makes of the values under its name. -/
def change : Write → List Text → List Text
  | add _ value, values => values ++ [value]
  | extend _ value, values =>
    match values.getLast? with
    | some last => values.dropLast ++ [last ++ value]
    | none => [value]

/-- Whether a write is to a name. -/
def isTo (name : Text) (w : Write) : Bool := Text.sameName w.name name

/-- The values that some writes to one name make. -/
def replay (writes : List Write) : List Text := writes.foldl (fun values w => w.change values) []

/-- Some names without their repetitions, each in its first spelling. -/
def firstNames : List Text → List Text
  | [] => []
  | name :: rest => name :: (firstNames rest).filter fun other => !Text.sameName name other

theorem change_ne_nil (w : Write) (values : List Text) : w.change values ≠ [] := by
  cases w with
  | add name value => exact List.append_ne_nil_of_right_ne_nil _ (List.cons_ne_nil value [])
  | extend name value =>
    simp only [change]
    split
    · exact List.append_ne_nil_of_right_ne_nil _ (List.cons_ne_nil _ [])
    · exact List.cons_ne_nil value []

end Write

namespace Message

def write (m : Message) : Write → Message
  | .add name value => m.addField name value
  | .extend name value => m.extendField name value

def writeAll (m : Message) (writes : List Write) : Message := writes.foldl write m

end Message

namespace Fields

/-! ### One write -/

theorem lengthen_concat (value last : Text) (before : List Text) :
    lengthen value (before ++ [last]) = before ++ [last ++ value] := by
  induction before with
  | nil => rfl
  | cons first rest ih =>
    rw [List.cons_append, lengthen, ih, List.cons_append]
    exact List.append_ne_nil_of_right_ne_nil rest (List.cons_ne_nil last [])

theorem lengthen_eq_change (name value : Text) (values : List Text) :
    lengthen value values = (Write.extend name value).change values := by
  rcases List.eq_nil_or_concat values with rfl | ⟨before, last, rfl⟩
  · rfl
  · rw [List.concat_eq_append, lengthen_concat, Write.change, List.getLast?_concat]
    simp

/-- Whether a name is one of some names, in any spelling. -/
def isAmong (names : List Text) (name : Text) : Bool := names.any fun n => Text.sameName n name

theorem isAmong_of_sameName {names : List Text} {name other : Text} (h : isAmong names name = true)
    (hsame : Text.sameName name other = true) : isAmong names other = true := by
  obtain ⟨n, hn, hname⟩ := List.any_eq_true.mp h
  exact List.any_eq_true.mpr ⟨n, hn, Text.sameName_trans hname hsame⟩

/-- A name that is there stands where it is; a new one comes last. -/
theorem names_update (name : Text) (change : List Text → List Text) (fields : Fields) :
    (update name change fields).map Field.name =
      if isAmong (fields.map Field.name) name then fields.map Field.name
      else fields.map Field.name ++ [name] := by
  induction fields with
  | nil => rfl
  | cons f rest ih =>
    have hamong : isAmong ((f :: rest).map Field.name) name =
        (Text.sameName f.name name || isAmong (rest.map Field.name) name) := rfl
    rw [update, hamong]
    by_cases hf : Text.sameName f.name name
    · rw [if_pos hf, hf, Bool.true_or, if_pos rfl]
      rfl
    · rw [if_neg hf, List.map_cons, ih, Bool.eq_false_iff.mpr hf, Bool.false_or]
      split <;> rfl

end Fields

namespace Message

theorem fields_write (m : Message) (w : Write) :
    (m.write w).fields = Fields.update w.name w.change m.fields := by
  cases w with
  | add name value => exact Fields.add_eq_update name value m.fields
  | extend name value =>
    have hchange : Fields.lengthen value = (Write.extend name value).change :=
      funext (Fields.lengthen_eq_change name value)
    rw [← hchange]
    exact Fields.extend_eq_update name value m.fields

/-! ### All writes -/

theorem formed_writeAll {m : Message} (h : m.fields.Formed) (writes : List Write) :
    (m.writeAll writes).fields.Formed := by
  induction writes generalizing m with
  | nil => exact h
  | cons w rest ih =>
    refine ih ?_
    rw [fields_write]
    exact h.update w.change_ne_nil

/-- Only the header is written to. -/
theorem writeAll_eq (m : Message) (writes : List Write) :
    m.writeAll writes = {m with fields := (m.writeAll writes).fields} := by
  induction writes generalizing m with
  | nil => rfl
  | cons w rest ih =>
    have hrest := ih (m.write w)
    cases w <;> exact hrest

theorem values_writeAll (m : Message) (writes : List Write) (name : Text) :
    Fields.values name (m.writeAll writes).fields =
      (writes.filter (Write.isTo name)).foldl (fun values w => w.change values)
        (Fields.values name m.fields) := by
  induction writes generalizing m with
  | nil => rfl
  | cons w rest ih =>
    show Fields.values name ((m.write w).writeAll rest).fields = _
    rw [ih, fields_write, Fields.values_update, List.filter_cons, Write.isTo]
    split <;> rfl

/-- The names that are there come first, and then those that are new. -/
theorem names_writeAll (m : Message) (writes : List Write) :
    (m.writeAll writes).fields.map Field.name = m.fields.map Field.name ++
      (Write.firstNames (writes.map Write.name)).filter
        fun name => !Fields.isAmong (m.fields.map Field.name) name := by
  induction writes generalizing m with
  | nil => exact (List.append_nil _).symm
  | cons w rest ih =>
    show ((m.write w).writeAll rest).fields.map Field.name = _
    rw [ih, fields_write, Fields.names_update, List.map_cons, Write.firstNames, List.filter_cons,
      List.filter_filter]
    generalize m.fields.map Field.name = names
    by_cases hamong : Fields.isAmong names w.name = true
    · -- what repeats the name of this write is among the names already
      simp only [hamong, Bool.not_true, Bool.false_eq_true, if_true, if_false]
      refine congrArg (names ++ ·) (List.filter_congr fun name _ => ?_)
      cases hsame : Text.sameName w.name name with
      | false => rw [Bool.not_false, Bool.and_true]
      | true => rw [Fields.isAmong_of_sameName hamong hsame]; rfl
    · simp only [hamong, Bool.not_false, Bool.false_eq_true, if_true, if_false]
      simp [Fields.isAmong, Bool.not_or]

/-! ### Headers -/

theorem foldl_addField (m : Message) (given : List (Text × Text)) :
    given.foldl (fun m p => m.addField p.1 p.2) m =
      {m with fields := Fields.addAll given m.fields} := by
  induction given generalizing m with
  | nil => rfl
  | cons p rest ih => exact ih (m.addField p.1 p.2)

/-- **A header is what has been written.** Whatever is written to an empty message, no two names of
its header are the same, they stand in the order and the spelling in which they were first written,
and each has a value. The values under a name are those that the writes to this name make, replayed
one after another; a write to another name changes nothing about them. All values of the header
added one by one to an empty message make the message again. -/
theorem header_replayed (writes : List Write) :
    let m : Message := writeAll {} writes
    (m.fields.Distinct ∧ m.fields.map Field.name = Write.firstNames (writes.map Write.name) ∧
      ∀ f ∈ m.fields, f.values ≠ []) ∧
    (∀ name, Fields.values name m.fields = Write.replay (writes.filter (Write.isTo name))) ∧
    (∀ before w after name, writes = before ++ w :: after → w.isTo name = false →
      Fields.values name m.fields = Fields.values name (writeAll {} (before ++ after)).fields) ∧
    (Fields.pairs m.fields).foldl (fun m p => m.addField p.1 p.2) {} = m := by
  intro m
  have hformed : m.fields.Formed := formed_writeAll (m := {}) .nil writes
  have hnames := names_writeAll {} writes
  have hvalues := values_writeAll {} writes
  refine ⟨⟨hformed.distinct, ?_, hformed.nonempty⟩, hvalues, ?_, ?_⟩
  · rw [hnames]
    exact List.filter_eq_self.mpr fun _ _ => rfl
  · intro before w after name hwrites hother
    rw [hvalues name, values_writeAll, hwrites, List.filter_append, List.filter_append,
      List.filter_cons_of_neg (Bool.eq_false_iff.mp hother)]
  · rw [foldl_addField, Fields.addAll_pairs hformed]
    exact (writeAll_eq {} writes).symm

/-- A fold with nothing before it, and a name in four spellings. -/
theorem header_replayed_spellings :
    let writes : List Write := [.extend "X-Fold".toList " a".toList,
      .add "Subject".toList "Hi".toList, .add "SUBJECT".toList "again".toList,
      .extend "subject".toList " there".toList, .add "x-fold".toList "b".toList]
    let fields := (writeAll {} writes).fields
    fields.map Field.name = ["X-Fold".toList, "Subject".toList] ∧
      Fields.values "sUBJECT".toList fields = ["Hi".toList, "again there".toList] ∧
      Fields.values "X-Fold".toList fields =
        Fields.values "X-Fold".toList (writeAll {} (writes.take 3 ++ writes.drop 4)).fields := by
  intro writes fields
  obtain ⟨⟨-, hnames, -⟩, hvalues, hothers, -⟩ := header_replayed writes
  refine ⟨hnames.trans (by decide), (hvalues _).trans (by decide), ?_⟩
  exact hothers (writes.take 3) (.extend "subject".toList " there".toList) (writes.drop 4) _ rfl
    (by decide)

end Message
end MailCapture
