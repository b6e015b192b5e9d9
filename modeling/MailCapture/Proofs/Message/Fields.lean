import MailCapture.Message.Fields

/-! What writing does to a header.

Both ways of writing change the values under one name and leave the others alone (`update`,
`values_update`), so the names stay distinct and every field keeps a value (`Formed`). Such a header
is made anew by adding all its values, one by one, to an empty one (`addAll_pairs`). -/
namespace MailCapture.Fields

/-! ### Both ways of writing -/

/-- The values under a name changed, where an absent field has none. -/
def update (name : Text) (change : List Text → List Text) : Fields → Fields
  | [] => [⟨name, change []⟩]
  | f :: rest =>
    if Text.sameName f.name name then {f with values := change f.values} :: rest
    else f :: update name change rest

theorem add_eq_update (name value : Text) (fields : Fields) :
    add name value fields = update name (· ++ [value]) fields := by
  induction fields with
  | nil => rfl
  | cons f rest ih => rw [add, update, ih]

theorem extend_eq_update (name value : Text) (fields : Fields) :
    extend name value fields = update name (lengthen value) fields := by
  induction fields with
  | nil => rfl
  | cons f rest ih => rw [extend, update, ih]

/-- The values under the name are changed, and those under no other. -/
theorem values_update (name other : Text) (change : List Text → List Text) (fields : Fields) :
    values other (update name change fields) =
      if Text.sameName name other then change (values other fields) else values other fields := by
  induction fields with
  | nil => by_cases h : Text.sameName name other <;> simp [update, values, h]
  | cons f rest ih =>
    by_cases hf : Text.sameName f.name name
    · by_cases ho : Text.sameName name other <;>
        simp [update, values, hf, Text.sameName_congr hf, ho]
    · by_cases ho : Text.sameName f.name other
      · have hother : ¬ Text.sameName name other = true := fun h =>
          hf (Text.sameName_trans ho (Text.sameName_comm name other ▸ h))
        simp [update, values, hf, ho, hother]
      · simp [update, values, hf, ho, ih]

theorem values_add (name value other : Text) (fields : Fields) :
    values other (add name value fields) =
      values other fields ++ (if Text.sameName name other then [value] else []) := by
  rw [add_eq_update, values_update]
  split
  · rfl
  · exact (List.append_nil _).symm

theorem values_extend (name value other : Text) (fields : Fields) :
    values other (extend name value fields) =
      if Text.sameName name other then lengthen value (values other fields)
      else values other fields := by
  rw [extend_eq_update, values_update]

/-! ### Fields that are there -/

theorem lengthen_ne_nil (value : Text) (values : List Text) : lengthen value values ≠ [] := by
  unfold lengthen
  split <;> exact List.cons_ne_nil _ _

theorem mem_values {name value : Text} {fields : Fields} (h : value ∈ values name fields) :
    ∃ f ∈ fields, value ∈ f.values := by
  induction fields with
  | nil => cases h
  | cons f rest ih =>
    unfold values at h
    split at h
    · exact ⟨f, List.mem_cons_self, h⟩
    · obtain ⟨f', hf', hvalue⟩ := ih h
      exact ⟨f', List.mem_cons_of_mem f hf', hvalue⟩

/-- A field that has been added to is there. -/
theorem values_add_ne_nil (name value : Text) (fields : Fields) :
    values name (add name value fields) ≠ [] := by
  rw [values_add, Text.sameName_refl, if_pos rfl]
  exact List.append_ne_nil_of_right_ne_nil _ (List.cons_ne_nil value [])

theorem values_extend_ne_nil {name : Text} (fields : Fields) (h : values name fields ≠ [])
    (value other : Text) : values name (extend other value fields) ≠ [] := by
  rw [values_extend]
  split
  · exact lengthen_ne_nil value _
  · exact h

/-- Extending a field that is there makes no other. -/
theorem names_extend {name : Text} {fields : Fields} (h : values name fields ≠ []) (value : Text) :
    (extend name value fields).map Field.name = fields.map Field.name := by
  induction fields with
  | nil => exact absurd rfl h
  | cons f rest ih =>
    rw [extend]
    split
    · rfl
    · next hf =>
      rw [values, if_neg hf] at h
      exact congrArg (f.name :: ·) (ih h)

/-! ### Fields changed -/

variable {name : Text} {change : List Text → List Text} {fields : Fields}

theorem mem_update {g : Field} (h : g ∈ update name change fields) :
    g = ⟨name, change []⟩ ∨ ∃ f ∈ fields, g = f ∨ g = {f with values := change f.values} := by
  induction fields with
  | nil => exact .inl (List.mem_singleton.mp h)
  | cons f rest ih =>
    unfold update at h
    split at h
    · rcases List.mem_cons.mp h with rfl | hrest
      · exact .inr ⟨f, List.mem_cons_self, .inr rfl⟩
      · exact .inr ⟨g, List.mem_cons_of_mem f hrest, .inl rfl⟩
    · rcases List.mem_cons.mp h with rfl | hrest
      · exact .inr ⟨g, List.mem_cons_self, .inl rfl⟩
      · refine (ih hrest).imp_right fun ⟨f', hf', hg⟩ => ?_
        exact ⟨f', List.mem_cons_of_mem f hf', hg⟩

/-- Fields of other names stand as they are. -/
theorem update_append (h : ∀ f ∈ fields, Text.sameName f.name name = false) (rest : Fields) :
    update name change (fields ++ rest) = fields ++ update name change rest := by
  induction fields with
  | nil => rfl
  | cons f more ih =>
    have hf := h f List.mem_cons_self
    rw [List.cons_append, update, hf, if_neg Bool.false_ne_true,
      ih fun g hg => h g (List.mem_cons_of_mem f hg)]
    rfl

/-! ### Distinct names -/

/-- No two fields have the same name. -/
def Distinct (fields : Fields) : Prop :=
  fields.Pairwise fun f g => Text.sameName f.name g.name = false

theorem Distinct.update (h : Distinct fields) : Distinct (update name change fields) := by
  induction h with
  | nil => exact List.pairwise_singleton ..
  | @cons f rest hf hrest ih =>
    unfold Fields.update
    split
    · exact .cons hf hrest
    · next hother =>
      refine .cons (fun g hg => ?_) ih
      rcases mem_update hg with rfl | ⟨f', hf', rfl | rfl⟩
      · exact Bool.eq_false_iff.mpr hother
      · exact hf g hf'
      · exact hf f' hf'

/-- A header as writing leaves it: no name twice, and none without a value. -/
structure Formed (fields : Fields) : Prop where
  distinct : Distinct fields
  nonempty : ∀ f ∈ fields, f.values ≠ []

theorem Formed.nil : Formed [] := ⟨.nil, nofun⟩

theorem Formed.update (h : Formed fields) (hchange : ∀ values, change values ≠ []) :
    Formed (update name change fields) where
  distinct := h.distinct.update
  nonempty g hg := by
    rcases mem_update hg with rfl | ⟨f, hf, rfl | rfl⟩
    · exact hchange []
    · exact h.nonempty g hf
    · exact hchange f.values

theorem Formed.add (h : Formed fields) (name value : Text) : Formed (add name value fields) := by
  rw [add_eq_update]
  exact h.update fun values => List.append_ne_nil_of_right_ne_nil values (List.cons_ne_nil value [])

/-! ### Made anew -/

/-- Values added one by one, each under its name. -/
def addAll (given : List (Text × Text)) (fields : Fields) : Fields :=
  given.foldl (fun fields p => add p.1 p.2 fields) fields

theorem addAll_cons (p : Text × Text) (given : List (Text × Text)) (fields : Fields) :
    addAll (p :: given) fields = addAll given (add p.1 p.2 fields) := rfl

theorem addAll_append (a b : List (Text × Text)) (fields : Fields) :
    addAll (a ++ b) fields = addAll b (addAll a fields) := List.foldl_append

theorem Formed.addAll (h : Formed fields) (given : List (Text × Text)) :
    Formed (addAll given fields) := by
  induction given generalizing fields with
  | nil => exact h
  | cons p rest ih =>
    rw [addAll_cons]
    exact ih (h.add p.1 p.2)

/-- The rest of a field's values, added one by one. -/
theorem addAll_values (hothers : ∀ f ∈ fields, Text.sameName f.name name = false)
    (before after : List Text) :
    addAll (after.map fun value => (name, value)) (fields ++ [⟨name, before⟩]) =
      fields ++ [⟨name, before ++ after⟩] := by
  induction after generalizing before with
  | nil => rw [List.append_nil]; rfl
  | cons value rest ih =>
    have hadd : add name value (fields ++ [⟨name, before⟩]) =
        fields ++ [⟨name, before ++ [value]⟩] := by
      rw [add_eq_update, update_append hothers, update, Text.sameName_refl, if_pos rfl]
    rw [List.map_cons, addAll_cons, hadd, ih, List.append_assoc, List.singleton_append]

theorem addAll_pairs_append {front : Fields} (h : Formed (front ++ fields)) :
    addAll (pairs fields) front = front ++ fields := by
  induction fields generalizing front with
  | nil => exact (List.append_nil front).symm
  | cons f rest ih =>
    obtain ⟨value, more, hvalues⟩ := List.exists_cons_of_ne_nil (h.nonempty f (by simp))
    have hothers : ∀ g ∈ front, Text.sameName g.name f.name = false := fun g hg =>
      (List.pairwise_append.mp h.distinct).2.2 g hg f List.mem_cons_self
    have hfirst : add f.name value front = front ++ [⟨f.name, [value]⟩] := by
      have h : update f.name (· ++ [value]) (front ++ []) = _ := update_append hothers []
      rwa [List.append_nil, ← add_eq_update] at h
    have hfield : addAll (f.values.map fun value => (f.name, value)) front = front ++ [f] := by
      rw [hvalues, List.map_cons, addAll_cons, hfirst, addAll_values hothers,
        List.singleton_append, ← hvalues]
    show addAll ((f.values.map fun value => (f.name, value)) ++ pairs rest) front = _
    rw [addAll_append, hfield, List.append_cons front f rest]
    rw [List.append_cons] at h
    exact ih h

/-- All the values of a header added one by one make the header. -/
theorem addAll_pairs (h : Formed fields) : addAll (pairs fields) [] = fields :=
  addAll_pairs_append (List.nil_append fields ▸ h)

end MailCapture.Fields
