import MailCapture.Proofs.Disk.Steady

/-! Names in a directory.

The path of a name in a directory leads to that name under the place of the directory, however the
path of the directory is written and whatever links it goes through, unless the name is itself a
link to be followed (`leads?_inside`). -/
namespace MailCapture

namespace Text
variable {α : Type} [DecidableEq α]

/-- The parts of two texts with a separator between them. -/
theorem split_append_separator (separator : α) (a b : List α) :
    split separator (a ++ separator :: b) = split separator a ++ split separator b := by
  induction a with
  | nil => simp [split]
  | cons c rest ih =>
    by_cases hc : c = separator
    · simp [split, hc, ih]
    · simp only [List.cons_append, split, hc, if_false, ih]
      cases hparts : split separator rest with
      | nil => exact absurd hparts (split_ne_nil separator rest)
      | cons part parts => rfl

end Text

namespace Path

/-- A name that stands for itself in a path. -/
structure IsName (name : Bytes) : Prop where
  slash : slash ∉ name
  nonempty : name ≠ []
  notHere : name ≠ here
  notAbove : name ≠ above

variable {name : Bytes}

theorem parts_name (h : IsName name) : (Text.split slash name).filter (· ≠ []) = [name] := by
  rw [Text.split_of_not_mem h.slash]
  simp [h.nonempty]

theorem getLast?_ne_slash (h : IsName name) (before : Bytes) :
    (before ++ name).getLast? ≠ some slash := by
  rw [List.getLast?_append, List.getLast?_eq_some_getLast h.nonempty, Option.some_or]
  intro hlast
  have hmem := List.getLast_mem h.nonempty
  rw [Option.some.inj hlast] at hmem
  exact h.slash hmem

theorem parts_append_slash (directory : Bytes) :
    parts (directory ++ [slash]) = parts directory := by
  rw [parts, Text.split_append_separator, List.filter_append]
  exact List.append_nil _

theorem parts_append (directory : Bytes) (h : IsName name) :
    parts (directory ++ slash :: name) = parts directory ++ [name] := by
  rw [parts, Text.split_append_separator, List.filter_append, parts_name h]
  rfl

theorem parts_inside (directory : Bytes) (h : IsName name) :
    parts (inside directory name) = parts directory ++ [name] := by
  unfold inside
  split
  · next hslash =>
    obtain ⟨start, rfl⟩ := List.getLast?_eq_some_iff.mp hslash
    rw [parts_append_slash, List.append_assoc]
    exact parts_append start h
  · exact parts_append directory h

/-- The names of a directory, and then the name. -/
theorem names_inside (directory : Bytes) (h : IsName name) :
    names (inside directory name) = parts directory ++ [name] := by
  have hlast : (inside directory name).getLast? ≠ some slash := by
    unfold inside
    split
    · exact getLast?_ne_slash h _
    · rw [List.append_cons]
      exact getLast?_ne_slash h _
  rw [names, if_neg hlast, List.append_nil, parts_inside directory h]

theorem steps_inside {directory : Bytes} (hdots : here ∉ parts directory) (h : IsName name) :
    steps (inside directory name) = parts directory ++ [name] := by
  rw [steps, parts_inside directory h, List.filter_eq_self]
  intro part hpart
  rw [decide_eq_true_eq]
  rintro rfl
  rcases List.mem_append.mp hpart with hpart | hpart
  · exact hdots hpart
  · exact h.notHere (List.mem_singleton.mp hpart).symm

theorem endsHere_inside (directory : Bytes) (h : IsName name) :
    endsHere (inside directory name) = false := by
  rw [endsHere, parts_inside directory h, List.getLast?_concat]
  exact decide_eq_false fun heq => h.notHere (Option.some.inj heq)

/-- A slash at the end of a path adds nothing that leads anywhere. -/
theorem names_eq (path : Bytes) :
    ∃ slashes, names path = parts path ++ slashes ∧ ∀ name ∈ slashes, name = [] := by
  refine ⟨_, rfl, ?_⟩
  split
  · exact fun name hname => List.mem_singleton.mp hname
  · exact fun name hname => absurd hname List.not_mem_nil

end Path

namespace Disk
variable {d : Disk} {aim : Aim} {here place : Place} {name : Bytes}

/-- Whether the entry itself is what a path is followed for, or is all that its name leads to. -/
def Final (d : Disk) (aim : Aim) (place : Place) : Prop :=
  aim = .entry ∨ ∀ target, d.node? place ≠ some (.link target)

/-- The last step, onto a name that leads nowhere else. -/
theorem walk_name (hname : Path.IsName name) (hfinal : d.Final aim (place ++ [name])) :
    d.walk aim place [name] =
      if name.length > Path.maxName then .error .nameTooLong
      else .ok (.arrived (d.spotAt (place ++ [name]))) := by
  have hslashes : ¬ (aim = .output ∧ Path.areSlashes [] = true) := fun h => Bool.false_ne_true h.2
  rw [walk_cons, if_neg (not_or.mpr ⟨hname.nonempty, hname.notHere⟩), if_neg hname.notAbove,
    if_neg hslashes]
  congr 1
  cases hloose : Node.isLoose (d.node? (place ++ [name])) with
  | true =>
    obtain ⟨e, he⟩ := enter_loose aim [] hloose
    exact he
  | false =>
    rcases Node.fixed_cases hloose with hnode | ⟨target, hnode⟩
    · rw [enter_directory hnode, spotAt, hnode]
      rfl
    · rcases hfinal with haim | hlink
      · rw [enter_link hnode]
        exact if_pos ⟨rfl, haim⟩
      · exact absurd hnode (hlink target)

theorem walk_slashes {slashes : List Bytes} (hslashes : ∀ name ∈ slashes, name = []) (aim : Aim) :
    d.walk aim here slashes = .ok (.arrived (.taken here)) := by
  induction slashes with
  | nil => rfl
  | cons slash rest ih =>
    obtain ⟨hslash, hrest⟩ := List.forall_mem_cons.mp hslashes
    rw [walk_cons, if_pos (.inl hslash)]
    exact ih hrest

theorem areSlashes_append (hname : Path.IsName name) (names : List Bytes) :
    Path.areSlashes (names ++ [name]) = false := by
  simp [Path.areSlashes, hname.nonempty]

/-- What a walk along the names of a directory has to do with one to a name in it. Where the first
does not come to a directory nothing is said of the second. -/
inductive LeadsOn (d : Disk) (aim : Aim) (name : Bytes) (slashes : List Bytes) :
    Except OsError Walk → Except OsError Walk → Prop
  | failed (e : OsError) (w : Except OsError Walk) : LeadsOn d aim name slashes (.error e) w
  | elsewhere {spot : Spot} (h : d.node? spot.place ≠ some .directory) (w : Except OsError Walk) :
      LeadsOn d aim name slashes (.ok (.arrived spot)) w
  | arrived (place : Place) :
      LeadsOn d aim name slashes (.ok (.arrived (.taken place))) (d.walk aim place [name])
  | detour (next : Place) (more : List Bytes) :
      LeadsOn d aim name slashes (.ok (.detour next (more ++ slashes)))
        (.ok (.detour next (more ++ [name])))

/-- Where there is nothing or a file, a walk to content ends, and not at a directory. -/
theorem enter_content_loose (hloose : Node.isLoose (d.node? (here ++ [name])) = true)
    (rest : List Bytes) :
    (∃ e, d.enter .content here name rest = .error e) ∨
      ∃ spot : Spot, d.enter .content here name rest = .ok (.arrived spot) ∧
        d.node? spot.place ≠ some .directory := by
  obtain ⟨e, he⟩ := enter_loose .content rest hloose
  rw [he]
  split
  · refine .inr ⟨_, rfl, ?_⟩
    rw [place_spotAt]
    exact not_directory_of_isLoose hloose
  · exact .inl ⟨e, rfl⟩

theorem leadsOn_enter {slashes : List Bytes} (n : Bytes) (rest : List Bytes)
    (hwalk : LeadsOn d aim name slashes (d.walk .content (here ++ [n]) (rest ++ slashes))
      (d.walk aim (here ++ [n]) (rest ++ [name]))) :
    LeadsOn d aim name slashes (d.enter .content here n (rest ++ slashes))
      (d.enter aim here n (rest ++ [name])) := by
  cases hloose : Node.isLoose (d.node? (here ++ [n])) with
  | true =>
    rcases enter_content_loose hloose (rest ++ slashes) with ⟨e, he⟩ | ⟨spot, hspot, helse⟩
    · rw [he]
      exact .failed e _
    · rw [hspot]
      exact .elsewhere helse _
  | false =>
    rcases Node.fixed_cases hloose with hnode | ⟨target, hnode⟩
    · rw [enter_directory hnode, enter_directory hnode]
      exact hwalk
    · have hcontent : ¬ (rest ++ slashes = [] ∧ Aim.content = .entry) := fun h => by cases h.2
      have hmore : ¬ (rest ++ [name] = [] ∧ aim = .entry) :=
        fun h => List.concat_ne_nil name rest h.1
      rw [enter_link hnode, enter_link hnode, if_neg hcontent, if_neg hmore,
        ← List.append_assoc, ← List.append_assoc]
      exact .detour _ _

/-- Where the names of a directory lead, one more name leads on. -/
theorem leadsOn_walk (hname : Path.IsName name) {slashes : List Bytes}
    (hslashes : ∀ name ∈ slashes, name = []) (here : Place) (names : List Bytes) :
    LeadsOn d aim name slashes (d.walk .content here (names ++ slashes))
      (d.walk aim here (names ++ [name])) := by
  induction names generalizing here with
  | nil =>
    rw [List.nil_append, walk_slashes hslashes]
    exact .arrived here
  | cons n rest ih =>
    have hcontent : ¬ (Aim.content = .output ∧ Path.areSlashes (rest ++ slashes) = true) :=
      fun h => by cases h.1
    have hmore : ¬ (aim = .output ∧ Path.areSlashes (rest ++ [name]) = true) := by
      rw [areSlashes_append hname]
      exact fun h => Bool.false_ne_true h.2
    rw [List.cons_append, List.cons_append, walk_cons, walk_cons, if_neg hcontent, if_neg hmore]
    split
    · exact ih here
    split
    · exact ih here.dropLast
    split
    · exact .failed _ _
    · exact leadsOn_enter n rest (ih (here ++ [n]))

theorem walkAround_inside (hname : Path.IsName name) (hfinal : d.Final aim (place ++ [name]))
    {slashes : List Bytes} (hslashes : ∀ name ∈ slashes, name = []) {detours : Nat}
    {names : List Bytes}
    (hlocate : d.walkAround .content detours here (names ++ slashes) = .ok (.taken place))
    (hdirectory : d.node? place = some .directory) :
    d.walkAround aim detours here (names ++ [name]) =
      if name.length > Path.maxName then .error .nameTooLong
      else .ok (d.spotAt (place ++ [name])) := by
  induction detours generalizing here names with
  | zero => cases hlocate
  | succ detours ih =>
    have hon : LeadsOn d aim name slashes _ _ := leadsOn_walk hname hslashes here names
    unfold walkAround at hlocate ⊢
    generalize d.walk .content here (names ++ slashes) = w at hon hlocate
    generalize d.walk aim here (names ++ [name]) = w' at hon
    cases hon with
    | failed e => cases hlocate
    | elsewhere h =>
      obtain rfl := Except.ok.inj hlocate
      exact absurd hdirectory h
    | arrived other =>
      obtain rfl := Spot.taken.inj (Except.ok.inj hlocate)
      rw [walk_name hname hfinal]
      by_cases hlong : name.length > Path.maxName
      · rw [if_pos hlong, if_pos hlong]
      · rw [if_neg hlong, if_neg hlong]
    | detour next more => exact ih hlocate

/-- Whether a path and its last name are short enough, and otherwise fit to be followed. -/
def mayName (directory name : Bytes) : Bool :=
  Path.objection? (Path.inside directory name) = none && name.length ≤ Path.maxName

/-- The path of a name in a directory leads to the name, unless it is a link to be followed. -/
theorem leads?_inside {directory : Bytes} (h : d.Houses directory place)
    (hname : Path.IsName name) (hfinal : d.Final aim (place ++ [name])) :
    d.leads? aim (Path.inside directory name) =
      if mayName directory name then some (place ++ [name]) else none := by
  obtain ⟨slashes, hnames, hslashes⟩ := Path.names_eq directory
  have hlocate := h.locate
  unfold locate at hlocate
  cases hdirectory : Path.objection? directory with
  | some e =>
    rw [hdirectory] at hlocate
    cases hlocate
  | none =>
    rw [hdirectory] at hlocate
    have hfind : d.walkAround .content 41 [] (Path.parts directory ++ slashes) =
        .ok (.taken place) := by
      rw [← hnames]
      exact hlocate
    unfold leads? locate mayName
    cases hpath : Path.objection? (Path.inside directory name) with
    | some e => rfl
    | none =>
      show Option.map _ (Except.toOption (d.walkAround aim 41 [] _)) = _
      rw [Path.names_inside directory hname,
        walkAround_inside hname hfinal hslashes hfind h.directory]
      by_cases hshort : name.length ≤ Path.maxName
      · rw [if_neg (Nat.not_lt.mpr hshort)]
        simp only [decide_true, hshort, Bool.and_self, if_true]
        exact congrArg some (place_spotAt d _)
      · rw [if_pos (Nat.lt_of_not_le hshort)]
        simp only [decide_true, hshort, decide_false, Bool.and_false, Bool.false_eq_true, if_false]
        rfl

end Disk
end MailCapture
