import MailCapture.Proofs.Disk.Inside

/-! Directories that were made.

A directory is made at the vacant place its names lead to, and from then on the same names lead to
it, links included (`find_put`). So whatever path a disk says it has made leads to a directory
(`houses_createAll`), also where it was there already, or where names like `.` stand in the path. -/
namespace MailCapture.Disk
variable {d d' : Disk} {here place : Place} {names names' : List Bytes}

/-! ### Where a directory is made -/

/-- What a walk to an entry becomes for those who follow it, once a directory has been made. -/
inductive Filled (place : Place) : Except OsError Walk → Except OsError Walk → Prop
  | failed (e : OsError) (w : Except OsError Walk) : Filled place (.error e) w
  | taken (other : Place) (w : Except OsError Walk) : Filled place (.ok (.arrived (.taken other))) w
  | vacant (other : Place) (w : Except OsError Walk)
      (made : other = place → w = .ok (.arrived (.taken place))) :
      Filled place (.ok (.arrived (.vacant other))) w
  | detour (next : Place) (more : List Bytes) :
      Filled place (.ok (.detour next more)) (.ok (.detour next more))

theorem filled_enter (hvacant : d.node? place = none) (name : Bytes) (rest : List Bytes)
    (hwalk : Filled place (d.walk .entry (here ++ [name]) rest)
      ((d.put place .directory).walk .content (here ++ [name]) rest)) :
    Filled place (d.enter .entry here name rest)
      ((d.put place .directory).enter .content here name rest) := by
  have hother {node : Node} (hnode : d.node? (here ++ [name]) = some node) :
      (d.put place .directory).node? (here ++ [name]) = some node := by
    rw [node?_put_of_ne, hnode]
    intro heq
    subst heq
    rw [hvacant] at hnode
    cases hnode
  cases hnode : d.node? (here ++ [name]) with
  | none =>
    obtain ⟨e, he⟩ := enter_loose .entry rest (by rw [hnode]; rfl)
    rw [he]
    split
    · next hrest =>
      rw [spotAt, if_pos hnode, hrest]
      refine .vacant _ _ fun hplace => ?_
      have hmade := node?_put_self (List.concat_ne_nil name here) d .directory
      rw [← hplace, enter_directory hmade]
      rfl
    · exact .failed e _
  | some node =>
    cases node with
    | file content =>
      obtain ⟨e, he⟩ := enter_loose .entry rest (by rw [hnode]; rfl)
      rw [he]
      split
      · rw [spotAt, hnode]
        exact .taken _ _
      · exact .failed e _
    | directory =>
      rw [enter_directory hnode, enter_directory (hother hnode)]
      exact hwalk
    | link target =>
      have hcontent : ¬ (rest = [] ∧ Aim.content = .entry) := fun h => by cases h.2
      rw [enter_link hnode, enter_link (hother hnode), if_neg hcontent]
      split
      · rw [spotAt, hnode]
        exact .taken _ _
      · exact .detour _ _

theorem filled_walk (hvacant : d.node? place = none) (here : Place) (names : List Bytes) :
    Filled place (d.walk .entry here names)
      ((d.put place .directory).walk .content here names) := by
  induction names generalizing here with
  | nil => exact .taken here _
  | cons name rest ih =>
    have hentry : ¬ (Aim.entry = .output ∧ Path.areSlashes rest = true) := fun h => by cases h.1
    have hcontent : ¬ (Aim.content = .output ∧ Path.areSlashes rest = true) :=
      fun h => by cases h.1
    rw [walk_cons, walk_cons, if_neg hentry, if_neg hcontent]
    split
    · exact ih here
    split
    · exact ih here.dropLast
    split
    · exact .failed _ _
    · exact filled_enter hvacant name rest (ih (here ++ [name]))

theorem walkAround_put (hvacant : d.node? place = none) {detours : Nat}
    (h : d.walkAround .entry detours here names = .ok (.vacant place)) :
    (d.put place .directory).walkAround .content detours here names = .ok (.taken place) := by
  induction detours generalizing here names with
  | zero => cases h
  | succ detours ih =>
    have hfilled := filled_walk hvacant here names
    unfold walkAround at h ⊢
    generalize d.walk .entry here names = w at hfilled h
    generalize (d.put place .directory).walk .content here names = w' at hfilled
    cases hfilled with
    | failed e => cases h
    | taken other => cases h
    | vacant other _ made =>
      rw [made (Spot.vacant.inj (Except.ok.inj h))]
    | detour next more => exact ih h

theorem node?_of_vacant {aim : Aim} (h : d.find aim names = .ok (.vacant place)) :
    d.node? place = none := by
  rcases walkAround_steady (.refl d) aim 41 d.grounded_root names with
    ⟨e, -, herror, -⟩ | ⟨other, hfind, -⟩
  · cases h.symm.trans herror
  · have hspot := Except.ok.inj (h.symm.trans hfind)
    unfold spotAt at hspot
    split at hspot
    · next hnone =>
      rw [Spot.vacant.inj hspot]
      exact hnone
    · cases hspot

/-- The names that led to a vacant place lead to the directory that is made there. -/
theorem find_put (h : d.find .entry names = .ok (.vacant place)) :
    (d.put place .directory).find .content names = .ok (.taken place) ∧
      (d.put place .directory).node? place = some .directory := by
  have hvacant := node?_of_vacant h
  have hne : place ≠ [] := by
    intro heq
    subst heq
    rw [node?_root] at hvacant
    cases hvacant
  exact ⟨walkAround_put hvacant h, node?_put_self hne d .directory⟩

/-! ### Making -/

theorem isDirectory_iff : d.isDirectory names = true ↔
    ∃ place, d.find .content names = .ok (.taken place) ∧ d.node? place = some .directory := by
  unfold isDirectory
  cases d.find .content names with
  | error e => simp
  | ok spot => cases spot <;> simp

theorem isDirectory_make (h : d.make names = .ok d') : d'.isDirectory names = true := by
  unfold make at h
  split at h
  · cases h
  · cases h
  · next place hfind =>
    cases h
    exact isDirectory_iff.mpr ⟨place, find_put hfind⟩

theorem isDirectory_settle {e : OsError} (h : d.settle names e = .ok ()) :
    d.isDirectory names = true := by
  unfold settle at h
  split at h
  · next hdirectory => exact hdirectory
  · cases h

theorem isDirectory_makeBelow {makeAbove : Disk → Except OsError Unit × Disk}
    (h : (d.makeBelow names makeAbove).1 = .ok ()) :
    (d.makeBelow names makeAbove).2.isDirectory names = true := by
  unfold makeBelow at h ⊢
  split at h
  · next hmake => exact isDirectory_make hmake
  · split at h
    · cases h
    · split at h
      · next hmake => exact isDirectory_make hmake
      · exact isDirectory_settle h
  · exact isDirectory_settle h

theorem isDirectory_makeAll (names : List Bytes) (h : (makeAll names d).1 = .ok ()) :
    (makeAll names d).2.isDirectory names.reverse = true := by
  cases names with
  | nil => exact isDirectory_iff.mpr ⟨[], rfl, node?_root _⟩
  | cons name above => exact isDirectory_makeBelow h

/-! ### Names that lead nowhere -/

/-- The same names, but for empty ones and `.`. -/
inductive SameWay : List Bytes → List Bytes → Prop
  | nil : SameWay [] []
  | left {name a b} (skipped : name = [] ∨ name = Path.here) (rest : SameWay a b) :
      SameWay (name :: a) b
  | right {name a b} (skipped : name = [] ∨ name = Path.here) (rest : SameWay a b) :
      SameWay a (name :: b)
  | both {a b} (name : Bytes) (rest : SameWay a b) : SameWay (name :: a) (name :: b)

namespace SameWay
variable {a b : List Bytes}

theorem append_left (before : List Bytes) (h : SameWay a b) :
    SameWay (before ++ a) (before ++ b) := by
  induction before with
  | nil => exact h
  | cons name rest ih => exact .both name ih

theorem append_right {slashes : List Bytes} (hslashes : ∀ name ∈ slashes, name = []) :
    SameWay a (a ++ slashes) := by
  have hnil : SameWay [] slashes := by
    induction slashes with
    | nil => exact .nil
    | cons slash rest ih =>
      obtain ⟨hslash, hrest⟩ := List.forall_mem_cons.mp hslashes
      exact .right (.inl hslash) (ih hrest)
  have happend := hnil.append_left a
  rwa [List.append_nil] at happend

theorem here_left (h : SameWay a b) : SameWay (a ++ [Path.here]) b := by
  induction h with
  | nil => exact .left (.inr rfl) .nil
  | left skipped _ ih => exact .left skipped ih
  | right skipped _ ih => exact .right skipped ih
  | both name _ ih => exact .both name ih

theorem filter_here (names : List Bytes) : SameWay (names.filter (· ≠ Path.here)) names := by
  induction names with
  | nil => exact .nil
  | cons name rest ih =>
    by_cases hname : name = Path.here
    · rw [List.filter_cons_of_neg (by simpa using hname)]
      exact .right (.inr hname) ih
    · rw [List.filter_cons_of_pos (by simpa using hname)]
      exact .both name ih

theorem trans_slashes {slashes : List Bytes} (hslashes : ∀ name ∈ slashes, name = [])
    (h : SameWay a b) : SameWay a (b ++ slashes) := by
  induction h with
  | nil => exact append_right hslashes
  | left skipped _ ih => exact .left skipped ih
  | right skipped _ ih => exact .right skipped ih
  | both name _ ih => exact .both name ih

end SameWay

/-- What walks along the same names come to, where the first comes to a directory. -/
inductive Meets (d : Disk) : Except OsError Walk → Except OsError Walk → Prop
  | failed (e : OsError) (w : Except OsError Walk) : Meets d (.error e) w
  | elsewhere {spot : Spot} (h : d.node? spot.place ≠ some .directory) (w : Except OsError Walk) :
      Meets d (.ok (.arrived spot)) w
  | arrived (spot : Spot) : Meets d (.ok (.arrived spot)) (.ok (.arrived spot))
  | detour (next : Place) {more more' : List Bytes} (same : SameWay more more') :
      Meets d (.ok (.detour next more)) (.ok (.detour next more'))

theorem meets_enter {rest rest' : List Bytes} (name : Bytes) (h : SameWay rest rest')
    (hwalk : Meets d (d.walk .content (here ++ [name]) rest)
      (d.walk .content (here ++ [name]) rest')) :
    Meets d (d.enter .content here name rest) (d.enter .content here name rest') := by
  cases hloose : Node.isLoose (d.node? (here ++ [name])) with
  | true =>
    rcases enter_content_loose hloose rest with ⟨e, he⟩ | ⟨spot, hspot, helse⟩
    · rw [he]
      exact .failed e _
    · rw [hspot]
      exact .elsewhere helse _
  | false =>
    rcases Node.fixed_cases hloose with hnode | ⟨target, hnode⟩
    · rw [enter_directory hnode, enter_directory hnode]
      exact hwalk
    · have hcontent (rest : List Bytes) : ¬ (rest = [] ∧ Aim.content = .entry) :=
        fun h => by cases h.2
      rw [enter_link hnode, enter_link hnode, if_neg (hcontent rest), if_neg (hcontent rest')]
      exact .detour _ (h.append_left _)

theorem meets_walk (h : SameWay names names') (here : Place) :
    Meets d (d.walk .content here names) (d.walk .content here names') := by
  induction h generalizing here with
  | nil => exact .arrived _
  | left skipped _ ih =>
    rw [walk_cons, if_pos skipped]
    exact ih here
  | right skipped _ ih =>
    rw [walk_cons d .content here _ _, if_pos skipped]
    exact ih here
  | @both rest rest' name h ih =>
    have hcontent (rest : List Bytes) :
        ¬ (Aim.content = .output ∧ Path.areSlashes rest = true) := fun h => by cases h.1
    rw [walk_cons, walk_cons, if_neg (hcontent rest), if_neg (hcontent rest')]
    split
    · exact ih here
    split
    · exact ih here.dropLast
    split
    · exact .failed _ _
    · exact meets_enter name h (ih (here ++ [name]))

theorem walkAround_sameWay (h : SameWay names names') {detours : Nat}
    (hwalk : d.walkAround .content detours here names = .ok (.taken place))
    (hdirectory : d.node? place = some .directory) :
    d.walkAround .content detours here names' = .ok (.taken place) := by
  induction detours generalizing here names names' with
  | zero => cases hwalk
  | succ detours ih =>
    have hmeets := meets_walk (d := d) h here
    unfold walkAround at hwalk ⊢
    generalize d.walk .content here names = w at hmeets hwalk
    generalize d.walk .content here names' = w' at hmeets
    cases hmeets with
    | failed e => cases hwalk
    | elsewhere helse =>
      obtain rfl := Except.ok.inj hwalk
      exact absurd hdirectory helse
    | arrived spot => exact hwalk
    | detour next same => exact ih same hwalk

/-! ### Paths -/

theorem houses_of_isDirectory {path : Bytes} (hpath : Path.objection? path = none)
    (h : SameWay names (Path.names path)) (hnames : d.isDirectory names = true) :
    ∃ place, d.Houses path place := by
  obtain ⟨place, hfind, hdirectory⟩ := isDirectory_iff.mp hnames
  refine ⟨place, ?_, hdirectory⟩
  unfold leads? locate
  rw [hpath]
  show Option.map _ (Except.toOption (d.walkAround .content 41 [] _)) = _
  rw [walkAround_sameWay h hfind hdirectory]
  rfl

theorem sameWay_steps (path : Bytes) : SameWay (Path.steps path) (Path.names path) := by
  obtain ⟨slashes, hnames, hslashes⟩ := Path.names_eq path
  rw [hnames]
  exact (SameWay.filter_here (Path.parts path)).trans_slashes hslashes

/-- What a disk says it has made is there. -/
theorem houses_createAll {path : Bytes} (h : (d.createAll path).1 = .ok ()) :
    ∃ place, (d.createAll path).2.Houses path place := by
  obtain ⟨now, -, hcall, hafter⟩ := attempt_ok h
  unfold createAll
  rw [hafter]
  cases hpath : Path.objection? path with
  | some e =>
    rw [hpath] at hcall
    cases hcall
  | none =>
    rw [hpath] at hcall
    simp only at hcall ⊢
    by_cases hend : Path.endsHere path = true
    · rw [if_pos hend] at hcall ⊢
      exact houses_of_isDirectory hpath (sameWay_steps path).here_left
        (isDirectory_makeBelow hcall)
    · rw [if_neg hend] at hcall ⊢
      have hmade := isDirectory_makeAll _ hcall
      rw [List.reverse_reverse] at hmade
      exact houses_of_isDirectory hpath (sameWay_steps path) hmade

end MailCapture.Disk
