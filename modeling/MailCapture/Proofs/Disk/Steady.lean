import MailCapture.Disk.Calls

/-! Disks on which only files come and go.

Where a path leads is a matter of directories and links. As long as these stay (`Steady`), every
path leads to the same place, whether or not there is a file at it (`leads?_steady`), so what a
path will be written to can be said before anything is written. -/
namespace MailCapture

/-- Nothing, or a file: what writing turns into a file. -/
def Node.isLoose : Option Node → Bool
  | none | some (.file _) => true
  | _ => false

theorem Node.loose_cases {node : Option Node} (h : isLoose node = true) :
    node = none ∨ ∃ content, node = some (.file content) := by
  cases node with
  | none => exact .inl rfl
  | some node =>
    cases node with
    | file content => exact .inr ⟨content, rfl⟩
    | directory | link => cases h

theorem Node.fixed_cases {node : Option Node} (h : isLoose node = false) :
    node = some .directory ∨ ∃ target, node = some (.link target) := by
  cases node with
  | none => cases h
  | some node =>
    cases node with
    | file => cases h
    | directory => exact .inl rfl
    | link target => exact .inr ⟨target, rfl⟩

namespace Disk

/-! ### Where a walk is -/

def Spot.place : Spot → Place
  | .taken place | .vacant place => place

/-- The spot of a place. -/
def spotAt (d : Disk) (place : Place) : Spot :=
  if d.node? place = none then .vacant place else .taken place

/-- A directory that is reached through directories. -/
def Grounded (d : Disk) (here : Place) : Prop :=
  ∀ place, place <+: here → d.node? place = some .directory

variable {d d' : Disk} {aim : Aim} {here : Place}

theorem grounded_root (d : Disk) : d.Grounded [] := by
  intro place hplace
  rw [List.prefix_nil.mp hplace]
  exact d.node?_root

theorem Grounded.above (h : d.Grounded here) : d.Grounded here.dropLast :=
  fun place hplace => h place (hplace.trans (List.dropLast_prefix here))

theorem Grounded.below (h : d.Grounded here) {name : Bytes}
    (hname : d.node? (here ++ [name]) = some .directory) : d.Grounded (here ++ [name]) := by
  intro place hplace
  rcases List.prefix_concat_iff.mp hplace with rfl | hplace
  · exact hname
  · exact h place hplace

theorem not_directory_of_isLoose {place : Place} (h : Node.isLoose (d.node? place) = true) :
    d.node? place ≠ some .directory := by
  intro hdirectory
  rw [hdirectory] at h
  cases h

theorem Grounded.spotAt (h : d.Grounded here) : d.spotAt here = .taken here := by
  rw [Disk.spotAt, h here List.prefix_rfl]
  rfl

/-! ### Walks on two disks -/

/-- The same directories and links. Where one disk has a file the other may have another or none. -/
def Steady (d d' : Disk) : Prop :=
  ∀ place, d.node? place = d'.node? place ∨
    Node.isLoose (d.node? place) = true ∧ Node.isLoose (d'.node? place) = true

theorem Steady.refl (d : Disk) : d.Steady d := fun _ => .inl rfl

theorem Steady.trans {d'' : Disk} (h : d.Steady d') (h' : d'.Steady d'') : d.Steady d'' := by
  intro place
  rcases h place with heq | ⟨hloose, hloose'⟩
  · rw [heq]
    exact h' place
  · rcases h' place with heq | ⟨-, hloose''⟩
    · rw [← heq]
      exact .inr ⟨hloose, hloose'⟩
    · exact .inr ⟨hloose, hloose''⟩

theorem Steady.isLoose (h : d.Steady d') (place : Place) :
    Node.isLoose (d.node? place) = Node.isLoose (d'.node? place) := by
  rcases h place with heq | ⟨hd, hd'⟩
  · rw [heq]
  · rw [hd, hd']

theorem Steady.directory (h : d.Steady d') {place : Place}
    (hnode : d.node? place = some .directory) : d'.node? place = some .directory := by
  rcases h place with heq | ⟨hd, -⟩
  · rw [← heq, hnode]
  · rw [hnode] at hd
    cases hd

theorem Steady.grounded (h : d.Steady d') (hhere : d.Grounded here) : d'.Grounded here :=
  fun place hplace => h.directory (hhere place hplace)

/-- What a path comes to on two such disks: the same place, as each of them has it, or another
directory to go on from. -/
inductive Alike (d d' : Disk) : Except OsError Walk → Except OsError Walk → Prop
  | failed (e e' : OsError) : Alike d d' (.error e) (.error e')
  | arrived (place : Place) :
      Alike d d' (.ok (.arrived (d.spotAt place))) (.ok (.arrived (d'.spotAt place)))
  | detour {here : Place} (names : List Bytes) (grounded : d.Grounded here) :
      Alike d d' (.ok (.detour here names)) (.ok (.detour here names))

/-- The step onto a name that is neither `.` nor `..`. -/
def enter (d : Disk) (aim : Aim) (here : Place) (name : Bytes) (rest : List Bytes) :
    Except OsError Walk :=
  let place := here ++ [name]
  match d.node? place with
  | none => if rest = [] then .ok (.arrived (.vacant place)) else .error .notFound
  | some .directory => walk d aim place rest
  | some (.file _) => if rest = [] then .ok (.arrived (.taken place)) else .error .notDirectory
  | some (.link target) =>
    if rest = [] ∧ aim = .entry then .ok (.arrived (.taken place))
    else .ok (.detour (if Path.isAbsolute target then [] else here) (Path.names target ++ rest))

theorem walk_cons (d : Disk) (aim : Aim) (here : Place) (name : Bytes) (rest : List Bytes) :
    d.walk aim here (name :: rest) =
      if name = [] ∨ name = Path.here then d.walk aim here rest
      else if name = Path.above then d.walk aim here.dropLast rest
      else if aim = .output ∧ Path.areSlashes rest then .error .isDirectory
      else if name.length > Path.maxName then .error .nameTooLong
      else d.enter aim here name rest := rfl

variable {name : Bytes} {rest : List Bytes}

theorem enter_loose (aim : Aim) (rest : List Bytes)
    (h : Node.isLoose (d.node? (here ++ [name])) = true) : ∃ e, d.enter aim here name rest =
      if rest = [] then .ok (.arrived (d.spotAt (here ++ [name]))) else .error e := by
  rcases Node.loose_cases h with hnode | ⟨content, hnode⟩
  · simp only [enter, spotAt, hnode, if_true]
    exact ⟨.notFound, rfl⟩
  · simp only [enter, spotAt, hnode, reduceCtorEq, if_false]
    exact ⟨.notDirectory, rfl⟩

theorem enter_directory (h : d.node? (here ++ [name]) = some .directory) :
    d.enter aim here name rest = d.walk aim (here ++ [name]) rest := by
  simp only [enter, h]

theorem enter_link {target : Bytes} (h : d.node? (here ++ [name]) = some (.link target)) :
    d.enter aim here name rest =
      if rest = [] ∧ aim = .entry then .ok (.arrived (d.spotAt (here ++ [name])))
      else .ok (.detour (if Path.isAbsolute target then [] else here)
        (Path.names target ++ rest)) := by
  have hspot : d.spotAt (here ++ [name]) = .taken (here ++ [name]) :=
    if_neg (by rw [h]; exact Option.some_ne_none _)
  simp only [enter, h, hspot]

theorem alike_enter (h : d.Steady d') (hhere : d.Grounded here)
    (hwalk : d.Grounded (here ++ [name]) →
      Alike d d' (d.walk aim (here ++ [name]) rest) (d'.walk aim (here ++ [name]) rest)) :
    Alike d d' (d.enter aim here name rest) (d'.enter aim here name rest) := by
  cases hloose : Node.isLoose (d.node? (here ++ [name])) with
  | true =>
    obtain ⟨e, he⟩ := enter_loose aim rest hloose
    obtain ⟨e', he'⟩ := enter_loose aim rest ((h.isLoose _).symm.trans hloose)
    rw [he, he']
    split
    · exact .arrived _
    · exact .failed e e'
  | false =>
    have heq : d.node? (here ++ [name]) = d'.node? (here ++ [name]) := by
      rcases h (here ++ [name]) with heq | ⟨hd, -⟩
      · exact heq
      · rw [hloose] at hd
        cases hd
    rcases Node.fixed_cases hloose with hnode | ⟨target, hnode⟩
    · rw [enter_directory hnode, enter_directory (heq.symm.trans hnode)]
      exact hwalk (hhere.below hnode)
    · rw [enter_link hnode, enter_link (heq.symm.trans hnode)]
      split
      · exact .arrived _
      · refine .detour _ ?_
        split
        · exact d.grounded_root
        · exact hhere

theorem alike_walk (h : d.Steady d') (aim : Aim) (hhere : d.Grounded here) (names : List Bytes) :
    Alike d d' (d.walk aim here names) (d'.walk aim here names) := by
  induction names generalizing here with
  | nil =>
    have harrived : Alike d d' _ _ := .arrived here
    rwa [hhere.spotAt, (h.grounded hhere).spotAt] at harrived
  | cons name rest ih =>
    rw [walk_cons, walk_cons]
    split
    · exact ih hhere
    split
    · exact ih hhere.above
    split
    · exact .failed _ _
    split
    · exact .failed _ _
    · exact alike_enter h hhere fun hbelow => ih hbelow

/-! ### Paths on two disks -/

/-- Where a path leads, whether or not there is anything. -/
def leads? (d : Disk) (aim : Aim) (path : Bytes) : Option Place :=
  (d.locate aim path).toOption.map Spot.place

/-- Either there is no way on both disks or it ends at the same place. -/
theorem walkAround_steady (h : d.Steady d') (aim : Aim) (detours : Nat) (hhere : d.Grounded here)
    (names : List Bytes) :
    (∃ e e', d.walkAround aim detours here names = .error e ∧
      d'.walkAround aim detours here names = .error e') ∨
      ∃ place, d.walkAround aim detours here names = .ok (d.spotAt place) ∧
        d'.walkAround aim detours here names = .ok (d'.spotAt place) := by
  induction detours generalizing here names with
  | zero => exact .inl ⟨_, _, rfl, rfl⟩
  | succ detours ih =>
    have halike := alike_walk h aim hhere names
    unfold walkAround
    generalize d.walk aim here names = w at halike
    generalize d'.walk aim here names = w' at halike
    cases halike with
    | failed e e' => exact .inl ⟨e, e', rfl, rfl⟩
    | arrived place => exact .inr ⟨place, rfl, rfl⟩
    | detour names grounded => exact ih grounded names

theorem locate_steady (h : d.Steady d') (aim : Aim) (path : Bytes) :
    (∃ e e', d.locate aim path = .error e ∧ d'.locate aim path = .error e') ∨
      ∃ place, d.locate aim path = .ok (d.spotAt place) ∧
        d'.locate aim path = .ok (d'.spotAt place) := by
  unfold locate
  cases Path.objection? path with
  | some e => exact .inl ⟨e, e, rfl, rfl⟩
  | none => exact walkAround_steady h aim 41 d.grounded_root _

@[simp] theorem place_spotAt (d : Disk) (place : Place) : (d.spotAt place).place = place := by
  unfold spotAt
  split <;> rfl

theorem leads?_steady (h : d.Steady d') (aim : Aim) (path : Bytes) :
    d.leads? aim path = d'.leads? aim path := by
  unfold leads?
  rcases locate_steady h aim path with ⟨e, e', hd, hd'⟩ | ⟨place, hd, hd'⟩
  · rw [hd, hd']
    rfl
  · rw [hd, hd']
    show some (d.spotAt place).place = some (d'.spotAt place).place
    rw [place_spotAt, place_spotAt]

/-- What a path leads to is as its place has it. -/
theorem locate_cases (d : Disk) (aim : Aim) (path : Bytes) :
    (d.leads? aim path = none ∧ ∃ e, d.locate aim path = .error e) ∨
      ∃ place, d.leads? aim path = some place ∧ d.locate aim path = .ok (d.spotAt place) := by
  unfold leads?
  rcases locate_steady (.refl d) aim path with ⟨e, -, hd, -⟩ | ⟨place, hd, -⟩
  · rw [hd]
    exact .inl ⟨rfl, e, rfl⟩
  · rw [hd]
    exact .inr ⟨place, congrArg some (place_spotAt d place), rfl⟩

theorem locate_of_leads {path : Bytes} {place : Place} (h : d.leads? aim path = some place) :
    d.locate aim path = .ok (d.spotAt place) := by
  rcases locate_cases d aim path with ⟨hnone, -⟩ | ⟨other, hother, hlocate⟩
  · rw [h] at hnone
    cases hnone
  · obtain rfl := Option.some.inj (h.symm.trans hother)
    exact hlocate

/-! ### What calls leave behind -/

/-- The same entries, whatever the disk will refuse. -/
def Same (d d' : Disk) : Prop := ∀ place, d'.node? place = d.node? place

theorem Same.refl (d : Disk) : d.Same d := fun _ => rfl

theorem Same.trans {d'' : Disk} (h : d.Same d') (h' : d'.Same d'') : d.Same d'' :=
  fun place => (h' place).trans (h place)

theorem Same.steady (h : d.Same d') : d.Steady d' := fun place => .inl (h place).symm

theorem attempt_of_no_refusals {α : Type} (h : d.refusals = [])
    (call : Disk → Except OsError α × Disk) : d.attempt call = call d := by
  unfold attempt
  rw [h]

/-- Whether the call that comes after so many others is not refused. -/
def grants (d : Disk) (calls : Nat) : Bool := d.refusals[calls]?.join.isNone

theorem grants_of_drop {calls : Nat} (h : d'.refusals = d.refusals.drop calls) :
    d'.grants 0 = d.grants calls := by
  rw [grants, grants, h, List.getElem?_drop, Nat.add_zero]

/-- A call is made on the same entries or refused. -/
theorem attempt_cases {α : Type} (d : Disk) (call : Disk → Except OsError α × Disk) :
    ∃ now, d.Same now ∧ now.refusals = d.refusals.tail ∧
      (d.grants 0 = true ∧ d.attempt call = call now ∨
        d.grants 0 = false ∧ ∃ e, d.attempt call = (.error e, now)) := by
  unfold attempt grants
  cases hrefusals : d.refusals with
  | nil => exact ⟨d, .refl d, hrefusals, .inl ⟨rfl, rfl⟩⟩
  | cons refusal rest =>
    refine ⟨{d with refusals := rest}, fun _ => rfl, rfl, ?_⟩
    cases refusal with
    | none => exact .inl ⟨rfl, rfl⟩
    | some e => exact .inr ⟨rfl, e, rfl⟩

/-- What holds of the same entries and of what a call makes of them holds after the call. -/
theorem attempt_disk {α : Type} {Q : Disk → Prop} {call : Disk → Except OsError α × Disk}
    (hrefused : ∀ now, d.Same now → Q now) (hcall : ∀ now, d.Same now → Q (call now).2) :
    Q (d.attempt call).2 := by
  obtain ⟨now, hnow, -, ⟨-, hattempt⟩ | ⟨-, e, hattempt⟩⟩ := d.attempt_cases call
  · rw [hattempt]
    exact hcall now hnow
  · rw [hattempt]
    exact hrefused now hnow

/-- A call that was not refused has been made. -/
theorem attempt_ok {α : Type} {call : Disk → Except OsError α × Disk} {a : α}
    (h : (d.attempt call).1 = .ok a) :
    ∃ now, d.Same now ∧ (call now).1 = .ok a ∧ (d.attempt call).2 = (call now).2 := by
  obtain ⟨now, hnow, -, ⟨-, hattempt⟩ | ⟨-, e, hattempt⟩⟩ := d.attempt_cases call
  · rw [hattempt] at h ⊢
    exact ⟨now, hnow, h, rfl⟩
  · rw [hattempt] at h
    cases h

/-- Every call takes one refusal off the list, or none is left. -/
theorem refusals_attempt {α : Type} {call : Disk → Except OsError α × Disk}
    (hcall : ∀ now, (call now).2.refusals = now.refusals) :
    (d.attempt call).2.refusals = d.refusals.tail := by
  obtain ⟨now, -, hnow, ⟨-, hattempt⟩ | ⟨-, e, hattempt⟩⟩ := d.attempt_cases call
  · rw [hattempt, hcall, hnow]
  · rw [hattempt, hnow]

theorem same_list (d : Disk) (path : Bytes) : d.Same (d.list path).2 :=
  attempt_disk (fun _ h => h) fun _ h => h

theorem same_read (d : Disk) (path : Bytes) : d.Same (d.read path).2 :=
  attempt_disk (fun _ h => h) fun _ h => h

theorem refusals_list (d : Disk) (path : Bytes) : (d.list path).2.refusals = d.refusals.tail :=
  refusals_attempt fun _ => rfl

theorem refusals_read (d : Disk) (path : Bytes) : (d.read path).2.refusals = d.refusals.tail :=
  refusals_attempt fun _ => rfl

theorem refusals_remove (d : Disk) (path : Bytes) :
    (d.remove path).2.refusals = d.refusals.tail := by
  refine refusals_attempt fun now => ?_
  split
  · rfl
  · rfl
  · split <;> rfl

theorem ne_root_of_isLoose {place : Place} (h : Node.isLoose (d.node? place) = true) :
    place ≠ [] := by
  intro heq
  subst heq
  rw [node?_root] at h
  cases h

/-- Writing leaves every place as it is but the one its path leads to, if that can hold a file. -/
inductive Written (d : Disk) (path content : Bytes) (after : Disk) : Prop
  | same (same : d.Same after)
  | file (place : Place) (leads : d.leads? .output path = some place)
      (loose : Node.isLoose (d.node? place) = true)
      (here : after.node? place = some (.file content))
      (elsewhere : ∀ other, other ≠ place → after.node? other = d.node? other)

theorem write_now {path content : Bytes} {place : Place} (hrefusals : d.refusals = [])
    (hleads : d.leads? .output path = some place) (hloose : Node.isLoose (d.node? place) = true) :
    d.write path content = (.ok (), d.put place (.file content)) := by
  rw [write, attempt_of_no_refusals hrefusals, locate_of_leads hleads, spotAt]
  rcases Node.loose_cases hloose with hnode | ⟨old, hnode⟩
  · simp only [hnode, if_true]
  · simp only [hnode, reduceCtorEq, if_false]

theorem written_write (d : Disk) (path content : Bytes) :
    d.Written path content (d.write path content).2 := by
  refine attempt_disk (fun _ h => .same h) fun now hnow => ?_
  rcases locate_cases now .output path with ⟨-, e, hlocate⟩ | ⟨place, hleads, hlocate⟩
  · rw [hlocate]
    exact .same hnow
  rw [← leads?_steady hnow.steady] at hleads
  have hput (hloose : Node.isLoose (now.node? place) = true) :
      d.Written path content (now.put place (.file content)) := by
    have hne := ne_root_of_isLoose hloose
    rw [hnow place] at hloose
    refine .file place hleads hloose (node?_put_self hne now _) fun other hother => ?_
    rw [node?_put_of_ne hother, hnow other]
  rw [hlocate, spotAt]
  cases hnode : now.node? place with
  | none => exact hput (by rw [hnode]; rfl)
  | some node =>
    simp only [reduceCtorEq, if_false, hnode]
    cases node with
    | file old => exact hput (by rw [hnode]; rfl)
    | directory | link => exact .same hnow

theorem refusals_write (h : d.refusals = []) (path content : Bytes) :
    (d.write path content).2.refusals = [] := by
  rw [write, attempt_of_no_refusals h]
  split
  · exact h
  · exact h
  · split
    · exact h
    · exact h

/-- A file that is written stays a file. -/
theorem Written.file_of_file {path content : Bytes} (h : d.Written path content d') {place : Place}
    (hfile : ∃ old, d.node? place = some (.file old)) :
    ∃ new, d'.node? place = some (.file new) := by
  obtain ⟨old, hold⟩ := hfile
  cases h with
  | same same => exact ⟨old, (same place).trans hold⟩
  | file target leads loose here elsewhere =>
    by_cases heq : place = target
    · exact ⟨content, heq ▸ here⟩
    · exact ⟨old, (elsewhere place heq).trans hold⟩

theorem Written.steady {path content : Bytes} (h : d.Written path content d') : d.Steady d' := by
  cases h with
  | same same => exact same.steady
  | file place leads loose here elsewhere =>
    intro other
    by_cases hother : other = place
    · rw [hother, here]
      exact .inr ⟨loose, rfl⟩
    · exact .inl (elsewhere other hother).symm

/-- Removing leaves every place as it is, or vacant. -/
def Thinned (d d' : Disk) : Prop :=
  ∀ place, d'.node? place = none ∨ d'.node? place = d.node? place

theorem Same.thinned (h : d.Same d') : d.Thinned d' := fun place => .inr (h place)

theorem Thinned.trans {d'' : Disk} (h : d.Thinned d') (h' : d'.Thinned d'') : d.Thinned d'' := by
  intro place
  rcases h' place with hnone | heq
  · exact .inl hnone
  · rw [heq]
    exact h place

theorem node?_erase_self {place : Place} (h : place ≠ []) (d : Disk) :
    (d.erase place).node? place = none := by
  rw [node?, if_neg h, List.lookup_eq_none_iff]
  intro entry hentry
  have hne := of_decide_eq_true (List.mem_filter.mp hentry).2
  exact bne_iff_ne.mpr (Ne.symm hne)

/-- What is there to be removed: anything but a directory. -/
def Removable (d : Disk) (path : Bytes) (place : Place) : Prop :=
  d.leads? .entry path = some place ∧ d.node? place ≠ none ∧ d.node? place ≠ some .directory

/-- What removing comes to. -/
inductive Removed (d : Disk) (path : Bytes) (after : Disk) : Except OsError Unit → Prop
  | gone (granted : d.grants 0 = true) (place : Place) (removable : d.Removable path place)
      (here : after.node? place = none)
      (elsewhere : ∀ other, other ≠ place → after.node? other = d.node? other) :
      Removed d path after (.ok ())
  | left (e : OsError) (same : d.Same after)
      (why : d.grants 0 = true → ∀ place, ¬ d.Removable path place) : Removed d path after (.error e)

theorem removed_remove (d : Disk) (path : Bytes) :
    d.Removed path (d.remove path).2 (d.remove path).1 := by
  unfold remove
  obtain ⟨now, hnow, -, ⟨hgranted, hattempt⟩ | ⟨hrefused, e, hattempt⟩⟩ := d.attempt_cases _
  · rw [hattempt]
    rcases locate_cases now .entry path with ⟨hnone, e, hlocate⟩ | ⟨place, hleads, hlocate⟩
    · rw [hlocate]
      refine .left e hnow fun _ place hplace => ?_
      rw [Removable, leads?_steady hnow.steady, hnone] at hplace
      cases hplace.1
    · have hplace {other : Place} (h : d.Removable path other) : other = place := by
        have hother := h.1
        rw [leads?_steady hnow.steady, hleads] at hother
        exact (Option.some.inj hother).symm
      rw [← leads?_steady hnow.steady] at hleads
      rw [hlocate, spotAt, hnow place]
      by_cases hvacant : d.node? place = none
      · rw [if_pos hvacant]
        exact .left _ hnow fun _ other h => h.2.1 (hplace h ▸ hvacant)
      · by_cases hdirectory : d.node? place = some .directory
        · simp only [if_neg hvacant, hnow place, if_pos hdirectory]
          exact .left _ hnow fun _ other h => h.2.2 (hplace h ▸ hdirectory)
        · have hne : place ≠ [] := by
            rintro rfl
            exact hdirectory d.node?_root
          simp only [if_neg hvacant, hnow place, if_neg hdirectory]
          refine .gone hgranted place ⟨hleads, hvacant, hdirectory⟩ (node?_erase_self hne now) ?_
          intro other hother
          rw [node?_erase_of_ne hother, hnow other]
  · rw [hattempt]
    exact .left e hnow fun hgranted => absurd hgranted (by rw [hrefused]; decide)

theorem Removed.thinned {path : Bytes} {result : Except OsError Unit}
    (h : d.Removed path d' result) : d.Thinned d' := by
  cases h with
  | left e same why => exact same.thinned
  | gone granted place removable here elsewhere =>
    intro other
    by_cases hother : other = place
    · exact .inl (hother ▸ here)
    · exact .inr (elsewhere other hother)

/-- Removing what is a file, if anything. -/
theorem Removed.steady {path : Bytes} {result : Except OsError Unit}
    (h : d.Removed path d' result) (hloose : ∀ place, d.leads? .entry path = some place →
      Node.isLoose (d.node? place) = true) : d.Steady d' := by
  cases h with
  | left e same why => exact same.steady
  | gone granted place removable here elsewhere =>
    intro other
    by_cases hother : other = place
    · rw [hother, here]
      exact .inr ⟨hloose place removable.1, rfl⟩
    · exact .inl (elsewhere other hother).symm

/-! ### Directories -/

/-- A path that leads to a directory. -/
structure Houses (d : Disk) (path : Bytes) (place : Place) : Prop where
  leads : d.leads? .content path = some place
  directory : d.node? place = some .directory

namespace Houses
variable {path : Bytes} {place : Place}

theorem steady (h : d.Houses path place) (hsteady : d.Steady d') : d'.Houses path place :=
  ⟨(leads?_steady hsteady .content path).symm.trans h.leads, hsteady.directory h.directory⟩

theorem unique (h : d.Houses path place) {other : Place} (h' : d.Houses path other) :
    place = other :=
  Option.some.inj (h.leads.symm.trans h'.leads)

theorem locate (h : d.Houses path place) : d.locate .content path = .ok (.taken place) := by
  rw [locate_of_leads h.leads, spotAt, h.directory]
  rfl

theorem isThere (h : d.Houses path place) : d.isThere path = true := by
  rw [Disk.isThere, h.locate]

end Houses

end Disk
end MailCapture
