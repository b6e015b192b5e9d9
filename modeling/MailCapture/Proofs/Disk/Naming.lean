import MailCapture.Proofs.Disk.Making

/-! Names without slashes.

A path is cut at its slashes, so there is none in a name on its way nor in the place it leads to
(`unslashed_leads`). Therefore no name on a disk ever gets one, if none had it before: not when
files come and go, nor when directories are made (`grown_createAll`). What a directory lists is
exactly what the names in it lead to (`mem_children`). -/
namespace MailCapture

theorem Text.notMem_of_mem_split {α : Type} [DecidableEq α] {separator : α} {t part : List α}
    (h : part ∈ split separator t) : separator ∉ part := by
  induction t generalizing part with
  | nil =>
    obtain rfl := List.mem_singleton.mp h
    exact List.not_mem_nil
  | cons c rest ih =>
    unfold split at h
    split at h
    · rcases List.mem_cons.mp h with rfl | h
      · exact List.not_mem_nil
      · exact ih h
    · next hc =>
      split at h
      · obtain rfl := List.mem_singleton.mp h
        exact fun hmem => hc (List.mem_singleton.mp hmem).symm
      · next first more hsplit =>
        rw [hsplit] at ih
        rcases List.mem_cons.mp h with rfl | h
        · refine fun hmem => ?_
          rcases List.mem_cons.mp hmem with rfl | hmem
          · exact hc rfl
          · exact ih List.mem_cons_self hmem
        · exact ih (List.mem_cons_of_mem first h)

namespace Path

def Unslashed (names : List Bytes) : Prop := ∀ name ∈ names, slash ∉ name

instance (names : List Bytes) : Decidable (Unslashed names) :=
  inferInstanceAs (Decidable (∀ name ∈ names, slash ∉ name))

variable {a b : List Bytes}

theorem Unslashed.nil : Unslashed [] := fun _ h => absurd h List.not_mem_nil

theorem Unslashed.append (ha : Unslashed a) (hb : Unslashed b) : Unslashed (a ++ b) := by
  intro name hname
  rcases List.mem_append.mp hname with hname | hname
  · exact ha name hname
  · exact hb name hname

theorem Unslashed.dropLast (h : Unslashed a) : Unslashed a.dropLast :=
  fun name hname => h name ((List.dropLast_sublist a).mem hname)

theorem unslashed_parts (path : Bytes) : Unslashed (parts path) :=
  fun _ h => Text.notMem_of_mem_split (List.mem_filter.mp h).1

theorem unslashed_names (path : Bytes) : Unslashed (names path) := by
  obtain ⟨slashes, hnames, hslashes⟩ := names_eq path
  rw [hnames]
  refine (unslashed_parts path).append fun name hname => ?_
  rw [hslashes name hname]
  exact List.not_mem_nil

theorem unslashed_steps (path : Bytes) : Unslashed (steps path) :=
  fun name h => unslashed_parts path name (List.mem_filter.mp h).1

end Path

namespace Disk
open MailCapture.Path
variable {d d' : Disk} {aim : Aim} {here place : Place} {names : List Bytes}

/-! ### Places of paths -/

/-- What a walk without slashes comes to. -/
def Walk.Unslashed : Except OsError Walk → Prop
  | .error _ => True
  | .ok (.arrived spot) => Path.Unslashed spot.place
  | .ok (.detour here names) => Path.Unslashed here ∧ Path.Unslashed names

theorem unslashed_enter {name : Bytes} {rest : List Bytes} (hhere : Unslashed here)
    (hname : slash ∉ name) (hrest : Unslashed rest)
    (hwalk : Walk.Unslashed (d.walk aim (here ++ [name]) rest)) :
    Walk.Unslashed (d.enter aim here name rest) := by
  have hplace : Unslashed (here ++ [name]) :=
    hhere.append fun _ hmem => List.mem_singleton.mp hmem ▸ hname
  cases hloose : Node.isLoose (d.node? (here ++ [name])) with
  | true =>
    obtain ⟨e, he⟩ := enter_loose aim rest hloose
    rw [he]
    split
    · show Unslashed (d.spotAt (here ++ [name])).place
      rwa [place_spotAt]
    · trivial
  | false =>
    rcases Node.fixed_cases hloose with hnode | ⟨target, hnode⟩
    · rw [enter_directory hnode]
      exact hwalk
    · rw [enter_link hnode]
      split
      · show Unslashed (d.spotAt (here ++ [name])).place
        rwa [place_spotAt]
      · refine ⟨?_, (unslashed_names target).append hrest⟩
        split
        · exact .nil
        · exact hhere

theorem unslashed_walk (hhere : Unslashed here) (hnames : Unslashed names) :
    Walk.Unslashed (d.walk aim here names) := by
  induction names generalizing here with
  | nil => exact hhere
  | cons name rest ih =>
    obtain ⟨hname, hrest⟩ := List.forall_mem_cons.mp hnames
    rw [walk_cons]
    split
    · exact ih hhere hrest
    split
    · exact ih hhere.dropLast hrest
    split
    · trivial
    split
    · trivial
    · refine unslashed_enter hhere hname hrest (ih ?_ hrest)
      exact hhere.append fun _ hmem => List.mem_singleton.mp hmem ▸ hname

theorem unslashed_walkAround {detours : Nat} {spot : Spot} (hhere : Unslashed here)
    (hnames : Unslashed names) (h : d.walkAround aim detours here names = .ok spot) :
    Unslashed spot.place := by
  induction detours generalizing here names with
  | zero => cases h
  | succ detours ih =>
    have hwalk : Walk.Unslashed (d.walk aim here names) := unslashed_walk hhere hnames
    unfold walkAround at h
    split at h
    · cases h
    · next hw =>
      rw [hw] at hwalk
      cases h
      exact hwalk
    · next hw =>
      rw [hw] at hwalk
      exact ih hwalk.1 hwalk.2 h

/-- No path leads to a name with a slash. -/
theorem unslashed_leads {path : Bytes} (h : d.leads? aim path = some place) : Unslashed place := by
  have hlocate := locate_of_leads h
  unfold locate at hlocate
  split at hlocate
  · cases hlocate
  · have hplace := unslashed_walkAround .nil (unslashed_names path) hlocate
    rwa [place_spotAt] at hplace

/-! ### Disks -/

/-- No name on a disk has a slash. -/
def Unslashed (d : Disk) : Prop := ∀ place node, d.node? place = some node → Path.Unslashed place

theorem Same.unslashed (h : d.Same d') (hd : d.Unslashed) : d'.Unslashed :=
  fun place node hnode => hd place node ((h place).symm.trans hnode)

theorem Thinned.unslashed (h : d.Thinned d') (hd : d.Unslashed) : d'.Unslashed := by
  intro place node hnode
  rcases h place with hnone | hsame
  · rw [hnone] at hnode
    cases hnode
  · exact hd place node (hsame.symm.trans hnode)

theorem Written.unslashed {path content : Bytes} (h : d.Written path content d')
    (hd : d.Unslashed) : d'.Unslashed := by
  cases h with
  | same same => exact same.unslashed hd
  | file target leads loose here elsewhere =>
    intro place node hnode
    by_cases hplace : place = target
    · rw [hplace]
      exact unslashed_leads leads
    · exact hd place node ((elsewhere place hplace).symm.trans hnode)

/-- Nothing has changed but that directories have been made where nothing was. -/
def Grown (d d' : Disk) : Prop :=
  ∀ place, d'.node? place = d.node? place ∨
    d.node? place = none ∧ d'.node? place = some .directory ∧ Path.Unslashed place

theorem Same.grown (h : d.Same d') : d.Grown d' := fun place => .inl (h place)

theorem Grown.trans {d'' : Disk} (h : d.Grown d') (h' : d'.Grown d'') : d.Grown d'' := by
  intro place
  rcases h' place with hsame | ⟨hvacant, hmade⟩
  · rw [hsame]
    exact h place
  · rcases h place with hsame | ⟨-, hdirectory, -⟩
    · exact .inr ⟨hsame.symm.trans hvacant, hmade⟩
    · cases hdirectory.symm.trans hvacant

theorem Grown.unslashed (h : d.Grown d') (hd : d.Unslashed) : d'.Unslashed := by
  intro place node hnode
  rcases h place with hsame | ⟨-, -, hplace⟩
  · exact hd place node (hsame.symm.trans hnode)
  · exact hplace

theorem grown_put (hvacant : d.node? place = none) (hplace : Path.Unslashed place) :
    d.Grown (d.put place .directory) := by
  have hne : place ≠ [] := by
    rintro rfl
    rw [node?_root] at hvacant
    cases hvacant
  intro other
  by_cases hother : other = place
  · subst hother
    exact .inr ⟨hvacant, node?_put_self hne d _, hplace⟩
  · exact .inl (node?_put_of_ne hother d _)

theorem grown_make (hnames : Path.Unslashed names) (h : d.make names = .ok d') : d.Grown d' := by
  unfold make at h
  split at h
  · cases h
  · cases h
  · next place hfind =>
    cases h
    exact grown_put (node?_of_vacant hfind) (unslashed_walkAround .nil hnames hfind)

theorem grown_makeBelow {makeAbove : Disk → Except OsError Unit × Disk}
    (hnames : Path.Unslashed names) (habove : d.Grown (makeAbove d).2) :
    d.Grown (d.makeBelow names makeAbove).2 := by
  unfold makeBelow
  split
  · next hmake => exact grown_make hnames hmake
  · split
    · next hmade =>
      rw [hmade] at habove
      exact habove
    · next hmade =>
      rw [hmade] at habove
      split
      · next hmake => exact habove.trans (grown_make hnames hmake)
      · exact habove
  · exact (Same.refl d).grown

theorem grown_makeAll (hnames : Path.Unslashed names) : d.Grown (makeAll names d).2 := by
  induction names with
  | nil => exact (Same.refl d).grown
  | cons name above ih =>
    refine grown_makeBelow (fun n hn => hnames n (List.mem_reverse.mp hn)) (ih ?_)
    exact (List.forall_mem_cons.mp hnames).2

/-- Whether or not a directory could be made, only directories have been. -/
theorem grown_createAll (d : Disk) (path : Bytes) : d.Grown (d.createAll path).2 := by
  refine attempt_disk (fun _ h => h.grown) fun now hnow => ?_
  have hsteps := unslashed_steps path
  simp only
  split
  · exact hnow.grown
  · split
    · refine hnow.grown.trans (grown_makeBelow (hsteps.append ?_) (grown_makeAll ?_))
      · exact fun _ hmem => List.mem_singleton.mp hmem ▸ (by decide)
      · exact fun n hn => hsteps n (List.mem_reverse.mp (List.mem_of_mem_tail hn))
    · exact hnow.grown.trans (grown_makeAll fun n hn => hsteps n (List.mem_reverse.mp hn))

/-! ### Listings -/

theorem mem_entries {node : Node} (hne : place ≠ []) :
    (place, node) ∈ d.entries ↔ d.node? place = some node := by
  rw [node?, if_neg hne]
  have hdistinct := d.distinct
  generalize d.entries = entries at hdistinct
  induction entries with
  | nil => simp
  | cons entry rest ih =>
    obtain ⟨other, node'⟩ := entry
    rw [List.map_cons, List.nodup_cons] at hdistinct
    by_cases hother : place = other
    · subst hother
      have hrest : (place, node) ∉ rest := fun h =>
        hdistinct.1 (List.mem_map.mpr ⟨(place, node), h, rfl⟩)
      rw [List.mem_cons, List.lookup_cons_self]
      simp [hrest, eq_comm]
    · have hhead : (place, node) ≠ (other, node') := fun h => hother (congrArg Prod.fst h)
      rw [List.mem_cons, List.lookup_cons, beq_eq_false_iff_ne.mpr hother]
      simp only [hhead, false_or]
      exact ih hdistinct.2

theorem unslashed_of_entries (h : ∀ entry ∈ d.entries, Path.Unslashed entry.1) :
    d.Unslashed := by
  intro place node hnode
  by_cases hroot : place = []
  · rw [hroot]
    exact .nil
  · exact h _ ((mem_entries hroot).mpr hnode)

/-- A directory lists the names that lead to something in it. -/
theorem mem_children {name : Bytes} {node : Node} :
    (name, node) ∈ d.children place ↔ d.node? (place ++ [name]) = some node := by
  rw [← mem_entries (List.concat_ne_nil name place), children, List.mem_filterMap]
  constructor
  · intro hentry
    obtain ⟨⟨full, node'⟩, hmem, hchild⟩ := hentry
    simp only at hchild
    split at hchild
    · next last hlast =>
      split at hchild
      · next hplace =>
        cases hchild
        obtain ⟨start, rfl⟩ := List.getLast?_eq_some_iff.mp hlast
        rw [List.dropLast_concat] at hplace
        rwa [← hplace]
      · cases hchild
    · cases hchild
  · intro hmem
    refine ⟨_, hmem, ?_⟩
    simp only [List.getLast?_concat, List.dropLast_concat, if_true]

end Disk
end MailCapture
