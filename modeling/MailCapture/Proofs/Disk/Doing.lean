import Mathlib.Data.List.Nodup
import MailCapture.Proofs.Disk.Naming

/-! Calls that went well.

A call that went well has done what it was asked: a file is written (`write_ok`), a directory is
listed as it is (`list_ok_children`). Where the disk refuses nothing more, what leads to a directory
or a file can be listed or read. What a call does depends on nothing but the entries of the disk, not
on what it will refuse later (`sameOutcome_willing`). -/
namespace MailCapture.Disk
variable {d d' : Disk} {aim : Aim} {path : Bytes} {place : Place} {names : List Bytes}

/-! ### Files -/

theorem write_ok {content : Bytes} (h : (d.write path content).1 = .ok ()) :
    ∃ place, d.leads? .output path = some place ∧
      (d.write path content).2.node? place = some (.file content) ∧
      ∀ other, other ≠ place → (d.write path content).2.node? other = d.node? other := by
  obtain ⟨now, hnow, hcall, hafter⟩ := attempt_ok h
  unfold write
  rw [hafter]
  rcases locate_cases now .output path with ⟨-, e, hlocate⟩ | ⟨place, hleads, hlocate⟩
  · rw [hlocate] at hcall
    cases hcall
  · have hput (hloose : Node.isLoose (now.node? place) = true) :
        (now.put place (.file content)).node? place = some (.file content) ∧
          ∀ other, other ≠ place → (now.put place (.file content)).node? other = d.node? other :=
      ⟨node?_put_self (ne_root_of_isLoose hloose) now _, fun other hother => by
        rw [node?_put_of_ne hother, hnow other]⟩
    refine ⟨place, (leads?_steady hnow.steady .output path).trans hleads, ?_⟩
    rw [hlocate, spotAt] at hcall ⊢
    cases hnode : now.node? place with
    | none => exact hput (by rw [hnode]; rfl)
    | some node =>
      simp only [hnode, reduceCtorEq, if_false] at hcall ⊢
      cases node with
      | file old => exact hput (by rw [hnode]; rfl)
      | directory | link => cases hcall

/-- The content of the file that a path leads to, if it leads to one. -/
def fileAt? (d : Disk) (path : Bytes) : Option Bytes :=
  (d.leads? .content path).bind fun place =>
    match d.node? place with
    | some (.file content) => some content
    | _ => none

theorem fileAt?_same (h : d.Same d') (path : Bytes) : d'.fileAt? path = d.fileAt? path := by
  have hnode : ∀ place, d'.node? place = d.node? place := h
  unfold fileAt?
  rw [leads?_steady h.steady]
  simp only [hnode]

/-- A file is read unless the call is refused. -/
theorem toOption_read (d : Disk) (path : Bytes) :
    (d.read path).1.toOption = if d.grants 0 then d.fileAt? path else none := by
  unfold read
  obtain ⟨now, hnow, -, ⟨hgranted, hattempt⟩ | ⟨hrefused, e, hattempt⟩⟩ := d.attempt_cases _
  · rw [hattempt, if_pos hgranted, ← fileAt?_same hnow, fileAt?]
    rcases locate_cases now .content path with ⟨hnone, e, hlocate⟩ | ⟨place, hleads, hlocate⟩
    · rw [hlocate, hnone]
      rfl
    · rw [hlocate, hleads, spotAt, Option.bind_some]
      cases hnode : now.node? place with
      | none => rfl
      | some node =>
        simp only [hnode, reduceCtorEq, if_false]
        cases node <;> rfl
  · rw [hattempt, hrefused]
    rfl

/-- What leads to a file can be read. -/
theorem read_now {content : Bytes} (hrefusals : d.refusals = [])
    (hleads : d.leads? .content path = some place) (hnode : d.node? place = some (.file content)) :
    d.read path = (.ok content, d) := by
  rw [read, attempt_of_no_refusals hrefusals, locate_of_leads hleads, spotAt]
  simp only [hnode, reduceCtorEq, if_false]

/-! ### Listings -/

theorem nodup_children (d : Disk) (place : Place) : (d.children place).Nodup := by
  have hentry {entry : Place × Node} {child : Bytes × Node}
      (h : child ∈ Disk.children { entries := [entry] } place) :
      entry = (place ++ [child.1], child.2) := by
    have hmem := (mem_entries (List.concat_ne_nil child.1 place)).mpr (mem_children.mp h)
    exact (List.mem_singleton.mp hmem).symm
  refine (d.distinct.of_map _).filterMap fun entry entry' child h h' => ?_
  have hfirst := hentry (List.mem_filterMap.mpr ⟨entry, List.mem_singleton_self entry, h⟩)
  have hsecond := hentry (List.mem_filterMap.mpr ⟨entry', List.mem_singleton_self entry', h'⟩)
  exact hfirst.trans hsecond.symm

/-- What a directory lists, in some order. -/
theorem children_perm {entries : List (Bytes × Node)} (hnodup : entries.Nodup)
    (h : ∀ name node, d.node? (place ++ [name]) = some node ↔ (name, node) ∈ entries) :
    (d.children place).Perm entries := by
  refine (List.perm_ext_iff_of_nodup (d.nodup_children place) hnodup).mpr fun entry => ?_
  exact mem_children.trans (h entry.1 entry.2)

/-- A listing is of a directory, as it is. -/
theorem list_ok_children {entries : List (Bytes × Node)} (h : (d.list path).1 = .ok entries) :
    ∃ now place, d.Same now ∧ d.Houses path place ∧ entries = now.children place := by
  obtain ⟨now, hnow, hcall, -⟩ := attempt_ok h
  rcases locate_cases now .content path with ⟨-, e, hlocate⟩ | ⟨place, hleads, hlocate⟩
  · rw [hlocate] at hcall
    cases hcall
  · rw [hlocate, spotAt] at hcall
    by_cases hnone : now.node? place = none
    · rw [if_pos hnone] at hcall
      cases hcall
    · rw [if_neg hnone] at hcall
      simp only at hcall
      split at hcall
      · next hdirectory =>
        refine ⟨now, place, hnow, ⟨?_, ?_⟩, (Except.ok.inj hcall).symm⟩
        · rw [leads?_steady hnow.steady, hleads]
        · rw [← hnow place, hdirectory]
      · cases hcall

/-- What leads to a directory can be listed. -/
theorem list_now (hrefusals : d.refusals = []) (h : d.Houses path place) :
    d.list path = (.ok (d.children place), d) := by
  rw [list, attempt_of_no_refusals hrefusals, h.locate]
  simp only [h.directory, if_true]

/-! ### Making directories -/

theorem walk_same (h : d.Same d') (aim : Aim) (here : Place) (names : List Bytes) :
    d'.walk aim here names = d.walk aim here names := by
  have hnode : ∀ place, d'.node? place = d.node? place := h
  induction names generalizing here with
  | nil => rfl
  | cons name rest ih => simp only [walk, hnode, ih]

theorem find_same (h : d.Same d') (aim : Aim) (names : List Bytes) :
    d'.find aim names = d.find aim names := by
  unfold find
  generalize 41 = detours
  generalize ([] : Place) = here
  induction detours generalizing here names with
  | zero => rfl
  | succ detours ih =>
    unfold walkAround
    rw [walk_same h]
    split
    · rfl
    · rfl
    · exact ih _ _

theorem isDirectory_same (h : d.Same d') (names : List Bytes) :
    d'.isDirectory names = d.isDirectory names := by
  have hnode : ∀ place, d'.node? place = d.node? place := h
  unfold isDirectory
  simp only [find_same h, hnode]

theorem same_put (h : d.Same d') (place : Place) (node : Node) :
    (d.put place node).Same (d'.put place node) := by
  intro other
  by_cases hroot : other = []
  · rw [hroot, node?_root, node?_root]
  · by_cases hother : other = place
    · subst hother
      rw [node?_put_self hroot, node?_put_self hroot]
    · rw [node?_put_of_ne hother, node?_put_of_ne hother, h other]

/-- What two disks with the same entries come to by the same call. -/
def SameOutcome (o o' : Except OsError Unit × Disk) : Prop := o'.1 = o.1 ∧ o.2.Same o'.2

theorem sameOutcome_settle (h : d.Same d') (names : List Bytes) (e : OsError) :
    SameOutcome (d.settle names e, d) (d'.settle names e, d') := by
  refine ⟨?_, h⟩
  show d'.settle names e = d.settle names e
  unfold settle
  rw [isDirectory_same h]

theorem make_same (h : d.Same d') (names : List Bytes) :
    (∃ e, d.make names = .error e ∧ d'.make names = .error e) ∨
      ∃ made made', d.make names = .ok made ∧ d'.make names = .ok made' ∧ made.Same made' := by
  unfold make
  rw [find_same h]
  cases d.find .entry names with
  | error e => exact .inl ⟨e, rfl, rfl⟩
  | ok spot =>
    cases spot with
    | taken place => exact .inl ⟨_, rfl, rfl⟩
    | vacant place => exact .inr ⟨_, _, rfl, rfl, same_put h place .directory⟩

theorem sameOutcome_makeBelow {makeAbove : Disk → Except OsError Unit × Disk} (h : d.Same d')
    (names : List Bytes) (habove : SameOutcome (makeAbove d) (makeAbove d')) :
    SameOutcome (d.makeBelow names makeAbove) (d'.makeBelow names makeAbove) := by
  unfold makeBelow
  rcases make_same h names with ⟨e, he, he'⟩ | ⟨made, made', hmade, hmade', hsame⟩
  · rw [he, he']
    cases e with
    | notFound =>
      generalize makeAbove d = o at habove
      generalize makeAbove d' = o' at habove
      obtain ⟨result, above⟩ := o
      obtain ⟨result', above'⟩ := o'
      obtain ⟨rfl, hsame⟩ : result' = result ∧ above.Same above' := habove
      cases result' with
      | error e => exact ⟨rfl, hsame⟩
      | ok =>
        rcases make_same hsame names with ⟨e, he, he'⟩ | ⟨made, made', hmade, hmade', hsame⟩
        · simp only [he, he']
          exact sameOutcome_settle hsame names e
        · simp only [hmade, hmade']
          exact ⟨rfl, hsame⟩
    | _ => exact sameOutcome_settle h names _
  · rw [hmade, hmade']
    exact ⟨rfl, hsame⟩

theorem sameOutcome_makeAll (h : d.Same d') (names : List Bytes) :
    SameOutcome (makeAll names d) (makeAll names d') := by
  induction names with
  | nil => exact ⟨rfl, h⟩
  | cons name above ih => exact sameOutcome_makeBelow h _ ih

/-- What `createAll` does unless it is refused. -/
def createAllNow (path : Bytes) (d : Disk) : Except OsError Unit × Disk :=
  match Path.objection? path with
  | some e => (.error e, d)
  | none =>
    let names := Path.steps path
    if Path.endsHere path then d.makeBelow (names ++ [Path.here]) (makeAll names.reverse.tail)
    else makeAll names.reverse d

theorem createAll_eq (d : Disk) (path : Bytes) : d.createAll path = d.attempt (createAllNow path) :=
  rfl

theorem sameOutcome_createAllNow (h : d.Same d') (path : Bytes) :
    SameOutcome (createAllNow path d) (createAllNow path d') := by
  unfold createAllNow
  cases Path.objection? path with
  | some e => exact ⟨rfl, h⟩
  | none =>
    simp only
    split
    · exact sameOutcome_makeBelow h _ (sameOutcome_makeAll h _)
    · exact sameOutcome_makeAll h _

/-- The disk with nothing more to refuse. -/
def willing (d : Disk) : Disk := {d with refusals := []}

theorem willing_of_no_refusals (h : d.refusals = []) : d.willing = d := by
  obtain ⟨entries, refusals, distinct⟩ := d
  obtain rfl : refusals = [] := h
  rfl

theorem sameOutcome_willing (h : d.Same d') (path : Bytes) :
    SameOutcome (d.willing.createAll path) (d'.willing.createAll path) := by
  rw [createAll_eq, createAll_eq, attempt_of_no_refusals rfl, attempt_of_no_refusals rfl]
  exact sameOutcome_createAllNow (show d.willing.Same d'.willing from h) path

/-- A directory is made as a willing disk would make it, unless the call is refused. -/
theorem createAll_cases (d : Disk) (path : Bytes) :
    ((∃ e, (d.createAll path).1 = .error e) ∧ d.Same (d.createAll path).2) ∨
      SameOutcome (d.willing.createAll path) (d.createAll path) := by
  have hsame (refusals : List (Option OsError)) : d.willing.Same {d with refusals} := fun _ => rfl
  rw [createAll_eq, createAll_eq, attempt_of_no_refusals (d := d.willing) rfl, attempt]
  split
  · exact .inr (sameOutcome_createAllNow (hsame d.refusals) path)
  · next rest _ => exact .inr (sameOutcome_createAllNow (hsame rest) path)
  · exact .inl ⟨⟨_, rfl⟩, fun _ => rfl⟩

/-- A directory is made in another that is there, if nothing has its name. -/
theorem createAll_inside {parent name : Bytes} (h : d.Houses parent place) (hname : Path.IsName name)
    (hmay : mayName parent name = true) (hdots : Path.here ∉ Path.parts parent)
    (hvacant : d.node? (place ++ [name]) = none) :
    d.isThere (Path.inside parent name) = false ∧
      d.willing.createAll (Path.inside parent name) =
        (.ok (), d.willing.put (place ++ [name]) .directory) ∧
      (d.willing.put (place ++ [name]) .directory).Houses (Path.inside parent name)
        (place ++ [name]) := by
  have hpath : Path.objection? (Path.inside parent name) = none := by
    rw [mayName, Bool.and_eq_true] at hmay
    exact of_decide_eq_true hmay.1
  have hlocate (aim : Aim) :
      d.locate aim (Path.inside parent name) = .ok (.vacant (place ++ [name])) := by
    have hfinal : d.Final aim (place ++ [name]) := .inr fun target hlink => by
      rw [hvacant] at hlink
      cases hlink
    have hleads := leads?_inside h hname hfinal
    rw [if_pos hmay] at hleads
    rw [locate_of_leads hleads, spotAt, if_pos hvacant]
  have hfind : d.willing.find .entry (Path.names (Path.inside parent name)) =
      .ok (.vacant (place ++ [name])) := by
    have hentry := hlocate .entry
    unfold locate at hentry
    rw [hpath] at hentry
    have hsame : d.Same d.willing := fun _ => rfl
    exact (find_same hsame .entry _).trans hentry
  obtain ⟨hcontent, hdirectory⟩ := find_put hfind
  have hmake : d.willing.make (Path.names (Path.inside parent name)) =
      .ok (d.willing.put (place ++ [name]) .directory) := by
    rw [make, hfind]
  refine ⟨by rw [isThere, hlocate], ?_, ⟨?_, hdirectory⟩⟩
  · rw [createAll_eq, attempt_of_no_refusals rfl, createAllNow, hpath]
    simp only [Path.endsHere_inside parent hname, Path.steps_inside hdots hname, Bool.false_eq_true,
      if_false]
    rw [Path.names_inside parent hname] at hmake
    rw [List.reverse_append]
    show makeBelow _ (name :: (Path.parts parent).reverse).reverse _ = _
    rw [List.reverse_cons, List.reverse_reverse, makeBelow, hmake]
  · unfold leads? locate
    rw [hpath]
    simp only [hcontent]
    rfl

theorem isThere_same (h : d.Same d') (path : Bytes) : d'.isThere path = d.isThere path := by
  unfold isThere locate
  rw [find_same h]

end MailCapture.Disk
