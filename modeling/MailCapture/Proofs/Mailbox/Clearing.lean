import MailCapture.Proofs.Mailbox.Restarting

/-! What clearing takes away.

A folder is opened before it is cleared, and opening takes nothing away. Then the files that are
listed as message files go one by one, if the disk lets them. Foreign files are not listed, nor are
directories and links that have the name of a message file, so they stay, and so does everything
elsewhere (`cleared_exactly`). A directory that cannot be listed stays as it is. The list of the
folder is empty afterwards either way, and numbering starts again. -/
namespace MailCapture
open Disk

namespace Folder
variable {directory : Bytes} {d : Disk} {place : Place} {names : List Text}

/-! ### One file after another -/

theorem refusals_removeFiles (directory : Bytes) (names : List Text) (d : Disk) :
    (removeFiles directory names d).2.refusals = d.refusals.drop names.length := by
  induction names generalizing d with
  | nil => rfl
  | cons name rest ih =>
    rw [Store.disk_removeFiles_cons, ih, refusals_remove, List.drop_tail, List.length_cons]

/-- A file can be removed unless the call is refused or its path is too long. -/
theorem remove_file_ok {name : Text} (hhouses : d.Houses directory place)
    (hname : Path.IsName (Text.encode name)) {content : Bytes}
    (hnode : d.node? (place ++ [Text.encode name]) = some (.file content)) :
    (d.remove (Path.inside directory (Text.encode name))).1 = .ok () ↔
      d.grants 0 = true ∧ mayName directory (Text.encode name) = true := by
  have hremovable {other : Place} : d.Removable _ other ↔ _ :=
    removable_file hhouses hname (by rw [hnode]; rfl)
  have hremoved := d.removed_remove (Path.inside directory (Text.encode name))
  generalize d.remove (Path.inside directory (Text.encode name)) = removed at hremoved ⊢
  obtain ⟨result, d'⟩ := removed
  cases hremoved with
  | gone granted target removable here elsewhere =>
    exact ⟨fun _ => ⟨granted, (hremovable.mp removable).1⟩, fun _ => rfl⟩
  | left e same why =>
    refine ⟨nofun, fun h => absurd ?_ (why h.1 (place ++ [Text.encode name]))⟩
    refine hremovable.mpr ⟨h.2, rfl, ?_⟩
    rw [hnode]
    exact Option.some_ne_none _

/-- So can any of several when its turn comes. -/
theorem remove_listed_ok {i : Nat} {name : Text} (hhouses : d.Houses directory place)
    (hnames : ∀ name ∈ names, Path.IsName (Text.encode name) ∧
      Node.isLoose (d.node? (place ++ [Text.encode name])) = true)
    (hnodup : names.Nodup) (hi : names[i]? = some name) {content : Bytes}
    (hnode : d.node? (place ++ [Text.encode name]) = some (.file content)) :
    ((removeFiles directory (names.take i) d).2.remove
        (Path.inside directory (Text.encode name))).1 = .ok () ↔
      d.grants i = true ∧ mayName directory (Text.encode name) = true := by
  obtain ⟨hlt, hget⟩ := List.getElem?_eq_some_iff.mp hi
  have hbefore : ∀ name ∈ names.take i, _ := fun name hname => hnames name (List.mem_of_mem_take hname)
  have hsteady := steady_removeFiles hhouses hbefore
  have hname : Path.IsName (Text.encode name) := (hnames name (List.mem_of_getElem? hi)).1
  have hnotMem : name ∉ names.take i := by
    intro hmem
    obtain ⟨j, hj, heq⟩ := List.mem_take_iff_getElem.mp hmem
    rw [← hget] at heq
    have := (hnodup.getElem_inj_iff).mp heq
    omega
  have hthere : (removeFiles directory (names.take i) d).2.node? (place ++ [Text.encode name]) =
      some (.file content) := by
    rcases node?_removeFiles hhouses hbefore (place ++ [Text.encode name]) with
      ⟨⟨other, ⟨j, hj, -⟩, heq⟩, -⟩ | ⟨-, hsame⟩
    · have hdecode := congrArg Text.decode (List.singleton_inj.mp (List.append_cancel_left heq))
      rw [Text.decode_encode, Text.decode_encode] at hdecode
      exact absurd (List.mem_of_getElem? hj) (hdecode ▸ hnotMem)
    · rw [hsame, hnode]
  have hturn : (removeFiles directory (names.take i) d).2.refusals = d.refusals.drop i := by
    rw [refusals_removeFiles, List.length_take, Nat.min_eq_left (Nat.le_of_lt hlt)]
  rw [remove_file_ok (hhouses.steady hsteady) hname hthere, grants_of_drop hturn]

/-- An open folder is cleared in any case. -/
theorem clearing_done (directory : Bytes) (d : Disk) :
    (clearing directory d).result = .ok () ∧ (clearing directory d).mailbox = {} := by
  unfold clearing
  split
  · exact ⟨rfl, rfl⟩
  · exact ⟨rfl, rfl⟩

end Folder

namespace Store
variable {x : Store} {l : Ledger}

/-- A folder that can be opened is cleared as an open one. -/
theorem apply_clear (hopened : x.opened.folder.ledger = some l) :
    (x.folder.clear x.disk).result = .ok () ∧ x.apply .clear =
      ⟨⟨x.folder.directory, some {}⟩, (Folder.clearing x.folder.directory x.opened.disk).disk⟩ := by
  have hdone := Folder.clearing_done x.folder.directory x.opened.disk
  rcases opened_cases (x := x) (Folder.clear_eq x.folder x.disk).symm with
    ⟨hnone, -⟩ | ⟨l', -, hmailbox, hdisk, hresult, -⟩
  · rw [hopened] at hnone
    cases hnone
  · refine ⟨hresult.trans hdone.1, ?_⟩
    have hfolder : (x.apply .clear).folder = ⟨x.folder.directory, some {}⟩ := by
      rw [← directory_opened x, ← hdone.2]
      exact hmailbox
    exact congrArg₂ Store.mk hfolder hdisk

/-- **Clearing a folder** that can be opened goes well, and leaves an empty list and the number
nought. Opening it first makes its directory if that is missing and changes nothing else. If the
directory cannot be listed then, clearing touches nothing. If it can, of the files with the names of
message files exactly those are gone whose removal went well, which it does unless the disk refuses
it or the path is too long; and every other place is as it was. -/
theorem cleared_exactly (hunslashed : x.disk.Unslashed) (hopened : x.opened.folder.ledger = some l) :
    let directory := x.folder.directory
    let before := x.opened.disk
    let after := (x.apply .clear).disk
    ((x.folder.clear x.disk).result = .ok () ∧
      (x.apply .clear).folder = ⟨directory, some ⟨0, []⟩⟩) ∧
    (x.disk.Grown before ∧ (x.disk.isThere directory = true → x.disk.Same before)) ∧
    match Folder.messageFiles directory before with
    | (.error _, _) => before.Same after
    | (.ok names, now) =>
      ∃ place, before.Houses directory place ∧
        (∀ name, name ∈ names ↔ Message.isMessageFile name = true ∧
          ∃ content, before.node? (place ++ [Text.encode name]) = some (.file content)) ∧
        (∀ i name, names[i]? = some name →
          (((Folder.removeFiles directory (names.take i) now).2.remove
              (Path.inside directory (Text.encode name))).1 = .ok () ↔
            now.grants i = true ∧ mayName directory (Text.encode name) = true)) ∧
        ∀ other,
          (∃ name, Folder.Removes directory names now name ∧
            other = place ++ [Text.encode name]) ∧ after.node? other = none ∨
          (∀ name, Folder.Removes directory names now name →
            other ≠ place ++ [Text.encode name]) ∧ after.node? other = before.node? other := by
  intro directory before after
  obtain ⟨hresult, happly⟩ := apply_clear hopened
  have hafter : after = (Folder.clearing directory before).disk := congrArg Store.disk happly
  refine ⟨⟨hresult, congrArg Store.folder happly⟩, ⟨x.grown_opened, same_opened_there⟩, ?_⟩
  have hunslashed : before.Unslashed := x.grown_opened.unslashed hunslashed
  have hsame : before.Same (Folder.messageFiles directory before).2 :=
    Folder.same_messageFiles directory before
  have hfiles {names : List Text} : (Folder.messageFiles directory before).1 = .ok names → _ :=
    Folder.messageFiles_ok
  have hnodup {names : List Text} :
      (Folder.messageFiles directory before).1 = .ok names → names.Nodup :=
    Folder.nodup_messageFiles
  have hloose {names : List Text} {place : Place} (hhouses : before.Houses directory place) :
      (Folder.messageFiles directory before).1 = .ok names → _ :=
    Folder.loose_messageFiles hunslashed hhouses
  rw [hafter, Folder.clearing]
  generalize Folder.messageFiles directory before = listed at hsame hfiles hnodup hloose ⊢
  obtain ⟨result, now⟩ := listed
  cases result with
  | error e => exact hsame
  | ok names =>
    obtain ⟨place, hhouses, hnames⟩ := hfiles rfl
    have hnow : now.Houses directory place := hhouses.steady hsame.steady
    have hfile : ∀ name ∈ names, Path.IsName (Text.encode name) ∧
        Node.isLoose (now.node? (place ++ [Text.encode name])) = true := by
      intro name hname
      rw [hsame]
      exact hloose hhouses rfl name hname
    refine ⟨place, hhouses, hnames, fun i name hi => ?_, fun other => ?_⟩
    · obtain ⟨-, content, hnode⟩ := (hnames name).mp (List.mem_of_getElem? hi)
      exact Folder.remove_listed_ok hnow hfile (hnodup rfl) hi ((hsame _).trans hnode)
    · rw [← hsame other]
      exact Folder.node?_removeFiles hnow hfile other

/-- A new folder on two message files, a file with another name, and a directory and a link that are
named like message files. The disk will refuse to remove one of the two. -/
def crowded : Store :=
  (newFolder [(Text.encode "1_.eml".toList, .file []), (Text.encode "2_a.eml".toList, .file [120]),
    (Text.encode "note.eml".toList, .file [121]), (Text.encode "3_.eml".toList, .directory),
    (Text.encode "4_.eml".toList, .link (Text.encode "1_.eml".toList))]).refusing
      [none, none, none, none, some .permissionDenied]

theorem cleared_exactly_crowded :
    let place (name : Text) : Place := [Text.encode "mail".toList, Text.encode name]
    (crowded.folder.clear crowded.disk).result = .ok () ∧
      (crowded.apply .clear).folder = ⟨crowded.folder.directory, some ⟨0, []⟩⟩ ∧
      (crowded.apply .clear).disk.node? (place "1_.eml".toList) = none ∧
      ∀ name ∈ ["2_a.eml".toList, "note.eml".toList, "3_.eml".toList, "4_.eml".toList],
        (crowded.apply .clear).disk.node? (place name) = crowded.disk.node? (place name) := by
  have hunslashed : crowded.disk.Unslashed := unslashed_of_entries (by decide +kernel)
  obtain ⟨l, hopened⟩ := Option.isSome_iff_exists.mp
    (show crowded.opened.folder.ledger.isSome = true by decide +kernel)
  obtain ⟨⟨hresult, hfolder⟩, -⟩ := cleared_exactly hunslashed hopened
  exact ⟨hresult, hfolder, by decide +kernel, by decide +kernel⟩

end Store
end MailCapture
