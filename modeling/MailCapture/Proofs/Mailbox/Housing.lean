import MailCapture.Proofs.Disk.Doing
import MailCapture.Proofs.Mailbox.Operations
import MailCapture.Proofs.Message.FileNames
import MailCapture.Proofs.Text.WellFormed

/-! Where the files of a folder are.

A folder that has been opened has its directory (`houses_load`). It keeps it whatever is done with
it (`Sound.run`), for nothing is ever taken away but message files: what a directory lists as one is
the file at the path of its name, and no link (`messageFiles_ok`). -/
namespace MailCapture
open Disk

namespace Folder
variable {directory : Bytes} {d : Disk} {place : Place} {names : List Text}

/-! ### Message files -/

theorem messageName?_eq_some {entry : Bytes × Node} {name : Text} :
    messageName? entry = some name ↔ Message.isMessageFile name = true ∧
      ∃ content, entry = (Text.encode name, .file content) := by
  obtain ⟨bytes, node⟩ := entry
  unfold messageName?
  constructor
  · intro h
    split at h
    · next name' hdecode =>
      split at h
      · next hfile =>
        obtain rfl := Option.some.inj h
        rw [Bool.and_eq_true] at hfile
        cases node with
        | file content => exact ⟨hfile.1, content, by rw [Text.encode_of_decode? hdecode]⟩
        | directory | link => cases hfile.2
      · cases h
    · cases h
  · intro hentry
    obtain ⟨hname, content, heq⟩ := hentry
    cases heq
    simp only [Text.decode?_encode, hname, isFile, Bool.and_self, if_true]

theorem messageFiles_eq (directory : Bytes) (d : Disk) :
    messageFiles directory d = ((d.list directory).1.map (List.filterMap messageName?),
      (d.list directory).2) := by
  unfold messageFiles
  generalize d.list directory = listed
  obtain ⟨result, d'⟩ := listed
  cases result <;> rfl

/-- The message files of a directory are among its children. -/
theorem messageFiles_children (h : (messageFiles directory d).1 = .ok names) :
    ∃ now place, d.Same now ∧ d.Houses directory place ∧
      names = (now.children place).filterMap messageName? := by
  rw [messageFiles_eq] at h
  cases hlist : (d.list directory).1 with
  | error e =>
    rw [hlist] at h
    cases h
  | ok entries =>
    rw [hlist] at h
    obtain ⟨now, place, hnow, hhouses, rfl⟩ := list_ok_children hlist
    exact ⟨now, place, hnow, hhouses, (Except.ok.inj h).symm⟩

/-- What a directory lists as message files are the files with such names. -/
theorem messageFiles_ok (h : (messageFiles directory d).1 = .ok names) :
    ∃ place, d.Houses directory place ∧ ∀ name, name ∈ names ↔
      Message.isMessageFile name = true ∧
        ∃ content, d.node? (place ++ [Text.encode name]) = some (.file content) := by
  obtain ⟨now, place, hnow, hhouses, rfl⟩ := messageFiles_children h
  refine ⟨place, hhouses, fun name => ?_⟩
  rw [List.mem_filterMap, ← hnow]
  constructor
  · rintro ⟨entry, hentry, hname⟩
    obtain ⟨hfile, content, rfl⟩ := messageName?_eq_some.mp hname
    exact ⟨hfile, content, mem_children.mp hentry⟩
  · rintro ⟨hfile, content, hnode⟩
    exact ⟨_, mem_children.mpr hnode, messageName?_eq_some.mpr ⟨hfile, content, rfl⟩⟩

/-- Every message file is listed once. -/
theorem nodup_messageFiles (h : (messageFiles directory d).1 = .ok names) : names.Nodup := by
  obtain ⟨now, place, -, -, rfl⟩ := messageFiles_children h
  refine List.pairwise_filterMap.mpr ((now.nodup_children place).imp_of_mem ?_)
  intro entry entry' hentry hentry' hne name hname other hother heq
  subst heq
  obtain ⟨-, content, rfl⟩ := messageName?_eq_some.mp hname
  obtain ⟨-, content', rfl⟩ := messageName?_eq_some.mp hother
  have hsame := (mem_children.mp hentry).symm.trans (mem_children.mp hentry')
  exact hne (congrArg _ (Option.some.inj hsame))

/-- A path can lead to the name of a message file. -/
theorem isName_messageFile (hunslashed : d.Unslashed) {name : Text}
    (hfile : Message.isMessageFile name = true) {node : Node}
    (hnode : d.node? (place ++ [Text.encode name]) = some node) :
    Path.IsName (Text.encode name) := by
  have hslash : Path.slash ∉ Text.encode name :=
    hunslashed _ _ hnode _ (List.mem_append_right place (List.mem_singleton.mpr rfl))
  exact Message.isName_of_isMessageFile (Text.decode?_encode name) hfile hslash

theorem loose_messageFiles (hunslashed : d.Unslashed) (hhouses : d.Houses directory place)
    (h : (messageFiles directory d).1 = .ok names) :
    ∀ name ∈ names, Path.IsName (Text.encode name) ∧
      Node.isLoose (d.node? (place ++ [Text.encode name])) = true := by
  obtain ⟨place', hplace, hnames⟩ := messageFiles_ok h
  obtain rfl := hhouses.unique hplace
  intro name hname
  obtain ⟨hfile, content, hnode⟩ := (hnames name).mp hname
  refine ⟨isName_messageFile hunslashed hfile hnode, ?_⟩
  rw [hnode]
  rfl

theorem same_messageFiles (directory : Bytes) (d : Disk) :
    d.Same (messageFiles directory d).2 := by
  rw [messageFiles_eq]
  exact d.same_list directory

/-! ### Loading -/

/-- A missing directory is made to be loaded. -/
theorem disk_load_missing (h : d.isThere directory = false) :
    (load directory d).2.1 = (d.createAll directory).2 := by
  unfold load
  rw [h]
  generalize d.createAll directory = made
  obtain ⟨result, d'⟩ := made
  cases result <;> rfl

/-- A ledger comes from the message files of a directory, or from one that has been made. -/
theorem load_cases {l : Ledger} (h : (load directory d).1 = .ok l) :
    (d.isThere directory = true ∧ ∃ names, (messageFiles directory d).1 = .ok names ∧
      l = ⟨names.length, byText (recover directory names (messageFiles directory d).2).1⟩) ∨
    (d.isThere directory = false ∧ (d.createAll directory).1 = .ok () ∧ l = {}) := by
  unfold load at h
  split at h
  · next hthere =>
    generalize messageFiles directory d = listed at h ⊢
    obtain ⟨result, d'⟩ := listed
    cases result with
    | error e => cases h
    | ok names => exact .inl ⟨hthere, names, rfl, (Except.ok.inj h).symm⟩
  · next hthere =>
    generalize d.createAll directory = made at h ⊢
    obtain ⟨result, d'⟩ := made
    cases result with
    | error e => cases h
    | ok => exact .inr ⟨Bool.eq_false_iff.mpr hthere, rfl, (Except.ok.inj h).symm⟩

/-- A directory that was loaded is there, if only now. -/
theorem houses_load {l : Ledger} (h : (load directory d).1 = .ok l) :
    ∃ place, (load directory d).2.1.Houses directory place := by
  rcases load_cases h with ⟨hthere, names, hnames, -⟩ | ⟨hmissing, hmade, -⟩
  · obtain ⟨place, hhouses, -⟩ := messageFiles_ok hnames
    exact ⟨place, hhouses.steady (Store.same_load hthere).steady⟩
  · rw [disk_load_missing hmissing]
    exact houses_createAll hmade

/-- Loading makes a missing directory, if that, and leaves everything else as it is. -/
theorem grown_load (directory : Bytes) (d : Disk) : d.Grown (load directory d).2.1 := by
  cases hthere : d.isThere directory with
  | true => exact (Store.same_load hthere).grown
  | false =>
    rw [disk_load_missing hthere]
    exact grown_createAll d directory

/-! ### Clearing -/

/-- Whether one of some files is removed when they are one after another: its call goes well. -/
def Removes (directory : Bytes) (names : List Text) (d : Disk) (name : Text) : Prop :=
  ∃ i, names[i]? = some name ∧ ((removeFiles directory (names.take i) d).2.remove
    (Path.inside directory (Text.encode name))).1 = .ok ()

/-- What has the name of a file, or had one, is all that the path of the name leads to. -/
theorem removable_file {name : Text} (hhouses : d.Houses directory place)
    (hname : Path.IsName (Text.encode name))
    (hloose : Node.isLoose (d.node? (place ++ [Text.encode name])) = true) {other : Place} :
    d.Removable (Path.inside directory (Text.encode name)) other ↔
      mayName directory (Text.encode name) = true ∧ other = place ++ [Text.encode name] ∧
        d.node? other ≠ none := by
  rw [Removable, leads?_inside hhouses hname (.inl rfl)]
  split
  · next hmay =>
    constructor
    · rintro ⟨hother, hthere, -⟩
      exact ⟨hmay, (Option.some.inj hother).symm, hthere⟩
    · rintro ⟨-, rfl, hthere⟩
      exact ⟨rfl, hthere, not_directory_of_isLoose hloose⟩
  · next hlong => exact ⟨fun h => (by cases h.1), fun h => absurd h.1 hlong⟩

/-- Removing a file by its name takes away nothing else. -/
theorem steady_removeFile {name : Text} (hhouses : d.Houses directory place)
    (hname : Path.IsName (Text.encode name))
    (hloose : Node.isLoose (d.node? (place ++ [Text.encode name])) = true) :
    d.Steady (d.remove (Path.inside directory (Text.encode name))).2 := by
  refine (d.removed_remove _).steady fun other hother => ?_
  rw [leads?_inside hhouses hname (.inl rfl)] at hother
  split at hother
  · rw [← Option.some.inj hother]
    exact hloose
  · cases hother

/-- If the call goes well the file is gone, and otherwise it is not. -/
theorem node?_removeFile {name : Text} (hhouses : d.Houses directory place)
    (hname : Path.IsName (Text.encode name))
    (hloose : Node.isLoose (d.node? (place ++ [Text.encode name])) = true) (other : Place) :
    (d.remove (Path.inside directory (Text.encode name))).2.node? other =
      if (d.remove (Path.inside directory (Text.encode name))).1 = .ok () ∧
          other = place ++ [Text.encode name] then none
      else d.node? other := by
  have hremoved := d.removed_remove (Path.inside directory (Text.encode name))
  generalize d.remove (Path.inside directory (Text.encode name)) = removed at hremoved ⊢
  obtain ⟨result, d'⟩ := removed
  cases hremoved with
  | gone granted target removable here elsewhere =>
    obtain ⟨-, rfl, -⟩ := (removable_file hhouses hname hloose).mp removable
    by_cases hother : other = place ++ [Text.encode name]
    · rw [if_pos ⟨rfl, hother⟩, hother]
      exact here
    · rw [if_neg fun h => hother h.2]
      exact elsewhere other hother
  | left e same why =>
    rw [if_neg fun h => nomatch h.1]
    exact same other

/-- Nor does removing several. -/
theorem steady_removeFiles (hhouses : d.Houses directory place)
    (hnames : ∀ name ∈ names, Path.IsName (Text.encode name) ∧
      Node.isLoose (d.node? (place ++ [Text.encode name])) = true) :
    d.Steady (removeFiles directory names d).2 := by
  induction names generalizing d with
  | nil => exact .refl d
  | cons name rest ih =>
    obtain ⟨⟨hname, hloose⟩, hrest⟩ := List.forall_mem_cons.mp hnames
    have hremove := steady_removeFile hhouses hname hloose
    rw [Store.disk_removeFiles_cons]
    refine hremove.trans (ih (hhouses.steady hremove) fun other hother => ?_)
    rw [← hremove.isLoose]
    exact hrest other hother

theorem removes_cons {name other : Text} {rest : List Text} :
    Removes directory (name :: rest) d other ↔
      (name = other ∧ (d.remove (Path.inside directory (Text.encode name))).1 = .ok ()) ∨
        Removes directory rest (d.remove (Path.inside directory (Text.encode name))).2 other := by
  constructor
  · rintro ⟨i, hi, hok⟩
    cases i with
    | zero =>
      obtain rfl := Option.some.inj hi
      exact .inl ⟨rfl, hok⟩
    | succ i =>
      rw [List.take_succ_cons, Store.disk_removeFiles_cons] at hok
      exact .inr ⟨i, hi, hok⟩
  · rintro (⟨rfl, hok⟩ | ⟨i, hi, hok⟩)
    · exact ⟨0, rfl, hok⟩
    · refine ⟨i + 1, hi, ?_⟩
      rw [List.take_succ_cons, Store.disk_removeFiles_cons]
      exact hok

/-- The files that are removed are gone, and everything else is as it was. -/
theorem node?_removeFiles (hhouses : d.Houses directory place)
    (hnames : ∀ name ∈ names, Path.IsName (Text.encode name) ∧
      Node.isLoose (d.node? (place ++ [Text.encode name])) = true) (other : Place) :
    ((∃ name, Removes directory names d name ∧ other = place ++ [Text.encode name]) ∧
      (removeFiles directory names d).2.node? other = none) ∨
    ((∀ name, Removes directory names d name → other ≠ place ++ [Text.encode name]) ∧
      (removeFiles directory names d).2.node? other = d.node? other) := by
  induction names generalizing d with
  | nil => exact .inr ⟨fun name ⟨i, hi, _⟩ => (nomatch hi), rfl⟩
  | cons name rest ih =>
    obtain ⟨⟨hname, hloose⟩, hrest⟩ := List.forall_mem_cons.mp hnames
    have hremove := steady_removeFile hhouses hname hloose
    have hnode := node?_removeFile hhouses hname hloose other
    rw [Store.disk_removeFiles_cons]
    rcases ih (hhouses.steady hremove) fun other hother => by
        rw [← hremove.isLoose]
        exact hrest other hother with ⟨⟨gone, hgone, heq⟩, hnone⟩ | ⟨hkept, hsame⟩
    · exact .inl ⟨⟨gone, removes_cons.mpr (.inr hgone), heq⟩, hnone⟩
    · rw [hsame, hnode]
      split
      · next h => exact .inl ⟨⟨name, removes_cons.mpr (.inl ⟨rfl, h.1⟩), h.2⟩, rfl⟩
      · next h =>
        refine .inr ⟨fun gone hgone heq => ?_, rfl⟩
        rcases removes_cons.mp hgone with ⟨rfl, hok⟩ | hgone
        · exact h ⟨hok, heq⟩
        · exact hkept gone hgone heq

end Folder

namespace Store
variable {x : Store}

/-- What is sound about a folder in use: its names can be told apart in paths, and once it is open
its directory is there. -/
structure Sound (x : Store) : Prop where
  unslashed : x.disk.Unslashed
  houses : ∀ l, x.folder.ledger = some l →
    ∃ directory, x.disk.Houses x.folder.directory directory

theorem grown_opened (x : Store) : x.disk.Grown x.opened.disk := by
  cases hledger : x.folder.ledger with
  | some l =>
    rw [opened_of_ledger hledger]
    exact (Disk.Same.refl x.disk).grown
  | none =>
    rw [opened_of_closed hledger]
    exact Folder.grown_load _ _

theorem Sound.opened (h : x.Sound) : x.opened.Sound := by
  refine ⟨x.grown_opened.unslashed h.unslashed, fun l hl => ?_⟩
  cases hledger : x.folder.ledger with
  | some l' =>
    rw [opened_of_ledger hledger] at hl ⊢
    exact h.houses l hl
  | none =>
    have hhouses := Folder.houses_load (load_of_opened hledger hl)
    rwa [opened_of_closed hledger]

/-- Clearing takes away files only. -/
theorem steady_clear {directory : Place} (h : x.Sound)
    (hhouses : x.opened.disk.Houses x.folder.directory directory) :
    x.opened.disk.Steady (x.apply .clear).disk := by
  refine disk_use (.refl _) fun l _ => ?_
  have hsame := Folder.same_messageFiles x.folder.directory x.opened.disk
  have hfiles (names : List Text) :
      (Folder.messageFiles x.folder.directory x.opened.disk).1 = .ok names → _ :=
    Folder.loose_messageFiles h.opened.unslashed hhouses
  generalize Folder.messageFiles x.folder.directory x.opened.disk = listed at hsame hfiles
  obtain ⟨result, d'⟩ := listed
  cases result with
  | error e => exact hsame.steady
  | ok names =>
    refine hsame.steady.trans (Folder.steady_removeFiles (hhouses.steady hsame.steady) ?_)
    intro name hname
    rw [hsame]
    exact hfiles names rfl name hname

/-- Adding writes one file at most. -/
theorem written_add (h : x.Sound) (m : Message) :
    ∃ path, x.opened.disk.Written path (Text.encode m.text) (x.apply (.add m)).disk := by
  let Q (d : Disk) : Prop := ∃ path, x.opened.disk.Written path (Text.encode m.text) d
  refine disk_use (Q := Q) ⟨[], .same (.refl _)⟩ fun l hl => ?_
  obtain ⟨directory, hhouses⟩ := h.opened.houses l hl
  rw [directory_opened] at hhouses
  refine ⟨pathOf x.folder.directory m (l.sequence + 1), ?_⟩
  simp only [writeFile_there hhouses.isThere]
  exact x.opened.disk.written_write _ _

theorem Sound.use (h : x.Sound) {α : Type} {use : Ledger → Disk → Outcome Ledger α}
    (hunslashed : (x.folder.opened x.disk use).disk.Unslashed)
    (hsteady : ∀ directory, x.opened.disk.Houses x.folder.directory directory →
      x.opened.disk.Steady (x.folder.opened x.disk use).disk) :
    Sound ⟨(x.folder.opened x.disk use).mailbox, (x.folder.opened x.disk use).disk⟩ := by
  refine ⟨hunslashed, fun l hl => ?_⟩
  have hledger : ∃ l', x.opened.folder.ledger = some l' := by
    rcases opened_cases (x := x) rfl with ⟨hnone, hfolder, -⟩ | ⟨l', hl', -⟩
    · rw [hfolder, hnone] at hl
      cases hl
    · exact ⟨l', hl'⟩
  obtain ⟨l', hl'⟩ := hledger
  obtain ⟨directory, hhouses⟩ := h.opened.houses l' hl'
  rw [directory_opened] at hhouses
  refine ⟨directory, ?_⟩
  rw [directory_use]
  exact hhouses.steady (hsteady directory hhouses)

/-- Whatever is done with it, a folder stays sound. -/
theorem Sound.apply (h : x.Sound) (operation : Operation) : (x.apply operation).Sound := by
  cases operation with
  | read => exact h.opened
  | reopen => exact ⟨h.unslashed, fun l hl => by cases hl⟩
  | clear =>
    exact h.use ((thinned_clear x).unslashed h.opened.unslashed)
      fun directory hhouses => steady_clear h hhouses
  | add m =>
    obtain ⟨path, hwritten⟩ := written_add h m
    exact h.use (hwritten.unslashed h.opened.unslashed) fun _ _ => hwritten.steady

theorem Sound.run (h : x.Sound) (operations : List Operation) : (x.run operations).Sound := by
  induction operations generalizing x with
  | nil => exact h
  | cons operation rest ih => exact ih (h.apply operation)

end Store
end MailCapture
