import MailCapture.Mailbox.Folder
import MailCapture.Proofs.Disk.Steady

/-! What operations on a folder do to its disk.

A `Store` is a folder with the disk it is on, and a run is a list of operations on it. Whatever is
done with a folder is done with it opened (`opened_cases`). Opening a directory that is there
changes nothing on the disk (`same_opened`), adding writes one file at most (`apply_add`), and
clearing only removes (`thinned_clear`). -/
namespace MailCapture

/-- A folder and the disk it is on. -/
structure Store where
  folder : Folder
  disk : Disk

namespace Store

/-! ### Operations -/

inductive Operation where
  | add (m : Message)
  | clear
  | read
  /-- A new folder on the same directory. -/
  | reopen

def apply (x : Store) : Operation → Store
  | .add m => ⟨(x.folder.add m x.disk).mailbox, (x.folder.add m x.disk).disk⟩
  | .clear => ⟨(x.folder.clear x.disk).mailbox, (x.folder.clear x.disk).disk⟩
  | .read => ⟨(x.folder.messages x.disk).mailbox, (x.folder.messages x.disk).disk⟩
  | .reopen => {x with folder := {x.folder with ledger := none}}

def run (x : Store) (operations : List Operation) : Store := operations.foldl apply x

/-- The store once its folder has been opened, if it can be. -/
def opened (x : Store) : Store := x.apply .read

def addAll (x : Store) (messages : List Message) : Store := x.run (messages.map .add)

theorem addAll_append (x : Store) (a b : List Message) :
    x.addAll (a ++ b) = (x.addAll a).addAll b := by
  rw [addAll, List.map_append]
  exact List.foldl_append

variable {x : Store}

theorem opened_of_ledger {l : Ledger} (h : x.folder.ledger = some l) : x.opened = x := by
  obtain ⟨⟨directory, ledger⟩, disk⟩ := x
  obtain rfl : ledger = some l := h
  rfl

theorem opened_of_closed (h : x.folder.ledger = none) :
    x.opened = ⟨⟨x.folder.directory, (Folder.load x.folder.directory x.disk).1.toOption⟩,
      (Folder.load x.folder.directory x.disk).2.1⟩ := by
  obtain ⟨⟨directory, ledger⟩, disk⟩ := x
  obtain rfl : ledger = none := h
  unfold opened apply Folder.messages Folder.opened
  simp only
  generalize Folder.load directory disk = loaded
  obtain ⟨result, d', notices⟩ := loaded
  cases result <;> rfl

/-- The ledger it has then is the one loaded. -/
theorem load_of_opened {l : Ledger} (h : x.folder.ledger = none)
    (hopened : x.opened.folder.ledger = some l) :
    (Folder.load x.folder.directory x.disk).1 = .ok l := by
  rw [opened_of_closed h] at hopened
  cases hload : (Folder.load x.folder.directory x.disk).1 with
  | error e =>
    rw [hload] at hopened
    cases hopened
  | ok l' =>
    rw [hload] at hopened
    exact congrArg Except.ok (Option.some.inj hopened)

/-- Whatever is done with a folder is done with it opened, unless it cannot be. -/
theorem opened_cases {α : Type} {use : Ledger → Disk → Outcome Ledger α} {o : Outcome Folder α}
    (h : x.folder.opened x.disk use = o) :
    (x.opened.folder.ledger = none ∧ o.mailbox = x.opened.folder ∧ o.disk = x.opened.disk ∧
      ∃ e, o.result = .error e) ∨
    ∃ l, x.opened.folder.ledger = some l ∧
      o.mailbox = {x.opened.folder with ledger := some (use l x.opened.disk).mailbox} ∧
      o.disk = (use l x.opened.disk).disk ∧ o.result = (use l x.opened.disk).result ∧
      ∀ notice ∈ (use l x.opened.disk).notices, notice ∈ o.notices := by
  subst h
  obtain ⟨⟨directory, ledger⟩, disk⟩ := x
  unfold opened apply Folder.messages Folder.opened
  cases ledger with
  | some l => exact .inr ⟨l, rfl, rfl, rfl, rfl, fun _ hnotice => hnotice⟩
  | none =>
    simp only
    generalize Folder.load directory disk = loaded
    obtain ⟨result, d', notices⟩ := loaded
    cases result with
    | error e => exact .inl ⟨rfl, rfl, rfl, _, rfl⟩
    | ok l =>
      exact .inr ⟨l, rfl, rfl, rfl, rfl, fun _ hnotice => List.mem_append_right _ hnotice⟩

/-! ### Opening -/

theorem same_recover (directory : Bytes) (names : List Text) (d : Disk) :
    d.Same (Folder.recover directory names d).2.2 := by
  induction names generalizing d with
  | nil => exact .refl d
  | cons name rest ih =>
    have hread := d.same_read (Path.inside directory (Text.encode name))
    have hrest := hread.trans (ih _)
    unfold Folder.recover
    simp only
    split
    · exact hrest
    · exact hrest

theorem same_load {directory : Bytes} {d : Disk} (h : d.isThere directory = true) :
    d.Same (Folder.load directory d).2.1 := by
  have hlist := d.same_list directory
  unfold Folder.load Folder.messageFiles
  rw [if_pos h]
  generalize d.list directory = listed at hlist
  obtain ⟨result, d'⟩ := listed
  cases result with
  | error e => exact hlist
  | ok entries => exact hlist.trans (same_recover directory _ d')

/-- Opening a directory that is there. -/
theorem same_opened_there (h : x.disk.isThere x.folder.directory = true) :
    x.disk.Same x.opened.disk := by
  cases hledger : x.folder.ledger with
  | some l =>
    rw [opened_of_ledger hledger]
    exact .refl x.disk
  | none =>
    rw [opened_of_closed hledger]
    exact same_load h

theorem same_opened {place : Place} (h : x.disk.Houses x.folder.directory place) :
    x.disk.Same x.opened.disk :=
  same_opened_there h.isThere

theorem directory_opened (x : Store) : x.opened.folder.directory = x.folder.directory := by
  cases hledger : x.folder.ledger with
  | some l => rw [opened_of_ledger hledger]
  | none => rw [opened_of_closed hledger]

theorem directory_use {α : Type} (use : Ledger → Disk → Outcome Ledger α) :
    (x.folder.opened x.disk use).mailbox.directory = x.folder.directory := by
  rw [← directory_opened x]
  rcases opened_cases (x := x) rfl with ⟨-, hfolder, -⟩ | ⟨l, -, hfolder, -⟩
  · rw [hfolder]
  · rw [hfolder]

theorem directory_apply (x : Store) (operation : Operation) :
    (x.apply operation).folder.directory = x.folder.directory := by
  cases operation with
  | add m => exact directory_use _
  | clear => exact directory_use _
  | read => exact directory_use _
  | reopen => rfl

theorem directory_addAll (x : Store) (messages : List Message) :
    (x.addAll messages).folder.directory = x.folder.directory := by
  induction messages generalizing x with
  | nil => rfl
  | cons m rest ih => exact (ih (x.apply (.add m))).trans (directory_apply x (.add m))

/-! ### Adding -/

/-- Where a message of a number goes. -/
def pathOf (directory : Bytes) (m : Message) (k : Nat) : Bytes :=
  Path.inside directory (Text.encode (m.fileName k))

theorem writeFile_there {directory : Bytes} {d : Disk} (h : d.isThere directory = true)
    (path : Bytes) (m : Message) :
    Folder.writeFile directory path m d = d.write path (Text.encode m.text) := by
  unfold Folder.writeFile
  rw [if_pos h]

theorem apply_add {l : Ledger} (hledger : x.folder.ledger = some l) {place : Place}
    (h : x.disk.Houses x.folder.directory place) (m : Message) :
    x.apply (.add m) =
      ⟨{x.folder with ledger := some ⟨l.sequence + 1, l.messages ++ [m]⟩},
        (x.disk.write (pathOf x.folder.directory m (l.sequence + 1)) (Text.encode m.text)).2⟩ := by
  obtain ⟨⟨directory, ledger⟩, disk⟩ := x
  obtain rfl : ledger = some l := hledger
  have hthere : disk.isThere directory = true := h.isThere
  unfold apply Folder.add Folder.opened
  simp only [writeFile_there hthere]
  rfl

/-! ### Clearing -/

theorem disk_removeFiles_cons (directory : Bytes) (name : Text) (rest : List Text) (d : Disk) :
    (Folder.removeFiles directory (name :: rest) d).2 =
      (Folder.removeFiles directory rest
        (d.remove (Path.inside directory (Text.encode name))).2).2 := by
  rw [Folder.removeFiles]
  simp only
  split
  · rfl
  · rfl

theorem thinned_removeFiles (directory : Bytes) (names : List Text) (d : Disk) :
    d.Thinned (Folder.removeFiles directory names d).2 := by
  induction names generalizing d with
  | nil => exact (Disk.Same.refl d).thinned
  | cons name rest ih =>
    rw [disk_removeFiles_cons]
    exact (d.removed_remove _).thinned.trans (ih _)

/-- What opening leaves behind and what is done then keeps. -/
theorem disk_use {α : Type} {Q : Disk → Prop} {use : Ledger → Disk → Outcome Ledger α}
    (hopened : Q x.opened.disk)
    (huse : ∀ l, x.opened.folder.ledger = some l → Q (use l x.opened.disk).disk) :
    Q (x.folder.opened x.disk use).disk := by
  rcases opened_cases (x := x) rfl with ⟨-, -, hdisk, -⟩ | ⟨l, hl, -, hdisk, -⟩
  · rw [hdisk]
    exact hopened
  · rw [hdisk]
    exact huse l hl

theorem thinned_clear (x : Store) : x.opened.disk.Thinned (x.apply .clear).disk := by
  refine disk_use (Disk.Same.refl _).thinned fun l _ => ?_
  have hlist := x.opened.disk.same_list x.folder.directory
  unfold Folder.messageFiles
  generalize x.opened.disk.list x.folder.directory = listed at hlist
  obtain ⟨result, d'⟩ := listed
  cases result with
  | error e => exact hlist.thinned
  | ok entries => exact hlist.thinned.trans (thinned_removeFiles _ _ d')

end Store
end MailCapture
