import MailCapture.Proofs.Mailbox.Housing
import MailCapture.Proofs.Mailbox.Sharing

/-! Either kind of mailbox.

A client of a mailbox has errands: it adds messages, clears, and asks. Whatever the errands are and
whatever the disk refuses, a folder that began without messages lists those added since the last
clear, and a mailbox in memory lists the last of them. So as long as no more were added than there
is room for in memory, no question tells the two apart (`interchangeable`). The disk has no say in
it: a folder looks at its directory once, when it is first used, and answers from its list from then
on. -/
namespace MailCapture

/-! ### Errands -/

namespace Mailbox

/-- Something a client wants of a mailbox. -/
inductive Errand where
  | add (m : Message)
  | clear
  | length
  | isEmpty
  | messages
  | message (index : Nat)
deriving DecidableEq, Repr

/-- What the messages added since the last clear are after an errand. -/
def Errand.keep (added : List Message) : Errand → List Message
  | .add m => added ++ [m]
  | .clear => []
  | .length | .isEmpty | .messages | .message _ => added

/-- The messages added since the last clear. -/
def Errand.added (errands : List Errand) : List Message := errands.foldl keep []

namespace Post

/-- What is left by something done with the mailbox. -/
def leave {α : Type} (p : Post) (o : Outcome Mailbox α) : Post :=
  ⟨o.mailbox, o.disk, p.log ++ o.notices⟩

def errand (p : Post) : Errand → Post
  | .add m => p.leave (p.mailbox.add m p.disk)
  | .clear => p.leave (p.mailbox.clear p.disk)
  | .length => p.leave (p.mailbox.length p.disk)
  | .isEmpty => p.leave (p.mailbox.isEmpty p.disk)
  | .messages => p.leave (p.mailbox.messages p.disk)
  | .message index => p.leave (p.mailbox.message index p.disk)

def errands (p : Post) (errands : List Errand) : Post := errands.foldl errand p

end Post

/-! ### Answers -/

/-- The answers to every question. -/
@[ext]
structure Readings where
  length : Except Fault Nat
  isEmpty : Except Fault Bool
  messages : Except Fault (List Message)
  message : Nat → Except Fault Message

/-- What a list of messages answers. -/
def Readings.of (listed : List Message) : Readings where
  length := .ok listed.length
  isEmpty := .ok listed.isEmpty
  messages := .ok listed
  message index := listed[index]?.elim (.error (.indexOutOfRange index listed.length)) .ok

/-- What a mailbox answers, each question asked now. -/
def Post.readings (p : Post) : Readings where
  length := (p.mailbox.length p.disk).result
  isEmpty := (p.mailbox.isEmpty p.disk).result
  messages := (p.mailbox.messages p.disk).result
  message index := (p.mailbox.message index p.disk).result

/-- All questions are asked of one list. -/
theorem Post.readings_eq {p : Post} {listed : List Message}
    (h : (p.mailbox.messages p.disk).result = .ok listed) : p.readings = .of listed := by
  have hask {α : Type} (question : List Message → Except Fault α) :
      (p.mailbox.ask p.disk question).result = question listed := by
    show (p.mailbox.messages p.disk).result.bind question = _
    rw [h]
    rfl
  refine Readings.ext (hask _) (hask _) h (funext fun index => (hask _).trans ?_)
  cases hindex : listed[index]? <;> simp [Readings.of, hindex]

end Mailbox

/-! ### In a folder -/

/-- Nothing in a directory is taken for a message, if only because there is no directory. -/
def Disk.IsMessageFree (d : Disk) (directory : Bytes) : Prop :=
  ∀ place name content, d.Houses directory place → Message.isMessageFile name = true →
    d.node? (place ++ [Text.encode name]) ≠ some (.file content)

namespace Folder
variable {f : Folder} {d : Disk} {all : List Message}

theorem load_free {directory : Bytes} {l : Ledger} (hfree : d.IsMessageFree directory)
    (hload : (load directory d).1 = .ok l) : l = {} := by
  rcases load_cases hload with ⟨-, names, hfiles, rfl⟩ | ⟨-, -, hnew⟩
  · obtain ⟨place, hhouses, hlisted⟩ := messageFiles_ok hfiles
    have hnone : names = [] := by
      refine List.eq_nil_iff_forall_not_mem.mpr fun name hname => ?_
      obtain ⟨hfile, content, hnode⟩ := (hlisted name).mp hname
      exact hfree place name content hhouses hfile hnode
    subst hnone
    have hempty : byText [] = [] := List.mergeSort_nil
    exact congrArg (Ledger.mk 0) hempty
  · exact hnew

/-- Once it has been opened, a folder lists these messages. -/
def Lists (f : Folder) (d : Disk) (all : List Message) : Prop :=
  ∃ l, (Store.mk f d).opened.folder.ledger = some l ∧ l.messages = all

theorem Lists.of_ledger {l : Ledger} (h : f.ledger = some l) (d : Disk) :
    f.Lists d l.messages :=
  ⟨l, by rw [Store.opened_of_ledger (x := ⟨f, d⟩) h]; exact h, rfl⟩

/-- A folder that begins without messages lists none. -/
theorem lists_new {directory : Bytes} {l : Ledger} (hfree : d.IsMessageFree directory)
    (hload : (load directory d).1 = .ok l) : Lists ⟨directory, none⟩ d [] := by
  obtain rfl := load_free hfree hload
  refine ⟨{}, ?_, rfl⟩
  rw [Store.opened_of_closed (x := ⟨⟨directory, none⟩, d⟩) rfl]
  show (load directory d).1.toOption = _
  rw [hload]
  rfl

/-- What is done with a folder is done with a ledger that lists its messages. -/
theorem Lists.use (h : f.Lists d all) {α : Type} (use : Ledger → Disk → Outcome Ledger α) :
    ∃ l d', l.messages = all ∧ (f.opened d use).result = (use l d').result ∧
      (f.opened d use).mailbox.ledger = some (use l d').mailbox := by
  obtain ⟨l, hledger, hall⟩ := h
  rcases Store.opened_cases (x := ⟨f, d⟩) (o := f.opened d use) rfl with
    ⟨hnone, -⟩ | ⟨l', hl', hmailbox, -, hresult, -⟩
  · rw [hnone] at hledger
    cases hledger
  · obtain rfl := Option.some.inj (hl'.symm.trans hledger)
    exact ⟨l', _, hall, hresult, congrArg Folder.ledger hmailbox⟩

/-- It lists afterwards what that does to them, whatever it does to the disk. -/
theorem Lists.after (h : f.Lists d all) {α : Type} {use : Ledger → Disk → Outcome Ledger α}
    {listed : List Message}
    (huse : ∀ l d', l.messages = all → (use l d').mailbox.messages = listed) :
    (f.opened d use).mailbox.Lists (f.opened d use).disk listed := by
  obtain ⟨l, d', hall, -, hledger⟩ := h.use use
  rw [← huse l d' hall]
  exact .of_ledger hledger _

theorem Lists.result_messages (h : f.Lists d all) : (f.messages d).result = .ok all := by
  obtain ⟨l, _, hall, hresult, -⟩ := h.use fun ledger d => ⟨.ok ledger.messages, ledger, d, []⟩
  rw [← hall]
  exact hresult

theorem Lists.messages (h : f.Lists d all) : (f.messages d).mailbox.Lists (f.messages d).disk all :=
  h.after fun _ _ hall => hall

/-- A message is listed whether or not its file can be written. -/
theorem Lists.add (h : f.Lists d all) (m : Message) :
    (f.add m d).mailbox.Lists (f.add m d).disk (all ++ [m]) :=
  h.after fun _ _ hall => congrArg (· ++ [m]) hall

/-- Nothing is listed after a clear, whether or not the files can be removed. -/
theorem Lists.clear (h : f.Lists d all) : (f.clear d).mailbox.Lists (f.clear d).disk [] := by
  refine h.after fun l d' _ => ?_
  generalize messageFiles f.directory d' = listed
  obtain ⟨result, now⟩ := listed
  cases result <;> rfl

end Folder

/-! ### Side by side -/

namespace Mailbox.Post
open Folder
variable {p : Post} {all : List Message} {capacity : Nat}

/-- What every errand keeps true of a mailbox and the messages added is true after all of them. -/
theorem errands_kept (R : Post → List Message → Prop)
    (hkept : ∀ {p all}, R p all → ∀ e, R (p.errand e) (e.keep all)) (h : R p all)
    (es : List Errand) : R (p.errands es) (es.foldl Errand.keep all) := by
  induction es generalizing p all with
  | nil => exact h
  | cons e rest ih => exact ih (hkept h e)

/-- A folder that lists some messages. -/
def ListsAll (p : Post) (all : List Message) : Prop :=
  ∃ f, p.mailbox = .folder f ∧ f.Lists p.disk all

/-- A mailbox in memory that lists the last of some messages. -/
def ListsLast (p : Post) (capacity : Nat) (all : List Message) : Prop :=
  ∃ r, p.mailbox = .recent r ∧ r.capacity = capacity ∧
    r.messages = all.drop (all.length - r.capacity)

theorem ListsAll.errand (h : p.ListsAll all) (e : Errand) : (p.errand e).ListsAll (e.keep all) := by
  obtain ⟨mailbox, disk, log⟩ := p
  obtain ⟨f, rfl, hlists⟩ := h
  cases e with
  | add m => exact ⟨_, rfl, hlists.add m⟩
  | clear => exact ⟨_, rfl, hlists.clear⟩
  | length | isEmpty | messages | message => exact ⟨_, rfl, hlists.messages⟩

theorem ListsAll.readings (h : p.ListsAll all) : p.readings = .of all := by
  obtain ⟨mailbox, disk, log⟩ := p
  obtain ⟨f, rfl, hlists⟩ := h
  exact readings_eq hlists.result_messages

theorem ListsLast.errand (h : p.ListsLast capacity all) (e : Errand) :
    (p.errand e).ListsLast capacity (e.keep all) := by
  obtain ⟨mailbox, disk, log⟩ := p
  obtain ⟨r, rfl, hcapacity, hlast⟩ := h
  cases e with
  | add m => exact ⟨r.add m, rfl, hcapacity, Recent.messages_add_latest hlast m⟩
  | clear => exact ⟨r.clear, rfl, hcapacity, List.drop_nil.symm⟩
  | length | isEmpty | messages | message => exact ⟨r, rfl, hcapacity, hlast⟩

theorem ListsLast.readings (h : p.ListsLast capacity all) :
    p.readings = .of (all.drop (all.length - capacity)) := by
  obtain ⟨mailbox, disk, log⟩ := p
  obtain ⟨r, rfl, rfl, hlast⟩ := h
  exact readings_eq (congrArg Except.ok hlast)

/-- **A folder and a mailbox in memory are interchangeable until the memory is full.** Take a new
mailbox in memory and a folder on a directory that is missing or holds no message, and that can be
opened; after the same errands, in any order and with any calls refused by the disk, every question
to the folder is answered from the list of the messages added since the last clear, and every
question to the memory from the last of them, as many as there is room for. So as long as there is
room for all of them the answers are the same, down to the index and the length in the error about
an index out of range. -/
theorem interchangeable {capacity : Nat} {r : Recent} (hr : Recent.empty capacity = .ok r)
    {directory : Bytes} {d : Disk} {l : Ledger} (hload : (load directory d).1 = .ok l)
    (hfree : d.IsMessageFree directory) (elsewhere : Disk) (es : List Errand) :
    let memory := errands ⟨.recent r, elsewhere, []⟩ es
    let onDisk := errands ⟨.folder ⟨directory, none⟩, d, []⟩ es
    let all := Errand.added es
    onDisk.readings = .of all ∧ memory.readings = .of (all.drop (all.length - capacity)) ∧
      (all.length ≤ capacity → memory.readings = onDisk.readings) := by
  intro memory onDisk all
  have hnew : r.messages = [] ∧ r.capacity = capacity := by
    unfold Recent.empty at hr
    split at hr
    · split at hr
      · rw [← Except.ok.inj hr]
        exact ⟨rfl, rfl⟩
      · cases hr
    · cases hr
  have hfolder : ListsAll ⟨.folder ⟨directory, none⟩, d, []⟩ [] :=
    ⟨_, rfl, lists_new hfree hload⟩
  have hrecent : ListsLast ⟨.recent r, elsewhere, []⟩ capacity [] :=
    ⟨r, rfl, hnew.2, hnew.1.trans List.drop_nil.symm⟩
  have honDisk : onDisk.readings = .of all :=
    ListsAll.readings (errands_kept ListsAll ListsAll.errand hfolder es)
  have hmemory : memory.readings = .of (all.drop (all.length - capacity)) :=
    ListsLast.readings (errands_kept (ListsLast · capacity ·) ListsLast.errand hrecent es)
  refine ⟨honDisk, hmemory, fun hroom => ?_⟩
  rw [hmemory, honDisk, Nat.sub_eq_zero_of_le hroom, List.drop_zero]

/-- The first file is not written and one is not removed; there was no directory, and there is room
for two. -/
theorem interchangeable_refused :
    let directory := Text.encode "/mail".toList
    let d : Disk := { refusals :=
      [none, some .permissionDenied, none, none, none, some .permissionDenied] }
    let m : Message := { sender := "m".toList }
    let es : List Errand :=
      [.add {}, .length, .add m, .add {}, .message 7, .clear, .isEmpty, .add m, .messages]
    let r : Recent := { capacity := 2, capacity_pos := Nat.two_pos }
    let memory := errands ⟨.recent r, {}, []⟩ es
    let onDisk := errands ⟨.folder ⟨directory, none⟩, d, []⟩ es
    Recent.empty 2 = .ok r ∧ (load directory d).1 = .ok {} ∧ d.IsMessageFree directory ∧
      memory.readings = onDisk.readings ∧ onDisk.readings.messages = .ok [m] ∧
      onDisk.readings.message 1 = .error (.indexOutOfRange 1 1) := by
  intro directory d m es r memory onDisk
  have hr : Recent.empty 2 = .ok r := rfl
  have hload : (load directory d).1 = .ok {} := by decide +kernel
  have hfree : d.IsMessageFree directory := by
    intro place name content _ _ hnode
    have hnone : d.node? (place ++ [Text.encode name]) = none :=
      if_neg (List.append_ne_nil_of_right_ne_nil place (List.cons_ne_nil _ []))
    rw [hnone] at hnode
    cases hnode
  obtain ⟨hreadings, -, hsame⟩ := interchangeable hr hload hfree {} es
  refine ⟨hr, hload, hfree, hsame (by decide), ?_, ?_⟩
  · exact congrArg Readings.messages hreadings
  · exact congrFun (congrArg Readings.message hreadings) 1

end Mailbox.Post
end MailCapture
