import MailCapture.Proofs.Disk.Naming
import MailCapture.Proofs.Mailbox.Operations
import MailCapture.Proofs.Message.FileNames

/-! Message files and the numbers still to come.

A folder numbers its messages, and the number is part of the name of a message's file. Numbering
starts from how many message files there are when the folder is opened, and from nothing when it is
cleared; it goes on past a file that could not be written. Nothing in this keeps the numbers to come
apart from those of the files that are there: that they are is a condition on the directory
(`Orderly`), and it is met or not whenever numbering starts.

It says exactly that no message to come will change a message file, whatever the disk refuses
(`orderly_iff`). Where no links are in the way it says that the numbers of the message files are
behind (`orderly_iff_behind`). -/
namespace MailCapture
open Disk

/-- A place in a directory, with the name of a message file. -/
def IsMessagePlace (directory place : Place) : Prop :=
  ∃ bytes name, place = directory ++ [bytes] ∧ Text.decode? bytes = some name ∧
    Message.isMessageFile name = true

namespace Disk

/-- Some message of a number would be written there. -/
def Writes (d : Disk) (path : Bytes) (k : Nat) (place : Place) : Prop :=
  ∃ m, d.leads? .output (Store.pathOf path m k) = some place ∧
    Node.isLoose (d.node? place) = true

/-- No number to come will be written to a message file: to none that is there, and to no other
that comes before it. -/
structure Orderly (d : Disk) (path : Bytes) (directory : Place) (n : Nat) : Prop where
  vacant : ∀ k place, n < k → d.Writes path k place → IsMessagePlace directory place →
    d.node? place = none
  apart : ∀ j k place, n < j → j < k → d.Writes path j place → d.Writes path k place →
    ¬ IsMessagePlace directory place

/-- Every message file of a directory is still there, and what is in it. -/
def Keeps (path : Bytes) (d d' : Disk) : Prop :=
  ∀ directory, d.Houses path directory → d'.Houses path directory ∧
    ∀ place content, IsMessagePlace directory place → d.node? place = some (.file content) →
      d'.node? place = some (.file content)

variable {d d' d'' : Disk} {path : Bytes} {directory place : Place} {n k : Nat}

theorem Keeps.refl (path : Bytes) (d : Disk) : Keeps path d d :=
  fun _ h => ⟨h, fun _ _ _ hfile => hfile⟩

theorem Keeps.trans (h : Keeps path d d') (h' : Keeps path d' d'') : Keeps path d d'' := by
  intro directory hhouses
  obtain ⟨hhouses', hfiles⟩ := h directory hhouses
  obtain ⟨hhouses'', hfiles'⟩ := h' directory hhouses'
  exact ⟨hhouses'', fun place content hplace hfile =>
    hfiles' place content hplace (hfiles place content hplace hfile)⟩

theorem Same.keeps (h : d.Same d') (path : Bytes) : Keeps path d d' :=
  fun _ hhouses => ⟨hhouses.steady h.steady, fun place _ _ hfile => (h place).trans hfile⟩

theorem Writes.loose (h : d.Writes path k place) : Node.isLoose (d.node? place) = true := by
  obtain ⟨-, -, hloose⟩ := h
  exact hloose

theorem writes_steady (h : d.Steady d') : d.Writes path k place ↔ d'.Writes path k place := by
  unfold Writes
  rw [h.isLoose place]
  simp only [leads?_steady h]

theorem Orderly.same (h : d.Orderly path directory n) (hsame : d.Same d') :
    d'.Orderly path directory n := by
  refine ⟨fun k place hk hwrites hplace => ?_, fun j k place hj hk hwrites hwrites' => ?_⟩
  · rw [hsame place]
    exact h.vacant k place hk ((writes_steady hsame.steady).mpr hwrites) hplace
  · exact h.apart j k place hj hk ((writes_steady hsame.steady).mpr hwrites)
      ((writes_steady hsame.steady).mpr hwrites')

/-- Writing the next number leaves every message file and the order as they are. -/
theorem Orderly.written (h : d.Orderly path directory n) (hhouses : d.Houses path directory)
    {m : Message} {content : Bytes}
    (hwritten : d.Written (Store.pathOf path m (n + 1)) content d') :
    Keeps path d d' ∧ d'.Orderly path directory (n + 1) := by
  have hsteady := hwritten.steady
  cases hwritten with
  | same same =>
    refine ⟨same.keeps path, ?_⟩
    obtain ⟨hvacant, hapart⟩ := h.same same
    exact ⟨fun k place hk => hvacant k place (by omega),
      fun j k place hj => hapart j k place (by omega)⟩
  | file target leads loose here elsewhere =>
    have hwrites : d.Writes path (n + 1) target := ⟨m, leads, loose⟩
    refine ⟨fun other hother => ⟨hother.steady hsteady, fun place old hplace hfile => ?_⟩,
      fun k place hk hk' hplace => ?_, fun j k place hj hk hj' hk' => ?_⟩
    · obtain rfl := hhouses.unique hother
      have hne : place ≠ target := by
        intro heq
        subst heq
        rw [h.vacant (n + 1) place (Nat.lt_succ_self n) hwrites hplace] at hfile
        cases hfile
      rw [elsewhere place hne, hfile]
    · rw [← writes_steady hsteady] at hk'
      have hne : place ≠ target := by
        intro heq
        subst heq
        exact h.apart (n + 1) k place (Nat.lt_succ_self n) hk hwrites hk' hplace
      rw [elsewhere place hne]
      exact h.vacant k place (by omega) hk' hplace
    · rw [← writes_steady hsteady] at hj' hk'
      exact h.apart j k place (by omega) hk hj' hk'

/-! ### Numbers that are behind -/

/-- The number of every message file is behind, but for names that no message will be given. -/
def Behind (d : Disk) (path : Bytes) (directory : Place) (n : Nat) : Prop :=
  ∀ (m : Message) k content, mayName path (Text.encode (m.fileName k)) = true →
    d.node? (directory ++ [Text.encode (m.fileName k)]) = some (.file content) → k ≤ n

/-- No name that a message may be given is that of a link. -/
def Unlinked (d : Disk) (directory : Place) : Prop :=
  ∀ (m : Message) k target,
    d.node? (directory ++ [Text.encode (m.fileName k)]) ≠ some (.link target)

theorem isMessagePlace_fileName (directory : Place) (m : Message) (k : Nat) :
    IsMessagePlace directory (directory ++ [Text.encode (m.fileName k)]) :=
  ⟨_, _, rfl, Text.decode?_encode _, Message.isMessageFile_fileName m k⟩

theorem writes_inside (hhouses : d.Houses path directory) (hlinks : d.Unlinked directory) :
    d.Writes path k place ↔ ∃ m : Message, mayName path (Text.encode (m.fileName k)) = true ∧
      directory ++ [Text.encode (m.fileName k)] = place ∧ Node.isLoose (d.node? place) = true := by
  refine exists_congr fun m => ?_
  rw [Store.pathOf, leads?_inside hhouses (m.isName_fileName k) (.inr (hlinks m k))]
  cases mayName path (Text.encode (m.fileName k)) with
  | true => simp only [if_true, Option.some.injEq, true_and]
  | false => simp only [Bool.false_eq_true, if_false, reduceCtorEq, false_and]

/-- Without links in the way only the numbers of the message files matter. -/
theorem orderly_iff_behind (hhouses : d.Houses path directory) (hlinks : d.Unlinked directory) :
    d.Orderly path directory n ↔ d.Behind path directory n := by
  constructor
  · intro h m k content hname hfile
    refine Nat.le_of_not_lt fun hk => ?_
    have hwrites : d.Writes path k (directory ++ [Text.encode (m.fileName k)]) :=
      (writes_inside hhouses hlinks).mpr ⟨m, hname, rfl, by rw [hfile]; rfl⟩
    rw [h.vacant k _ hk hwrites (isMessagePlace_fileName directory m k)] at hfile
    cases hfile
  · intro h
    refine ⟨fun k place hk hwrites _ => ?_, fun j k place _ hk hwrites hagain _ => ?_⟩
    · obtain ⟨m, hname, rfl, hloose⟩ := (writes_inside hhouses hlinks).mp hwrites
      rcases Node.loose_cases hloose with hnone | ⟨content, hfile⟩
      · exact hnone
      · exact absurd hk (Nat.not_lt.mpr (h m k content hname hfile))
    · obtain ⟨m, -, rfl, -⟩ := (writes_inside hhouses hlinks).mp hwrites
      obtain ⟨m', -, hsame, -⟩ := (writes_inside hhouses hlinks).mp hagain
      obtain ⟨-, hbytes⟩ := List.append_inj' hsame rfl
      have htext := congrArg Text.decode (List.singleton_inj.mp hbytes)
      rw [Text.decode_encode, Text.decode_encode] at htext
      exact Nat.ne_of_gt hk (Message.sequence_of_fileName htext)

/-- A directory that holds nothing but files of messages with numbers so far. -/
def HoldsOwn (d : Disk) (directory : Place) (n : Nat) : Prop :=
  ∀ entry ∈ d.entries, ∀ name, entry.1 = directory ++ [name] →
    ∃ (m : Message) (k : Nat) (content : Bytes),
      name = Text.encode (m.fileName k) ∧ k ≤ n ∧ entry.2 = .file content

theorem HoldsOwn.of_node {name : Bytes} {node : Node} (h : d.HoldsOwn directory n)
    (hnode : d.node? (directory ++ [name]) = some node) :
    ∃ (m : Message) (k : Nat) (content : Bytes),
      name = Text.encode (m.fileName k) ∧ k ≤ n ∧ node = .file content := by
  exact h (directory ++ [name], node) ((mem_entries (List.concat_ne_nil _ _)).mpr hnode) name rfl

theorem HoldsOwn.unlinked (h : d.HoldsOwn directory n) : d.Unlinked directory := by
  intro m k target hlink
  obtain ⟨_, _, _, _, _, hfile⟩ := h.of_node hlink
  cases hfile

theorem HoldsOwn.orderly (h : d.HoldsOwn directory n) (hhouses : d.Houses path directory) :
    d.Orderly path directory n := by
  apply (orderly_iff_behind hhouses h.unlinked).mpr
  intro m k content _ hfile
  obtain ⟨m', j, _, hname, hj, _⟩ := h.of_node hfile
  have htext := congrArg Text.decode hname
  rw [Text.decode_encode, Text.decode_encode] at htext
  rwa [Message.sequence_of_fileName htext]

end Disk

namespace Store
variable {x : Store} {l : Ledger} {directory place : Place} {n k : Nat}

/-! ### Adding while the numbers are in order -/

/-- Open, with its directory there. -/
structure Seated (x : Store) (l : Ledger) (directory : Place) : Prop where
  ledger : x.folder.ledger = some l
  houses : x.disk.Houses x.folder.directory directory

/-- The number of the next message is one more. -/
theorem Seated.add (h : x.Seated l directory) (m : Message) :
    (x.apply (.add m)).Seated ⟨l.sequence + 1, l.messages ++ [m]⟩ directory ∧
      x.disk.Written (pathOf x.folder.directory m (l.sequence + 1)) (Text.encode m.text)
        (x.apply (.add m)).disk := by
  rw [apply_add h.ledger h.houses]
  have hwritten := x.disk.written_write (pathOf x.folder.directory m (l.sequence + 1))
    (Text.encode m.text)
  exact ⟨⟨rfl, h.houses.steady hwritten.steady⟩, hwritten⟩

theorem keeps_addAll (h : x.Seated l directory)
    (horderly : x.disk.Orderly x.folder.directory directory l.sequence) (messages : List Message) :
    x.disk.Keeps x.folder.directory (x.addAll messages).disk ∧
      ∃ l', (x.addAll messages).Seated l' directory ∧
        (x.addAll messages).disk.Orderly x.folder.directory directory l'.sequence := by
  induction messages generalizing x l with
  | nil => exact ⟨.refl _ _, l, h, horderly⟩
  | cons m rest ih =>
    obtain ⟨hseated, hwritten⟩ := h.add m
    obtain ⟨hkeeps, horderly⟩ := horderly.written h.houses hwritten
    rw [← directory_apply x (.add m)] at hkeeps horderly ⊢
    obtain ⟨hrest, hmore⟩ := ih hseated horderly
    exact ⟨hkeeps.trans hrest, hmore⟩

/-! ### Adding while they are not -/

/-- Some messages will change a message file, if not now then once others have come. -/
def Loses (x : Store) : Prop :=
  ∃ earlier later, ¬ (x.addAll earlier).disk.Keeps x.folder.directory
    (x.addAll (earlier ++ later)).disk

theorem Loses.of_add {m : Message} (h : (x.apply (.add m)).Loses) : x.Loses := by
  obtain ⟨earlier, later, hloses⟩ := h
  rw [directory_apply] at hloses
  exact ⟨m :: earlier, later, hloses⟩

/-- What every added message leaves alone, if the disk refuses nothing. -/
theorem Seated.add_now (h : x.Seated l directory) (hrefusals : x.disk.refusals = [])
    (m : Message) : (x.apply (.add m)).disk.refusals = [] ∧
      ∀ k place, x.disk.Writes x.folder.directory k place ↔
        (x.apply (.add m)).disk.Writes (x.apply (.add m)).folder.directory k place := by
  obtain ⟨-, hwritten⟩ := h.add m
  refine ⟨?_, fun k place => ?_⟩
  · rw [apply_add h.ledger h.houses]
    exact Disk.refusals_write hrefusals _ _
  · rw [directory_apply]
    exact writes_steady hwritten.steady

/-- A message file in the way of a number to come. -/
theorem loses_of_file (gap : Nat) (h : x.Seated l directory) (hrefusals : x.disk.refusals = [])
    (hwrites : x.disk.Writes x.folder.directory (l.sequence + 1 + gap) place)
    (hplace : IsMessagePlace directory place)
    (hfile : ∃ content, x.disk.node? place = some (.file content)) : x.Loses := by
  induction gap generalizing x l with
  | zero =>
    obtain ⟨content, hcontent⟩ := hfile
    obtain ⟨m, hleads, hloose⟩ := hwrites
    obtain ⟨m', hname, htext⟩ := Message.exists_other_text m content
    refine ⟨[], [m'], fun hkeeps => ?_⟩
    have hafter := (hkeeps directory h.houses).2 place content hplace hcontent
    have hleads' : x.disk.leads? .output (pathOf x.folder.directory m' (l.sequence + 1)) =
        some place := by
      rw [pathOf, hname]
      exact hleads
    have hdisk : (x.addAll [m']).disk = x.disk.put place (.file (Text.encode m'.text)) := by
      show (x.apply (.add m')).disk = _
      rw [apply_add h.ledger h.houses, Disk.write_now hrefusals hleads' hloose]
    rw [List.nil_append, hdisk, Disk.node?_put_self (Disk.ne_root_of_isLoose hloose)] at hafter
    exact htext (Node.file.inj (Option.some.inj hafter))
  | succ gap ih =>
    obtain ⟨hseated, hwritten⟩ := h.add {}
    obtain ⟨hrefusals', hsame⟩ := h.add_now hrefusals {}
    refine .of_add (ih hseated hrefusals' ?_ (hwritten.file_of_file hfile))
    rw [← hsame, Nat.add_assoc (l.sequence + 1), Nat.add_comm 1 gap]
    exact hwrites

/-- Two numbers to come for one message file. -/
theorem loses_of_twice (gap : Nat) (h : x.Seated l directory) (hrefusals : x.disk.refusals = [])
    (hwrites : x.disk.Writes x.folder.directory (l.sequence + 1 + gap) place)
    (hk : l.sequence + 1 + gap < k) (hagain : x.disk.Writes x.folder.directory k place)
    (hplace : IsMessagePlace directory place) : x.Loses := by
  induction gap generalizing x l with
  | zero =>
    obtain ⟨m, hleads, hloose⟩ := hwrites
    obtain ⟨hseated, hwritten⟩ := h.add m
    obtain ⟨hrefusals', hsame⟩ := h.add_now hrefusals m
    obtain ⟨gap, rfl⟩ := Nat.exists_eq_add_of_lt hk
    have hfile : (x.apply (.add m)).disk.node? place = some (.file (Text.encode m.text)) := by
      rw [apply_add h.ledger h.houses, Disk.write_now hrefusals hleads hloose]
      exact Disk.node?_put_self (Disk.ne_root_of_isLoose hloose) _ _
    refine .of_add (loses_of_file gap hseated hrefusals' ?_ hplace ⟨_, hfile⟩)
    rw [← hsame]
    show x.disk.Writes _ (l.sequence + 1 + 1 + gap) place
    rwa [show l.sequence + 1 + 1 + gap = l.sequence + 1 + 0 + gap + 1 by omega]
  | succ gap ih =>
    obtain ⟨hseated, -⟩ := h.add {}
    obtain ⟨hrefusals', hsame⟩ := h.add_now hrefusals {}
    have hnext : l.sequence + 1 + 1 + gap = l.sequence + 1 + (gap + 1) := by omega
    refine .of_add (ih hseated hrefusals' ?_ ?_ ((hsame k place).mp hagain))
    · rw [← hsame]
      show x.disk.Writes _ (l.sequence + 1 + 1 + gap) place
      rwa [hnext]
    · show l.sequence + 1 + 1 + gap < k
      rwa [hnext]

/-- The disk without anything it will refuse, or with something else. -/
def refusing (x : Store) (refusals : List (Option OsError)) : Store :=
  {x with disk := {x.disk with refusals}}

/-- In order is exactly what the numbers must be for every message file to be kept. -/
theorem orderly_iff (h : x.Seated l directory) :
    x.disk.Orderly x.folder.directory directory l.sequence ↔
      ∀ refusals earlier later,
        ((x.refusing refusals).addAll earlier).disk.Keeps x.folder.directory
          ((x.refusing refusals).addAll (earlier ++ later)).disk := by
  have hsame (refusals : List (Option OsError)) : x.disk.Same (x.refusing refusals).disk :=
    fun _ => rfl
  have hseated (refusals : List (Option OsError)) : (x.refusing refusals).Seated l directory :=
    ⟨h.ledger, h.houses.steady (hsame refusals).steady⟩
  constructor
  · intro horderly refusals earlier later
    obtain ⟨-, l', hseated', horderly'⟩ :=
      keeps_addAll (hseated refusals) (horderly.same (hsame refusals)) earlier
    rw [← directory_addAll _ earlier] at horderly'
    have hkeeps := (keeps_addAll hseated' horderly' later).1
    rwa [directory_addAll, ← addAll_append] at hkeeps
  · intro hkeeps
    have hsafe : ¬ (x.refusing []).Loses := fun ⟨earlier, later, hloses⟩ =>
      hloses (hkeeps [] earlier later)
    refine ⟨fun k place hk hwrites hplace => ?_, fun j k place hj hk hwrites hagain hplace => ?_⟩
    · obtain ⟨gap, rfl⟩ := Nat.exists_eq_add_of_lt hk
      rcases Node.loose_cases hwrites.loose with hnone | hfile
      · exact hnone
      · rw [Nat.add_right_comm, writes_steady (hsame []).steady] at hwrites
        exact absurd (loses_of_file gap (hseated []) rfl hwrites hplace hfile) hsafe
    · obtain ⟨gap, rfl⟩ := Nat.exists_eq_add_of_lt hj
      rw [Nat.add_right_comm, writes_steady (hsame []).steady] at hwrites
      rw [Nat.add_right_comm] at hk
      rw [writes_steady (hsame []).steady] at hagain
      exact hsafe (loses_of_twice gap (hseated []) rfl hwrites hk hagain hplace)

end Store
end MailCapture
