import Mathlib.Data.List.Induction
import MailCapture.Proofs.Disk.Doing
import MailCapture.Proofs.Mailbox.Housing

/-! A directory that mirrors messages.

The files of some messages are numbered in order, and a directory mirrors the messages if it holds
these files and nothing else (`Mirrors`). It does again after the next message has been written to
it (`Mirrors.write`), and it mirrors nothing once it has been cleared (`Mirrors.clear`). A folder
that is opened on it goes on from the number of the messages and reads back what their files say
(`Mirrors.load_now`). -/
namespace MailCapture
open Disk

/-! ### The files of messages -/

/-- The files of some messages, numbered from one. -/
def Folder.files (ms : List Message) : List (Bytes × Node) :=
  ms.mapIdx fun i m => (Text.encode (m.fileName (i + 1)), .file (Text.encode m.text))

namespace Folder
variable {ms : List Message} {m : Message} {entry : Bytes × Node}

theorem files_concat (ms : List Message) (m : Message) :
    files (ms ++ [m]) =
      files ms ++ [(Text.encode (m.fileName (ms.length + 1)), .file (Text.encode m.text))] :=
  List.mapIdx_concat

theorem exists_of_mem_files (h : entry ∈ files ms) :
    ∃ m k, 0 < k ∧ k ≤ ms.length ∧
      entry = (Text.encode (Message.fileName m k), .file (Text.encode m.text)) := by
  induction ms using List.reverseRecOn with
  | nil => cases h
  | append_singleton ms last ih =>
    rw [files_concat, List.mem_append, List.mem_singleton] at h
    rw [List.length_append, List.length_singleton]
    rcases h with h | rfl
    · obtain ⟨m, k, hpos, hk, rfl⟩ := ih h
      exact ⟨m, k, hpos, Nat.le_succ_of_le hk, rfl⟩
    · exact ⟨last, ms.length + 1, Nat.succ_pos _, Nat.le_refl _, rfl⟩

/-- No file has the number of a message to come. -/
theorem next_notMem_files (ms : List Message) (m : Message) (node : Node) :
    (Text.encode (m.fileName (ms.length + 1)), node) ∉ files ms := by
  intro h
  obtain ⟨m', k, -, hk, heq⟩ := exists_of_mem_files h
  have htext := congrArg (Text.decode ∘ Prod.fst) heq
  simp only [Function.comp_apply, Text.decode_encode] at htext
  have hsame := Message.sequence_of_fileName htext
  omega

theorem nodup_files (ms : List Message) : (files ms).Nodup := by
  induction ms using List.reverseRecOn with
  | nil => exact List.nodup_nil
  | append_singleton ms m ih =>
    rw [files_concat, List.nodup_append]
    refine ⟨ih, List.nodup_singleton _, ?_⟩
    rintro entry hentry _ hlast rfl
    rw [List.mem_singleton] at hlast
    exact next_notMem_files ms m _ (hlast ▸ hentry)

theorem messageName?_fileName (m : Message) (k : Nat) (content : Bytes) :
    messageName? (Text.encode (m.fileName k), .file content) = some (m.fileName k) :=
  messageName?_eq_some.mpr ⟨Message.isMessageFile_fileName m k, content, rfl⟩

/-- All of them are message files. -/
theorem names_files (ms : List Message) :
    (files ms).filterMap messageName? = ms.mapIdx fun i m => m.fileName (i + 1) := by
  induction ms using List.reverseRecOn with
  | nil => rfl
  | append_singleton ms m ih =>
    rw [files_concat, List.filterMap_append, ih, List.mapIdx_concat,
      List.filterMap_cons_some (messageName?_fileName ..)]
    rfl

/-- What a file is read as. -/
def messageIn : Node → Message
  | .file content => .parse (Text.decode content)
  | _ => {}

theorem messagesIn_files (ms : List Message) :
    (files ms).map (fun entry => messageIn entry.2) = ms.map fun m => .parse m.text := by
  induction ms using List.reverseRecOn with
  | nil => rfl
  | append_singleton ms m ih =>
    rw [files_concat, List.map_append, ih, List.map_append]
    simp only [List.map_cons, List.map_nil, messageIn, Text.decode_encode]

/-! ### Removing files -/

variable {directory : Bytes} {d : Disk} {place : Place} {names : List Text}

/-- Without a notice every file has been removed. -/
theorem removes_of_done (hok : (removeFiles directory names d).1 = []) :
    ∀ name ∈ names, Removes directory names d name := by
  induction names generalizing d with
  | nil => exact nofun
  | cons name rest ih =>
    have hremoves {other : Text} : Removes directory (name :: rest) d other ↔ _ := removes_cons
    unfold removeFiles at hok
    generalize d.remove (Path.inside directory (Text.encode name)) = removed at hremoves hok
    obtain ⟨result, d'⟩ := removed
    cases result with
    | error e => cases hok
    | ok =>
      refine List.forall_mem_cons.mpr ⟨hremoves.mpr (.inl ⟨rfl, rfl⟩), fun other hother => ?_⟩
      exact hremoves.mpr (.inr (ih hok other hother))

/-- Files that could all be removed are gone. -/
theorem removeFiles_gone (hhouses : d.Houses directory place)
    (hnames : ∀ name ∈ names, Path.IsName (Text.encode name) ∧
      Node.isLoose (d.node? (place ++ [Text.encode name])) = true)
    (hok : (removeFiles directory names d).1 = []) {name : Text} (hname : name ∈ names) :
    (removeFiles directory names d).2.node? (place ++ [Text.encode name]) = none := by
  rcases node?_removeFiles hhouses hnames (place ++ [Text.encode name]) with
    ⟨-, hnone⟩ | ⟨hkept, -⟩
  · exact hnone
  · exact absurd rfl (hkept name (removes_of_done hok name hname))

end Folder

/-! ### Mirrors -/

namespace Disk
variable {d d' : Disk} {aim : Aim} {path : Bytes} {place : Place} {ms : List Message} {m : Message}
  {name : Bytes} {node : Node}

/-- The directory of a path holds the files of some messages and nothing else, and each of them can
be reached. -/
structure Mirrors (d : Disk) (path : Bytes) (place : Place) (ms : List Message) : Prop where
  houses : d.Houses path place
  holds : ∀ name node, d.node? (place ++ [name]) = some node ↔ (name, node) ∈ Folder.files ms
  named : ∀ entry ∈ Folder.files ms, mayName path entry.1 = true

namespace Mirrors

theorem same (h : d.Mirrors path place ms) (hsame : d.Same d') : d'.Mirrors path place ms :=
  ⟨h.houses.steady hsame.steady, fun name node => by rw [hsame]; exact h.holds name node, h.named⟩

theorem of_empty (hhouses : d.Houses path place) (hempty : ∀ name, d.node? (place ++ [name]) = none) :
    d.Mirrors path place [] :=
  ⟨hhouses, fun name node => by rw [hempty]; exact ⟨nofun, nofun⟩, nofun⟩

/-- It lists the files in some order. -/
theorem children (h : d.Mirrors path place ms) : (d.children place).Perm (Folder.files ms) :=
  children_perm (Folder.nodup_files ms) h.holds

/-- No name in it is that of a link. -/
theorem final (h : d.Mirrors path place ms) (aim : Aim) (name : Bytes) :
    d.Final aim (place ++ [name]) := by
  refine .inr fun target hlink => ?_
  obtain ⟨_, _, -, -, heq⟩ := Folder.exists_of_mem_files ((h.holds name _).mp hlink)
  cases heq

theorem leads (h : d.Mirrors path place ms) (aim : Aim) (m : Message) (k : Nat) :
    d.leads? aim (Store.pathOf path m k) =
      if mayName path (Text.encode (m.fileName k)) then some (place ++ [Text.encode (m.fileName k)])
      else none :=
  leads?_inside h.houses (m.isName_fileName k) (h.final aim _)

/-- The next message written. -/
theorem write (h : d.Mirrors path place ms)
    (hok : (d.write (Store.pathOf path m (ms.length + 1)) (Text.encode m.text)).1 = .ok ()) :
    (d.write (Store.pathOf path m (ms.length + 1)) (Text.encode m.text)).2.Mirrors path place
      (ms ++ [m]) := by
  have hsteady := (d.written_write (Store.pathOf path m (ms.length + 1)) (Text.encode m.text)).steady
  obtain ⟨target, hleads, hhere, helsewhere⟩ := write_ok hok
  rw [h.leads] at hleads
  split at hleads
  · next hname =>
    obtain rfl := Option.some.inj hleads
    refine ⟨h.houses.steady hsteady, fun name node => ?_, fun entry hentry => ?_⟩
    · rw [Folder.files_concat, List.mem_append, List.mem_singleton]
      by_cases hnext : name = Text.encode (m.fileName (ms.length + 1))
      · subst hnext
        rw [hhere]
        simp [Folder.next_notMem_files, eq_comm]
      · have hplace : place ++ [name] ≠ place ++ [Text.encode (m.fileName (ms.length + 1))] := by
          simpa using hnext
        rw [helsewhere _ hplace, h.holds]
        simp [hnext]
    · rw [Folder.files_concat, List.mem_append, List.mem_singleton] at hentry
      rcases hentry with hentry | rfl
      · exact h.named entry hentry
      · exact hname
  · cases hleads

/-- The message files of the directory are all that is in it. -/
theorem messageFiles (h : d.Mirrors path place ms) {names : List Text}
    (hok : (Folder.messageFiles path d).1 = .ok names) :
    names.Perm ((Folder.files ms).filterMap Folder.messageName?) := by
  obtain ⟨now, place', hnow, hhouses, rfl⟩ := Folder.messageFiles_children hok
  obtain rfl := h.houses.unique hhouses
  exact (h.same hnow).children.filterMap _

/-- Once all of them could be removed, the directory mirrors nothing. -/
theorem clear (h : d.Mirrors path place ms) {names : List Text}
    (hnames : names.Perm ((Folder.files ms).filterMap Folder.messageName?))
    (hok : (Folder.removeFiles path names d).1 = []) :
    (Folder.removeFiles path names d).2.Mirrors path place [] := by
  have hfile (name : Text) (hname : name ∈ names) : ∃ m k, name = Message.fileName m k ∧
      (Text.encode name, .file (Text.encode m.text)) ∈ Folder.files ms := by
    obtain ⟨entry, hentry, hmessage⟩ := List.mem_filterMap.mp (hnames.mem_iff.mp hname)
    obtain ⟨m, k, -, -, rfl⟩ := Folder.exists_of_mem_files hentry
    obtain rfl := Option.some.inj (hmessage.symm.trans (Folder.messageName?_fileName ..))
    exact ⟨m, k, rfl, hentry⟩
  have hloose : ∀ name ∈ names, Path.IsName (Text.encode name) ∧
      Node.isLoose (d.node? (place ++ [Text.encode name])) = true := by
    intro name hname
    obtain ⟨m, k, rfl, hentry⟩ := hfile name hname
    rw [(h.holds _ _).mpr hentry]
    exact ⟨m.isName_fileName k, rfl⟩
  refine .of_empty (h.houses.steady (Folder.steady_removeFiles h.houses hloose)) fun name => ?_
  rcases Store.thinned_removeFiles path names d (place ++ [name]) with hnone | hsame
  · exact hnone
  · cases hnode : d.node? (place ++ [name]) with
    | none => exact hsame.trans hnode
    | some node =>
      have hentry := (h.holds name node).mp hnode
      obtain ⟨m, k, -, -, heq⟩ := Folder.exists_of_mem_files hentry
      obtain rfl := congrArg Prod.fst heq
      refine Folder.removeFiles_gone h.houses hloose hok (hnames.mem_iff.mpr ?_)
      refine List.mem_filterMap.mpr ⟨_, hentry, ?_⟩
      rw [heq]
      exact Folder.messageName?_fileName ..

/-! ### Opening -/

/-- Numbering goes on from the number of the messages. -/
theorem load_ok (h : d.Mirrors path place ms) {l : Ledger} (hok : (Folder.load path d).1 = .ok l) :
    l.sequence = ms.length := by
  rcases Folder.load_cases hok with ⟨-, names, hfiles, rfl⟩ | ⟨hmissing, -⟩
  · show names.length = ms.length
    rw [(h.messageFiles hfiles).length_eq, Folder.names_files, List.length_mapIdx]
  · rw [h.houses.isThere] at hmissing
    cases hmissing

/-- Files that can be read are read as what they hold. -/
theorem recover_now (h : d.Mirrors path place ms) (hrefusals : d.refusals = [])
    {entries : List (Bytes × Node)} (hentries : ∀ entry ∈ entries, entry ∈ Folder.files ms) :
    Folder.recover path (entries.filterMap Folder.messageName?) d =
      (entries.map fun entry => Folder.messageIn entry.2, [], d) := by
  induction entries with
  | nil => rfl
  | cons entry rest ih =>
    obtain ⟨hentry, hrest⟩ := List.forall_mem_cons.mp hentries
    obtain ⟨m, k, -, -, rfl⟩ := Folder.exists_of_mem_files hentry
    have hread : d.read (Path.inside path (Text.encode (m.fileName k))) = (.ok (Text.encode m.text), d) := by
      refine read_now hrefusals ((h.leads .content m k).trans (if_pos (h.named _ hentry))) ?_
      exact (h.holds _ _).mpr hentry
    rw [List.filterMap_cons_some (Folder.messageName?_fileName ..)]
    unfold Folder.recover
    simp only [hread, ih hrest, Folder.readMessage, Text.decode?_encode, List.map_cons,
      Folder.messageIn, Text.decode_encode]

/-- Where nothing is refused, all the messages are read back from their files. -/
theorem load_now (h : d.Mirrors path place ms) (hrefusals : d.refusals = []) :
    ∃ listed, Folder.load path d = (.ok ⟨ms.length, listed⟩, d, []) ∧
      listed.Perm (ms.map fun m => .parse m.text) := by
  have hchildren := h.children
  have hfiles : Folder.messageFiles path d =
      (.ok ((d.children place).filterMap Folder.messageName?), d) := by
    rw [Folder.messageFiles_eq, list_now hrefusals h.houses]
    rfl
  have hrecover := h.recover_now hrefusals fun entry hentry => hchildren.mem_iff.mp hentry
  have hlength : ((d.children place).filterMap Folder.messageName?).length = ms.length := by
    rw [(hchildren.filterMap _).length_eq, Folder.names_files, List.length_mapIdx]
  refine ⟨Folder.byText ((d.children place).map fun entry => Folder.messageIn entry.2), ?_, ?_⟩
  · unfold Folder.load
    rw [if_pos h.houses.isThere, hfiles]
    simp only [hrecover, hlength]
  · refine (List.mergeSort_perm _ _).trans ((hchildren.map _).trans ?_)
    rw [Folder.messagesIn_files]

end Mirrors
end Disk
end MailCapture
