import MailCapture.Proofs.Mailbox.Housing
import MailCapture.Proofs.Mailbox.Numbering

/-! Runs that keep every message file.

`message_files_kept`: if the numbers are in order whenever numbering starts, which is when a folder
is opened and when it is cleared, then no operation of a run changes a message file but a clear that
removes it. The condition is the weakest one (`orderly_iff`), and not always met: numbering goes on
past a file that could not be written, and starts from how many files there are, so the last message
file is written again once the folder has been opened again (`message_file_overwritten`). -/
namespace MailCapture.Store
open Disk
variable {x : Store} {l : Ledger} {directory : Place}

/-- Numbering has just started, or will as soon as the folder is opened. -/
def Starting (x : Store) : Prop := x.folder.ledger = none ∨ x.folder.ledger = some {}

/-- Once the folder is open the numbers are in order. -/
def Numbered (x : Store) : Prop :=
  ∀ l directory, x.opened.Seated l directory →
    x.opened.disk.Orderly x.folder.directory directory l.sequence

/-- The message files are the same after an operation, but for those that a clear removes. -/
def Spares (x : Store) : Operation → Prop
  | .clear => x.disk.Keeps x.folder.directory x.opened.disk ∧
      x.opened.disk.Thinned (x.apply .clear).disk
  | operation => x.disk.Keeps x.folder.directory (x.apply operation).disk

/-! ### One operation -/

theorem keeps_opened (x : Store) : x.disk.Keeps x.folder.directory x.opened.disk := by
  intro directory hhouses
  exact (same_opened hhouses).keeps x.folder.directory directory hhouses

theorem starting_use {α : Type} {use : Ledger → Disk → Outcome Ledger α}
    (huse : ∀ (l : Ledger) (d : Disk), (use l d).mailbox = {}) :
    (x.folder.opened x.disk use).mailbox.ledger = none ∨
      (x.folder.opened x.disk use).mailbox.ledger = some {} := by
  rcases opened_cases (x := x) rfl with ⟨hnone, hfolder, -⟩ | ⟨l, -, hfolder, -⟩
  · exact .inl ((congrArg Folder.ledger hfolder).trans hnone)
  · exact .inr ((congrArg Folder.ledger hfolder).trans (congrArg some (huse l _)))

theorem starting_clear (x : Store) : (x.apply .clear).Starting := by
  apply starting_use
  intro l d
  simp only
  split <;> rfl

theorem add_opened (x : Store) (m : Message) :
    (x.opened.folder.ledger = none ∧ x.apply (.add m) = x.opened) ∨
      ∃ l, x.opened.folder.ledger = some l ∧ x.apply (.add m) = x.opened.apply (.add m) := by
  obtain ⟨⟨directory, ledger⟩, disk⟩ := x
  unfold opened apply Folder.add Folder.messages Folder.opened
  cases ledger with
  | some l => exact .inr ⟨l, rfl, rfl⟩
  | none =>
    simp only
    generalize Folder.load directory disk = loaded
    obtain ⟨result, d, notices⟩ := loaded
    cases result with
    | error e => exact .inl ⟨rfl, rfl⟩
    | ok l => exact .inr ⟨l, rfl, rfl⟩

theorem Sound.seated (h : x.Sound) (hledger : x.opened.folder.ledger = some l) :
    ∃ directory, x.opened.Seated l directory := by
  obtain ⟨directory, hhouses⟩ := h.opened.houses l hledger
  exact ⟨directory, hledger, hhouses⟩

theorem numbered_of_opened (h : x.opened.Seated l directory)
    (horderly : x.opened.disk.Orderly x.folder.directory directory l.sequence) : x.Numbered := by
  intro l' directory' h'
  obtain rfl := Option.some.inj (h.ledger.symm.trans h'.ledger)
  rwa [← h.houses.unique h'.houses]

theorem numbered_of_seated (h : x.Seated l directory)
    (horderly : x.disk.Orderly x.folder.directory directory l.sequence) : x.Numbered := by
  have hopened : x.opened = x := opened_of_ledger h.ledger
  have hseated : x.opened.Seated l directory := by rwa [hopened]
  refine numbered_of_opened hseated ?_
  rwa [hopened]

/-- Numbers in order stay so until numbering starts again. -/
theorem numbered_apply (hx : x.Sound) (h : x.Numbered) (operation : Operation) :
    (x.apply operation).Starting ∨ (x.apply operation).Numbered := by
  cases operation with
  | reopen => exact .inl (.inl rfl)
  | clear => exact .inl (starting_clear x)
  | read =>
    cases hledger : x.opened.folder.ledger with
    | none => exact .inl (.inl hledger)
    | some l =>
      obtain ⟨directory, hseated⟩ := hx.seated hledger
      have horderly := h l directory hseated
      rw [← directory_opened] at horderly
      exact .inr (numbered_of_seated hseated horderly)
  | add m =>
    rcases add_opened x m with ⟨hnone, hadd⟩ | ⟨l, hledger, hadd⟩
    · rw [hadd]
      exact .inl (.inl hnone)
    · obtain ⟨directory, hseated⟩ := hx.seated hledger
      have horderly := h l directory hseated
      rw [← directory_opened] at horderly
      obtain ⟨-, l', hseated', horderly'⟩ := keeps_addAll hseated horderly [m]
      rw [hadd]
      rw [← directory_addAll _ [m]] at horderly'
      exact .inr (numbered_of_seated hseated' horderly')

theorem spares_of_numbered (hx : x.Sound) (h : x.Numbered) (operation : Operation) :
    x.Spares operation := by
  cases operation with
  | clear => exact ⟨keeps_opened x, thinned_clear x⟩
  | read => exact keeps_opened x
  | reopen => exact .refl _ _
  | add m =>
    show x.disk.Keeps x.folder.directory (x.apply (.add m)).disk
    rcases add_opened x m with ⟨-, hadd⟩ | ⟨l, hledger, hadd⟩
    · rw [hadd]
      exact keeps_opened x
    · obtain ⟨directory, hseated⟩ := hx.seated hledger
      have horderly := h l directory hseated
      rw [← directory_opened] at horderly
      have hkeeps := (keeps_addAll hseated horderly [m]).1
      rw [directory_opened] at hkeeps
      rw [hadd]
      exact (keeps_opened x).trans hkeeps

/-! ### Runs -/

theorem numbered_run (hx : x.Sound) (h : x.Numbered) {operations : List Operation}
    (hstart : ∀ before, before <+: operations → (x.run before).Starting → (x.run before).Numbered) :
    ∀ before, before <+: operations → (x.run before).Numbered := by
  induction operations generalizing x with
  | nil =>
    intro before hbefore
    rw [List.prefix_nil.mp hbefore]
    exact h
  | cons operation rest ih =>
    intro before hbefore
    cases before with
    | nil => exact h
    | cons first before =>
      obtain ⟨rfl, hrest⟩ := List.cons_prefix_cons.mp hbefore
      have hlonger {later : List Operation} (hlater : later <+: rest) :
          first :: later <+: first :: rest := List.cons_prefix_cons.mpr ⟨rfl, hlater⟩
      have hfirst : (x.apply first).Numbered := by
        rcases numbered_apply hx h first with hstarting | hnumbered
        · exact hstart [first] (hlonger List.nil_prefix) hstarting
        · exact hnumbered
      exact ih (hx.apply first) hfirst
        (fun later hlater => hstart (first :: later) (hlonger hlater)) before hrest

/-- **Message files are kept as long as the numbers are in order whenever numbering starts.** Then
no operation of a run of a new folder changes one but a clear that removes it. That the numbers of
an open folder are in order is exactly what all messages to come need to leave its message files
alone, whatever the disk refuses; and without links it means that the numbers of the message files
are behind. -/
theorem message_files_kept (x : Store) (operations : List Operation) :
    (x.folder.ledger = none → x.disk.Unslashed →
      (∀ before, before <+: operations → (x.run before).Starting → (x.run before).Numbered) →
      ∀ before operation, before ++ [operation] <+: operations →
        (x.run before).Spares operation) ∧
    ∀ l directory, x.Seated l directory →
      (x.disk.Orderly x.folder.directory directory l.sequence ↔
        ∀ refusals earlier later,
          ((x.refusing refusals).addAll earlier).disk.Keeps x.folder.directory
            ((x.refusing refusals).addAll (earlier ++ later)).disk) ∧
      (x.disk.Unlinked directory →
        (x.disk.Orderly x.folder.directory directory l.sequence ↔
          x.disk.Behind x.folder.directory directory l.sequence)) := by
  refine ⟨fun hnew hunslashed hstart before operation hbefore => ?_, fun l directory h =>
    ⟨orderly_iff h, fun hlinks => orderly_iff_behind h.houses hlinks⟩⟩
  have hsound : x.Sound := ⟨hunslashed, fun l hl => by rw [hnew] at hl; cases hl⟩
  have hnumbered : x.Numbered := hstart [] List.nil_prefix (.inl hnew)
  have hshorter : before <+: operations := (List.prefix_append before [operation]).trans hbefore
  have hbefore : (x.run before).Numbered := numbered_run hsound hnumbered hstart before hshorter
  exact spares_of_numbered (hsound.run before) hbefore operation

/-- A new folder on a directory that has entries. -/
def newFolder (entries : List (Bytes × Node)) : Store :=
  ⟨{directory := Text.encode "/mail".toList},
    entries.foldl (fun d (name, node) => d.put [Text.encode "mail".toList, name] node)
      {entries := [([Text.encode "mail".toList], .directory)]}⟩

theorem numbered_newFolder : (newFolder []).Numbered := by
  have hseated : (newFolder []).opened.Seated {} [Text.encode "mail".toList] :=
    ⟨by decide +kernel, by decide +kernel, by decide +kernel⟩
  have hentries : (newFolder []).opened.disk.entries =
      [([Text.encode "mail".toList], .directory)] := by decide +kernel
  refine numbered_of_opened hseated (HoldsOwn.orderly (fun entry hentry name hname => ?_) ?_)
  · rw [hentries] at hentry
    obtain rfl := List.mem_singleton.mp hentry
    cases hname
  · exact hseated.houses

/-- The directory of a new folder, once one message has been added. -/
theorem seated_newFolder_add :
    ((newFolder []).run [.add {}]).Seated ⟨1, [{}]⟩ [Text.encode "mail".toList] ∧
      ((newFolder []).run [.add {}]).disk.HoldsOwn [Text.encode "mail".toList] 1 := by
  have hentries : ((newFolder []).run [.add {}]).disk.entries =
      [([Text.encode "mail".toList] ++ [Text.encode (Message.fileName {} 1)],
          .file (Text.encode (Message.text {}))),
        ([Text.encode "mail".toList], .directory)] := by decide +kernel
  refine ⟨⟨by decide +kernel, by decide +kernel, by decide +kernel⟩, ?_⟩
  intro entry hentry name hname
  rw [hentries] at hentry
  rcases List.mem_cons.mp hentry with rfl | hentry
  · exact ⟨{}, 1, _, (List.singleton_inj.mp (List.append_cancel_left hname)).symm, .refl, rfl⟩
  · obtain rfl := List.mem_singleton.mp hentry
    cases hname

theorem numbered_newFolder_reopen : ((newFolder []).run [.add {}, .reopen]).Numbered := by
  obtain ⟨hseated, hown⟩ := seated_newFolder_add
  have hsame : Same _ ((newFolder []).run [.add {}, .reopen]).opened.disk :=
    same_opened hseated.houses
  have hagain : ((newFolder []).run [.add {}, .reopen]).opened.Seated ⟨1, [{}]⟩
      [Text.encode "mail".toList] :=
    ⟨by decide +kernel, hseated.houses.steady hsame.steady⟩
  exact numbered_of_opened hagain ((hown.orderly hseated.houses).same hsame)

/-- An empty directory, and the same directory with the one message that was added to it. -/
theorem message_files_kept_reopened :
    (∀ before operation, before ++ [operation] <+: [.add {}, .reopen, .add {}] →
      ((newFolder []).run before).Spares operation) ∧
    (∀ refusals earlier later,
      ((((newFolder []).run [.add {}]).refusing refusals).addAll earlier).disk.Keeps
        (newFolder []).folder.directory
        ((((newFolder []).run [.add {}]).refusing refusals).addAll (earlier ++ later)).disk) ∧
    ((newFolder []).run [.add {}]).disk.Behind (newFolder []).folder.directory
      [Text.encode "mail".toList] 1 := by
  obtain ⟨hrun, -⟩ := message_files_kept (newFolder []) [.add {}, .reopen, .add {}]
  obtain ⟨-, hexact⟩ := message_files_kept ((newFolder []).run [.add {}]) []
  obtain ⟨hseated, hown⟩ := seated_newFolder_add
  obtain ⟨hkeeps, hbehind⟩ := hexact _ _ hseated
  have horderly := hown.orderly hseated.houses
  have hunslashed : (newFolder []).disk.Unslashed := by
    refine unslashed_of_entries fun entry hentry => ?_
    obtain rfl := List.mem_singleton.mp hentry
    exact fun name hname => List.mem_singleton.mp hname ▸ (by decide)
  refine ⟨hrun rfl hunslashed fun before hbefore hstarting => ?_, hkeeps.mp horderly,
    (hbehind hown.unlinked).mp horderly⟩
  -- numbering starts at the beginning and again after the second operation
  cases before with
  | nil => exact numbered_newFolder
  | cons first before =>
    obtain ⟨rfl, hsecond⟩ := List.cons_prefix_cons.mp hbefore
    cases before with
    | nil =>
      unfold Starting at hstarting
      exact absurd hstarting (by decide +kernel)
    | cons second before =>
      obtain ⟨rfl, hthird⟩ := List.cons_prefix_cons.mp hsecond
      cases before with
      | nil => exact numbered_newFolder_reopen
      | cons third before =>
        obtain ⟨rfl, hend⟩ := List.cons_prefix_cons.mp hthird
        obtain rfl := List.prefix_nil.mp hend
        unfold Starting at hstarting
        exact absurd hstarting (by decide +kernel)

/-- The first message has no place, the second is in the only message file, and the third comes
after the folder has been opened again. -/
theorem message_file_overwritten :
    let sent (name : String) : Message := Message.addField {} "From".toList name.toList
    let x := (newFolder [(Text.encode "1_.eml".toList, .directory)]).run
      [.add (sent "first"), .add (sent "second"), .reopen]
    let place : Place := [Text.encode "mail".toList, Text.encode "2_.eml".toList]
    x.disk.node? place = some (.file (Text.encode (sent "second").text)) ∧
      (x.apply (.add (sent "third"))).disk.node? place =
        some (.file (Text.encode (sent "third").text)) ∧
      ¬ x.Spares (.add (sent "third")) := by
  intro sent x place
  have hbefore : x.disk.node? place = some (.file (Text.encode (sent "second").text)) := by
    decide +kernel
  have hafter : (x.apply (.add (sent "third"))).disk.node? place =
      some (.file (Text.encode (sent "third").text)) := by decide +kernel
  refine ⟨hbefore, hafter, fun hspares => ?_⟩
  have hhouses : x.disk.Houses x.folder.directory [Text.encode "mail".toList] :=
    ⟨by decide +kernel, by decide +kernel⟩
  have hplace : IsMessagePlace [Text.encode "mail".toList] place :=
    ⟨Text.encode "2_.eml".toList, "2_.eml".toList, rfl, Text.decode?_encode _, by decide +kernel⟩
  have hkept := (hspares _ hhouses).2 place _ hplace hbefore
  rw [hafter] at hkept
  exact absurd hkept (by decide +kernel)

end MailCapture.Store
