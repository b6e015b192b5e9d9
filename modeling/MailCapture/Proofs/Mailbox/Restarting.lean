import MailCapture.Proofs.Mailbox.Keeping
import MailCapture.Proofs.Mailbox.Mirroring

/-! A folder over restarts.

Take a folder on a directory that is empty, or missing and empty once it has been made, and any
operations on it in which every message was written and every file to be removed was removed. At
any moment the directory mirrors the messages added since the folder was last cleared
(`Mirroring.run`), however often the folder was opened anew in between. `restarted_run` says what
that means for whoever opens it anew: the messages are there as their files read, numbering goes on
behind them, and so does the list. -/
namespace MailCapture
open Disk

/-- The directory of a path is there and empty, or it is missing, can be made, and is empty then. -/
inductive Disk.Bare (d : Disk) (path : Bytes) (place : Place) : Prop
  | empty (houses : d.Houses path place) (empty : ∀ name, d.node? (place ++ [name]) = none)
  | missing (missing : d.isThere path = false) (made : (d.willing.createAll path).1 = .ok ())
      (houses : (d.willing.createAll path).2.Houses path place)
      (empty : ∀ name, (d.willing.createAll path).2.node? (place ++ [name]) = none)

theorem Disk.Bare.same {d d' : Disk} {path : Bytes} {place : Place} (h : d.Bare path place)
    (hsame : d.Same d') : d'.Bare path place := by
  cases h with
  | empty houses empty =>
    exact .empty (houses.steady hsame.steady) fun name => (hsame _).trans (empty name)
  | missing missing made houses empty =>
    obtain ⟨hresult, hmade⟩ := sameOutcome_willing hsame path
    exact .missing ((isThere_same hsame path).trans missing) (hresult.trans made)
      (houses.steady hmade.steady) fun name => (hmade _).trans (empty name)

/-- Most missing directories are: those that would be in a directory that is there. -/
theorem Disk.bare_inside {d : Disk} {parent name : Bytes} {place : Place} (h : d.Houses parent place)
    (hname : Path.IsName name) (hmay : mayName parent name = true)
    (hdots : Path.here ∉ Path.parts parent) (hvacant : d.node? (place ++ [name]) = none)
    (hbelow : ∀ other, d.node? (place ++ [name] ++ [other]) = none) :
    d.Bare (Path.inside parent name) (place ++ [name]) := by
  obtain ⟨hmissing, hmade, hhouses⟩ := createAll_inside h hname hmay hdots hvacant
  refine .missing hmissing ?_ ?_ fun other => ?_
  · rw [hmade]
  · rw [hmade]
    exact hhouses
  · rw [hmade, node?_put_of_ne (by simp)]
    exact hbelow other

/-- A file that was to be removed and was not, for all one knows. -/
def Notice.isLeftover : Notice → Bool
  | .undeletableFile _ | .unlistableFolder _ => true
  | _ => false

/-! ### Clearing -/

/-- What clearing does to an open folder. -/
def Folder.clearing (directory : Bytes) (d : Disk) : Outcome Ledger Unit :=
  match messageFiles directory d with
  | (.error e, d) => ⟨.ok (), {}, d, [.unlistableFolder e]⟩
  | (.ok names, d) => ⟨.ok (), {}, (removeFiles directory names d).2, (removeFiles directory names d).1⟩

theorem Folder.clear_eq (f : Folder) (d : Disk) :
    f.clear d = f.opened d fun _ d => clearing f.directory d := rfl

theorem Folder.isLeftover_removeFiles {directory : Bytes} {names : List Text} {d : Disk} :
    ∀ notice ∈ (removeFiles directory names d).1, notice.isLeftover = true := by
  induction names generalizing d with
  | nil => exact nofun
  | cons name rest ih =>
    unfold removeFiles
    generalize d.remove (Path.inside directory (Text.encode name)) = removed
    obtain ⟨result, d'⟩ := removed
    cases result with
    | ok => exact ih
    | error e => exact List.forall_mem_cons.mpr ⟨rfl, ih⟩

/-- Clearing that leaves nothing over leaves an empty directory. -/
theorem Disk.Mirrors.clearing {d : Disk} {path : Bytes} {place : Place} {ms : List Message}
    (h : d.Mirrors path place ms)
    (hdone : ∀ notice ∈ (Folder.clearing path d).notices, notice.isLeftover = false) :
    (Folder.clearing path d).result = .ok () ∧ (Folder.clearing path d).mailbox = {} ∧
      (Folder.clearing path d).disk.Mirrors path place [] := by
  have hsame := Folder.same_messageFiles path d
  have hnames {names : List Text} : (Folder.messageFiles path d).1 = .ok names → _ := h.messageFiles
  unfold Folder.clearing at hdone ⊢
  generalize Folder.messageFiles path d = listed at hsame hnames hdone ⊢
  obtain ⟨result, d'⟩ := listed
  cases result with
  | error e => exact absurd (hdone _ (List.mem_singleton.mpr rfl)) (by simp [Notice.isLeftover])
  | ok names =>
    have hnone : (Folder.removeFiles path names d').1 = [] := by
      refine List.eq_nil_iff_forall_not_mem.mpr fun notice hnotice => ?_
      have hleft := Folder.isLeftover_removeFiles notice hnotice
      rw [hdone notice hnotice] at hleft
      cases hleft
    exact ⟨rfl, rfl, (h.same hsame).clear (hnames rfl) hnone⟩

namespace Store
variable {x : Store} {place : Place} {ms : List Message}

/-! ### What is asked for and done -/

/-- A message that is added is written, and files that are cleared are removed. -/
def Done (x : Store) : Operation → Prop
  | .add m => (x.folder.add m x.disk).result = .ok ()
  | .clear => ∀ notice ∈ (x.folder.clear x.disk).notices, notice.isLeftover = false
  | .read | .reopen => True

def AllDone (x : Store) : List Operation → Prop
  | [] => True
  | operation :: rest => x.Done operation ∧ (x.apply operation).AllDone rest

instance (x : Store) (operation : Operation) : Decidable (x.Done operation) :=
  match operation with
  | .add m => inferInstanceAs (Decidable ((x.folder.add m x.disk).result = .ok ()))
  | .clear => inferInstanceAs
      (Decidable (∀ notice ∈ (x.folder.clear x.disk).notices, notice.isLeftover = false))
  | .read | .reopen => inferInstanceAs (Decidable True)

instance decidableAllDone (x : Store) :
    (operations : List Operation) → Decidable (x.AllDone operations)
  | [] => inferInstanceAs (Decidable True)
  | operation :: rest =>
    have := decidableAllDone (x.apply operation) rest
    inferInstanceAs (Decidable (_ ∧ _))

/-- The messages there should be after an operation. Clearing a folder that cannot be opened clears
nothing. -/
def keeping (x : Store) (ms : List Message) : Operation → List Message
  | .add m => ms ++ [m]
  | .clear =>
    match (x.folder.clear x.disk).result with
    | .ok _ => []
    | .error _ => ms
  | .read | .reopen => ms

/-- The messages added since the last clear. -/
def keepingAll (x : Store) (ms : List Message) : List Operation → List Message
  | [] => ms
  | operation :: rest => (x.apply operation).keepingAll (x.keeping ms operation) rest

/-! ### Mirroring -/

/-- The directory of a folder mirrors some messages, and the folder numbers what it mirrors if it is
open; or the directory is still to be made. -/
inductive Mirroring (x : Store) (place : Place) : List Message → Prop
  | unmade (closed : x.folder.ledger = none)
      (missing : x.disk.isThere x.folder.directory = false)
      (bare : x.disk.Bare x.folder.directory place) : Mirroring x place []
  | made {ms : List Message} (mirrors : x.disk.Mirrors x.folder.directory place ms)
      (counted : ∀ l, x.folder.ledger = some l → l.sequence = ms.length) : Mirroring x place ms

theorem mirroring_of_bare (hclosed : x.folder.ledger = none)
    (hbare : x.disk.Bare x.folder.directory place) : x.Mirroring place [] := by
  cases hbare with
  | empty houses empty =>
    refine .made (.of_empty houses empty) fun l hl => ?_
    rw [hclosed] at hl
    cases hl
  | missing missing made houses empty =>
    exact .unmade hclosed missing (.missing missing made houses empty)

/-- Opening a missing directory makes it, unless that is refused. -/
theorem load_missing {d : Disk} {path : Bytes} (hmissing : d.isThere path = false)
    (hbare : d.Bare path place) :
    ((∃ e, (Folder.load path d).1 = .error e) ∧ d.Same (Folder.load path d).2.1) ∨
      ((Folder.load path d).1 = .ok {} ∧ (Folder.load path d).2.1.Mirrors path place []) := by
  have hnot : ¬ d.isThere path = true := by
    rw [hmissing]
    exact Bool.false_ne_true
  have hcases := d.createAll_cases path
  unfold Folder.load
  rw [if_neg hnot]
  generalize d.createAll path = outcome at hcases
  obtain ⟨result, d'⟩ := outcome
  rcases hcases with ⟨⟨e, he⟩, hsame⟩ | ⟨hresult, hsame⟩
  · obtain rfl : result = .error e := he
    exact .inl ⟨⟨e, rfl⟩, hsame⟩
  · cases hbare with
    | empty houses empty => exact absurd houses.isThere hnot
    | missing missing made houses empty =>
      obtain rfl : result = .ok () := hresult.trans made
      exact .inr ⟨rfl, (Mirrors.of_empty houses empty).same hsame⟩

/-- It is made where nothing is refused. -/
theorem load_missing_now {d : Disk} {path : Bytes} (hmissing : d.isThere path = false)
    (hbare : d.Bare path place) (hrefusals : d.refusals = []) :
    (Folder.load path d).1 = .ok {} ∧ (Folder.load path d).2.1.Mirrors path place [] := by
  refine (load_missing hmissing hbare).resolve_left ?_
  rintro ⟨⟨e, he⟩, -⟩
  cases hbare with
  | empty houses empty =>
    rw [houses.isThere] at hmissing
    cases hmissing
  | missing missing made houses empty =>
    rw [willing_of_no_refusals hrefusals] at made
    unfold Folder.load at he
    rw [if_neg (by rw [hmissing]; exact Bool.false_ne_true)] at he
    generalize d.createAll path = outcome at made he
    obtain ⟨result, d'⟩ := outcome
    obtain rfl : result = .ok () := made
    cases he

/-- Opening changes nothing in what is mirrored. -/
theorem Mirroring.opened (h : x.Mirroring place ms) :
    x.opened.Mirroring place ms ∧
      ∀ l, x.opened.folder.ledger = some l →
        x.opened.disk.Mirrors x.folder.directory place ms ∧ l.sequence = ms.length := by
  have hmade (hmirrors : x.opened.disk.Mirrors x.folder.directory place ms)
      (hcounted : ∀ l, x.opened.folder.ledger = some l → l.sequence = ms.length) : _ ∧ _ :=
    And.intro (Mirroring.made (x := x.opened) (directory_opened x ▸ hmirrors) hcounted)
      fun l hl => And.intro hmirrors (hcounted l hl)
  cases h with
  | unmade closed missing bare =>
    have hopened := opened_of_closed closed
    rcases load_missing missing bare with ⟨⟨e, he⟩, hsame⟩ | ⟨hresult, hmirrors⟩
    · have hclosed : x.opened.folder.ledger = none := by
        rw [hopened, he]
        rfl
      refine ⟨mirroring_of_bare hclosed ?_, fun l hl => ?_⟩
      · rw [hopened]
        exact bare.same hsame
      · rw [hclosed] at hl
        cases hl
    · refine hmade ?_ fun l hl => ?_
      · rw [hopened]
        exact hmirrors
      · rw [hopened, hresult] at hl
        obtain rfl := Option.some.inj hl
        rfl
  | made mirrors counted =>
    refine hmade (mirrors.same (same_opened mirrors.houses)) fun l hl => ?_
    cases hledger : x.folder.ledger with
    | some l' =>
      rw [opened_of_ledger hledger] at hl
      exact counted l hl
    | none => exact mirrors.load_ok (load_of_opened hledger hl)

/-! ### Operations -/

theorem Mirroring.add (h : x.Mirroring place ms) {m : Message} (hdone : x.Done (.add m)) :
    (x.apply (.add m)).Mirroring place (ms ++ [m]) := by
  obtain ⟨-, hopen⟩ := h.opened
  have hresult : (x.folder.add m x.disk).result = .ok () := hdone
  rcases opened_cases (o := x.folder.add m x.disk) rfl with
    ⟨-, -, -, e, he⟩ | ⟨l, hl, hfolder, hdisk, hok, -⟩
  · rw [he] at hresult
    cases hresult
  · obtain ⟨hmirrors, hcounted⟩ := hopen l hl
    rw [hok] at hresult
    simp only [writeFile_there hmirrors.houses.isThere, hcounted] at hresult hdisk hfolder
    have hwritten := hmirrors.write (m := m)
    unfold pathOf at hwritten
    generalize x.opened.disk.write _ _ = written at hresult hdisk hwritten
    obtain ⟨result, d'⟩ := written
    cases result with
    | error e => cases hresult
    | ok =>
      refine .made ?_ fun l' hl' => ?_
      · rw [directory_apply, show (x.apply (.add m)).disk = _ from hdisk]
        exact hwritten rfl
      · obtain rfl := Option.some.inj ((congrArg Folder.ledger hfolder).symm.trans hl')
        rw [List.length_append]
        rfl

/-- A clear that removed every file, or could not be begun. -/
theorem Mirroring.clear (h : x.Mirroring place ms) (hdone : x.Done .clear) :
    (x.apply .clear).Mirroring place (x.keeping ms .clear) := by
  obtain ⟨hopened, hopen⟩ := h.opened
  rcases opened_cases (x.folder.clear_eq x.disk).symm with
    ⟨-, hfolder, hdisk, e, he⟩ | ⟨l, hl, hfolder, hdisk, hok, hnotices⟩
  · have hkeeping : x.keeping ms .clear = ms := by
      simp only [keeping, he]
    have hstays : x.apply .clear = x.opened := congrArg₂ Store.mk hfolder hdisk
    rw [hkeeping, hstays]
    exact hopened
  · obtain ⟨hmirrors, -⟩ := hopen l hl
    obtain ⟨hresult, hledger, hcleared⟩ :=
      hmirrors.clearing fun notice hnotice => hdone notice (hnotices notice hnotice)
    have hkeeping : x.keeping ms .clear = [] := by
      simp only [keeping, hok, hresult]
    rw [hkeeping]
    refine .made ?_ fun l' hl' => ?_
    · rw [directory_apply, show (x.apply .clear).disk = _ from hdisk]
      exact hcleared
    · obtain rfl := Option.some.inj ((congrArg Folder.ledger hfolder).symm.trans hl')
      rw [hledger]
      rfl

/-- Whatever is done, as long as it is done. -/
theorem Mirroring.apply (h : x.Mirroring place ms) {operation : Operation}
    (hdone : x.Done operation) : (x.apply operation).Mirroring place (x.keeping ms operation) := by
  cases operation with
  | add m => exact h.add hdone
  | clear => exact h.clear hdone
  | read => exact h.opened.1
  | reopen =>
    cases h with
    | unmade closed missing bare => exact .unmade rfl missing bare
    | made mirrors counted => exact .made mirrors fun l hl => nomatch hl

theorem Mirroring.run (h : x.Mirroring place ms) {operations : List Operation}
    (hdone : x.AllDone operations) :
    (x.run operations).Mirroring place (x.keepingAll ms operations) := by
  induction operations generalizing x ms with
  | nil => exact h
  | cons operation rest ih => exact ih (h.apply hdone.1) hdone.2

/-! ### Opening anew -/

/-- What a folder lists once it has been opened. -/
theorem messages_of_opened {l : Ledger} (h : x.opened.folder.ledger = some l) :
    (x.folder.messages x.disk).result = .ok l.messages := by
  rcases opened_cases (o := x.folder.messages x.disk) rfl with
    ⟨hnone, -⟩ | ⟨l', hl', -, -, hok, -⟩
  · rw [hnone] at h
    cases h
  · obtain rfl := Option.some.inj (h.symm.trans hl')
    exact hok

/-- Opened anew on a disk that refuses nothing, a folder lists the messages as their files read and
goes on with their number. -/
theorem Mirroring.opened_now (h : x.Mirroring place ms) (hclosed : x.folder.ledger = none)
    (hrefusals : x.disk.refusals = []) :
    ∃ listed, listed.Perm (ms.map fun m => .parse m.text) ∧
      x.opened.Seated ⟨ms.length, listed⟩ place := by
  have hopened := opened_of_closed hclosed
  cases h with
  | unmade closed missing bare =>
    obtain ⟨hresult, hmirrors⟩ := load_missing_now missing bare hrefusals
    refine ⟨[], .refl [], ?_⟩
    rw [hopened, hresult]
    exact ⟨rfl, hmirrors.houses⟩
  | made mirrors counted =>
    obtain ⟨listed, hload, hlisted⟩ := mirrors.load_now hrefusals
    refine ⟨listed, hlisted, ?_⟩
    rw [hopened, hload]
    exact ⟨rfl, mirrors.houses⟩

/-- Messages added later come last, in their order. -/
theorem Seated.addAll {l : Ledger} (h : x.opened.Seated l place) (later : List Message) :
    (x.addAll later).opened.Seated ⟨l.sequence + later.length, l.messages ++ later⟩ place := by
  induction later generalizing x l with
  | nil =>
    rw [List.append_nil]
    exact h
  | cons m rest ih =>
    rcases add_opened x m with ⟨hnone, -⟩ | ⟨-, -, hadd⟩
    · rw [h.ledger] at hnone
      cases hnone
    · obtain ⟨hseated, -⟩ := h.add m
      rw [← hadd] at hseated
      have hrest := ih (opened_of_ledger hseated.ledger ▸ hseated)
      rw [List.length_cons, List.append_cons, Nat.add_comm rest.length, ← Nat.add_assoc]
      exact hrest

/-- Wherever its directory is, it holds the files of the messages and nothing else. -/
theorem Mirroring.holds (h : x.Mirroring place ms) :
    (∀ place', x.disk.Houses x.folder.directory place' →
      (x.disk.children place').Perm (Folder.files ms)) ∧
    (ms ≠ [] → ∃ place', x.disk.Houses x.folder.directory place') := by
  cases h with
  | unmade closed missing bare =>
    refine ⟨fun place' hhouses => ?_, fun hne => absurd rfl hne⟩
    rw [hhouses.isThere] at missing
    cases missing
  | made mirrors counted =>
    refine ⟨fun place' hhouses => ?_, fun _ => ⟨place, mirrors.houses⟩⟩
    obtain rfl := mirrors.houses.unique hhouses
    exact mirrors.children

theorem directory_run (x : Store) (operations : List Operation) :
    (x.run operations).folder.directory = x.folder.directory := by
  induction operations generalizing x with
  | nil => rfl
  | cons operation rest ih => exact (ih (x.apply operation)).trans (directory_apply x operation)

/-- **What lasts over restarts.** Take a folder on a directory that is empty, or is empty once it has
been made, and operations in which every message added was written and every file to be removed was
removed, whatever else the disk refused. Wherever they come to, let `ms` be the messages added since
the last clear. The directory holds the file of each of them, named for its place among them, and
nothing else. If the disk refuses nothing more, a folder opened anew lists what these files read as,
in some order, and has their number; messages added later are listed after them in their order. -/
theorem restarted_run (hclosed : x.folder.ledger = none)
    (hbare : x.disk.Bare x.folder.directory place) {operations : List Operation}
    (hdone : x.AllDone operations) :
    let y := x.run operations
    let ms := x.keepingAll [] operations
    (∀ place', y.disk.Houses x.folder.directory place' →
        (y.disk.children place').Perm (Folder.files ms)) ∧
      (ms ≠ [] → ∃ place', y.disk.Houses x.folder.directory place') ∧
      (y.disk.refusals = [] →
        let z := y.apply .reopen
        ∃ listed, listed.Perm (ms.map fun m => .parse m.text) ∧
          (z.folder.messages z.disk).result = .ok listed ∧
          ∀ later, (z.addAll later).opened.folder.ledger =
            some ⟨ms.length + later.length, listed ++ later⟩) := by
  intro y ms
  have hy : y.Mirroring place ms := (mirroring_of_bare hclosed hbare).run hdone
  obtain ⟨hholds, hthere⟩ := hy.holds
  rw [directory_run] at hholds hthere
  refine ⟨hholds, hthere, fun hrefusals => ?_⟩
  obtain ⟨listed, hlisted, hseated⟩ :=
    Mirroring.opened_now (hy.apply (show y.Done .reopen from trivial)) rfl hrefusals
  exact ⟨listed, hlisted, messages_of_opened hseated.ledger,
    fun later => (hseated.addAll later).ledger⟩

/-- A new directory, filled, cleared and filled again, with restarts in between. -/
theorem restarted_run_newDirectory :
    let x : Store := ⟨{directory := Text.encode "/mail".toList}, {}⟩
    let one := Message.addField {} "Subject".toList "one".toList
    let operations : List Operation := [.read, .add {}, .reopen, .add one, .clear, .add one, .reopen,
      .add {}, .read]
    x.disk.Bare x.folder.directory [Text.encode "mail".toList] ∧ x.AllDone operations ∧
      (∃ place, ((x.run operations).disk.children place).Perm
        [(Text.encode "1_one.eml".toList, .file (Text.encode "Subject: one\n\n\n".toList)),
          (Text.encode "2_.eml".toList, .file (Text.encode "\n\n".toList))]) := by
  intro x one operations
  have hroot : x.disk.Houses [Path.slash] [] := ⟨by decide, rfl⟩
  have hname : Path.IsName (Text.encode "mail".toList) :=
    ⟨by decide, by decide, by decide, by decide⟩
  have hbare : x.disk.Bare x.folder.directory [Text.encode "mail".toList] :=
    bare_inside hroot hname (by decide) (by decide) rfl fun _ => rfl
  have hdone : x.AllDone operations := by decide +kernel
  obtain ⟨hholds, hthere, -⟩ := restarted_run rfl hbare hdone
  have hkept : x.keepingAll [] operations = [one, {}] := by decide +kernel
  rw [hkept] at hholds hthere
  obtain ⟨place, hplace⟩ := hthere (List.cons_ne_nil _ _)
  exact ⟨hbare, hdone, place, (hholds place hplace).trans (.of_eq (by decide +kernel))⟩

/-- Where nothing is mirrored. A path that goes down into missing directories and up again is missing,
but there is something in its directory once it has been made. One that goes through a file is
missing and cannot be made. A clear that cannot list its directory removes nothing, and says so. -/
theorem unmirrored :
    let mail := Text.encode "1_.eml".toList
    let content := Text.encode "\n\n".toList
    let upAgain : Store := ⟨{directory := Text.encode "a/b/..".toList}, {}⟩
    let inFile : Store := ⟨{directory := Text.encode "f/mail".toList},
      { entries := [([Text.encode "f".toList], .file [])] }⟩
    let unlisted : Store := ⟨{directory := Text.encode "mail".toList},
      { entries := [([Text.encode "mail".toList], .directory)]
        refusals := [none, none, some .permissionDenied] }⟩
    let added := unlisted.run [.add {}]
    (upAgain.disk.isThere upAgain.folder.directory = false ∧ upAgain.AllDone [.add {}] ∧
      ((upAgain.run [.add {}]).disk.list upAgain.folder.directory).1 =
        .ok [(mail, .file content), (Text.encode "b".toList, .directory)]) ∧
    (inFile.disk.isThere inFile.folder.directory = false ∧
      (inFile.folder.messages inFile.disk).result =
        .error (.folder inFile.folder.directory .notDirectory)) ∧
    ((added.folder.clear added.disk).result = .ok () ∧
      (added.folder.clear added.disk).notices = [.unlistableFolder .permissionDenied] ∧
      ((unlisted.run [.add {}, .clear]).disk.list unlisted.folder.directory).1 =
        .ok [(mail, .file content)]) := by
  decide +kernel

end Store
end MailCapture
