import MailCapture.Proofs.Mailbox.Clearing
import MailCapture.Proofs.Mailbox.Interchange

/-! When a folder is opened.

A folder is opened by the first errand that finds its directory, or can make it. Until then every
errand fails and leaves the folder as new, so that the next one tries again. The errand that opens
it reads every message file once; from then on the folder goes by its list, whatever happens to the
disk (`opened_once`). -/
namespace MailCapture
open Disk

/-! ### Reading a directory -/

/-- The message that a file is read as by the call that comes after so many others. None if the call
is refused, no file can be reached by its path or its content is no text. -/
def Disk.messageAt? (d : Disk) (directory : Bytes) (name : Text) (calls : Nat) : Option Message :=
  if d.grants calls then
    ((d.fileAt? (Path.inside directory (Text.encode name))).bind Text.decode?).map .parse
  else none

/-- A ledger as it is read from a directory on a disk. It has the number of the message files, and
one message for each that can be read when its turn comes, after the listing and the files before
it. The disk is taken as it is before the directory is made. A path that leads nowhere then houses
no files, even if it leads to some once every directory on it is made. -/
def Disk.Gives (d : Disk) (directory : Bytes) (l : Ledger) : Prop :=
  ∃ names : List Text, names.Nodup ∧
    (∀ name, name ∈ names ↔ Message.isMessageFile name = true ∧ ∃ place content,
      d.Houses directory place ∧ d.node? (place ++ [Text.encode name]) = some (.file content)) ∧
    l.sequence = names.length ∧
    l.messages.Perm ((names.zipIdx 1).filterMap fun entry =>
      d.messageAt? directory entry.1 entry.2)

/-- Whether a directory can be opened: it is listed, or made if it is missing. -/
def Disk.opening (d : Disk) (directory : Bytes) : Except OsError Unit :=
  if d.isThere directory then (d.list directory).1.map fun _ => () else (d.createAll directory).1

namespace Folder
variable {directory : Bytes} {d now : Disk} {place : Place} {names : List Text} {l : Ledger}

theorem toOption_readMessage (content : Except OsError Bytes) :
    (readMessage content).toOption = (content.toOption.bind Text.decode?).map .parse := by
  unfold readMessage
  cases content with
  | error e => rfl
  | ok bytes =>
    dsimp only
    show _ = (Text.decode? bytes).map Message.parse
    cases Text.decode? bytes <;> rfl

theorem recover_cons (directory : Bytes) (name : Text) (rest : List Text) (d : Disk) :
    (recover directory (name :: rest) d).1 =
      (readMessage (d.read (Path.inside directory (Text.encode name))).1).toOption.toList ++
        (recover directory rest (d.read (Path.inside directory (Text.encode name))).2).1 := by
  rw [recover]
  simp only
  split
  · next hread => rw [hread]; rfl
  · next hread => rw [hread]; rfl

/-- Every file is read once, each by the call after those for the files before it. -/
theorem recover_eq {calls : Nat} (hnow : d.Same now)
    (hrefusals : now.refusals = d.refusals.drop calls) :
    (recover directory names now).1 =
      (names.zipIdx calls).filterMap fun entry => d.messageAt? directory entry.1 entry.2 := by
  induction names generalizing now calls with
  | nil => rfl
  | cons name rest ih =>
    have hread : (readMessage (now.read (Path.inside directory (Text.encode name))).1).toOption =
        d.messageAt? directory name calls := by
      rw [toOption_readMessage, toOption_read, fileAt?_same hnow, grants_of_drop hrefusals,
        messageAt?]
      split <;> rfl
    have hrest : (now.read (Path.inside directory (Text.encode name))).2.refusals =
        d.refusals.drop (calls + 1) := by
      rw [refusals_read, hrefusals, List.tail_drop]
    rw [recover_cons, hread, ih (hnow.trans (now.same_read _)) hrest, List.zipIdx_cons,
      List.filterMap_cons]
    dsimp only
    cases d.messageAt? directory name calls <;> rfl

/-! ### Opening -/

/-- A message file is read unless the call is refused, its path is too long or it holds no text. -/
theorem messageAt?_file (hunslashed : d.Unslashed) (hhouses : d.Houses directory place)
    {name : Text} (hfile : Message.isMessageFile name = true) {content : Bytes}
    (hnode : d.node? (place ++ [Text.encode name]) = some (.file content)) (calls : Nat) :
    d.messageAt? directory name calls =
      if d.grants calls = true ∧ mayName directory (Text.encode name) = true then
        (Text.decode? content).map .parse
      else none := by
  have hname : Path.IsName (Text.encode name) := isName_messageFile hunslashed hfile hnode
  have hfinal : d.Final .content (place ++ [Text.encode name]) := .inr fun target hlink => by
    cases hnode.symm.trans hlink
  rw [messageAt?, fileAt?, leads?_inside hhouses hname hfinal]
  by_cases hgranted : d.grants calls = true
  · by_cases hmay : mayName directory (Text.encode name) = true
    · rw [if_pos hgranted, if_pos hmay, if_pos ⟨hgranted, hmay⟩, Option.bind_some, hnode]
      rfl
    · rw [if_pos hgranted, if_neg hmay, if_neg fun h => hmay h.2]
      rfl
  · rw [if_neg hgranted, if_neg fun h => hgranted h.1]

/-- A directory that can be opened gives the ledger. One that was missing gives an empty one. -/
theorem gives_load (h : (load directory d).1 = .ok l) : d.Gives directory l := by
  rcases load_cases h with ⟨-, names, hfiles, rfl⟩ | ⟨hmissing, -, rfl⟩
  · obtain ⟨place, hhouses, hnames⟩ := messageFiles_ok hfiles
    have hrefusals : (messageFiles directory d).2.refusals = d.refusals.drop 1 := by
      rw [messageFiles_eq, List.drop_one]
      exact refusals_list d directory
    refine ⟨names, nodup_messageFiles hfiles, fun name => (hnames name).trans ?_, rfl, ?_⟩
    · constructor
      · rintro ⟨hname, content, hnode⟩
        exact ⟨hname, place, content, hhouses, hnode⟩
      · rintro ⟨hname, other, content, hother, hnode⟩
        obtain rfl := hhouses.unique hother
        exact ⟨hname, content, hnode⟩
    · rw [← recover_eq (same_messageFiles directory d) hrefusals]
      exact List.mergeSort_perm _ _
  · refine ⟨[], List.nodup_nil, fun name => ⟨nofun, ?_⟩, rfl, .refl _⟩
    rintro ⟨-, place, content, hhouses, -⟩
    rw [hhouses.isThere] at hmissing
    cases hmissing

-- Without an `x` the path leads nowhere, so no file is counted. Making it makes only the `x`, and
-- then the message file is found through it.
example :
    let directory := Text.encode "/x/../mail".toList
    let name := Text.encode "1_a.eml".toList
    let d := (Store.newFolder [(name, .file [120])]).disk
    (load directory d).1 = .ok {} ∧
      (load directory d).2.1.fileAt? (Path.inside directory name) = some [120] := by
  decide +kernel

theorem map_load (directory : Bytes) (d : Disk) :
    (load directory d).1.map (fun _ => ()) = d.opening directory := by
  unfold load Disk.opening messageFiles
  split
  · generalize d.list directory = listed
    obtain ⟨result, now⟩ := listed
    cases result <;> rfl
  · generalize d.createAll directory = made
    obtain ⟨result, now⟩ := made
    cases result <;> rfl

theorem load_error {e : OsError} :
    (load directory d).1 = .error e ↔ d.opening directory = .error e := by
  rw [← map_load]
  cases (load directory d).1 with
  | error e' => exact ⟨fun h => by rw [h]; rfl, fun h => congrArg _ (Except.error.inj h)⟩
  | ok l => exact ⟨nofun, nofun⟩

/-- What is done with a folder fails if it cannot be opened, and is done with its ledger if it can. -/
theorem opened_result {α : Type} (f : Folder) (d : Disk)
    (use : Ledger → Disk → Outcome Ledger α) :
    (∃ e, f.ledger = none ∧ (load f.directory d).1 = .error e ∧
      (f.opened d use).result = .error (.folder f.directory e) ∧ (f.opened d use).mailbox = f) ∨
    ∃ l now, (f.ledger = some l ∨ f.ledger = none ∧ (load f.directory d).1 = .ok l) ∧
      (f.opened d use).result = (use l now).result ∧
      (f.opened d use).mailbox = {f with ledger := some (use l now).mailbox} := by
  obtain ⟨directory, ledger⟩ := f
  unfold opened
  cases ledger with
  | some l => exact .inr ⟨l, d, .inl rfl, rfl, rfl⟩
  | none =>
    dsimp only
    generalize load directory d = loaded
    obtain ⟨result, now, notices⟩ := loaded
    cases result with
    | error e => exact .inl ⟨e, rfl, rfl, rfl, rfl⟩
    | ok l => exact .inr ⟨l, now, .inr ⟨rfl, rfl⟩, rfl, rfl⟩

end Folder

/-! ### Errands -/

/-- Why something failed, if it did. -/
def Fault.of? {α : Type} : Except Fault α → Option Fault
  | .error fault => some fault
  | .ok _ => none

/-- Whether something failed because a folder could not be opened. -/
def Fault.turnedAway : Option Fault → Bool
  | some (.folder _ _) => true
  | _ => false

/-- The ledger of a folder after an errand. -/
def Ledger.after (l : Ledger) : Mailbox.Errand → Ledger
  | .add m => ⟨l.sequence + 1, l.messages ++ [m]⟩
  | .clear => {}
  | .length | .isEmpty | .messages | .message _ => l

namespace Folder
variable {f : Folder} {d : Disk} {e : Mailbox.Errand}

/-- What comes of an errand to a folder: why it failed, if it did, and the folder afterwards. -/
inductive Answered (f : Folder) (d : Disk) (e : Mailbox.Errand) : Option Fault → Folder → Prop
  | closed (err : OsError) (unopened : f.ledger = none)
      (failed : (load f.directory d).1 = .error err) :
      Answered f d e (some (.folder f.directory err)) f
  | heard (l : Ledger) (fault : Option Fault)
      (opened : f.ledger = some l ∨ f.ledger = none ∧ (load f.directory d).1 = .ok l)
      (within : Fault.turnedAway fault = false) :
      Answered f d e fault {f with ledger := some (l.after e)}

/-- Whatever is made of the result of something done with a folder, so long as a fault stays one. -/
theorem Answered.use {α β : Type} {use : Ledger → Disk → Outcome Ledger α}
    (answer : Except Fault α → Except Fault β)
    (hfault : ∀ fault, answer (.error fault) = .error fault)
    (hafter : ∀ l now, (use l now).mailbox = l.after e)
    (hwithin : ∀ l now, Fault.turnedAway (Fault.of? (answer (use l now).result)) = false) :
    f.Answered d e (Fault.of? (answer (f.opened d use).result)) (f.opened d use).mailbox := by
  rcases opened_result f d use with
    ⟨err, hnone, hload, hresult, hmailbox⟩ | ⟨l, now, hopened, hresult, hmailbox⟩
  · rw [hresult, hmailbox, hfault]
    exact .closed err hnone hload
  · rw [hresult, hmailbox, hafter]
    exact .heard l _ hopened (hwithin l now)

theorem Answered.ask {β : Type} {question : List Message → Except Fault β}
    (he : ∀ l : Ledger, l.after e = l)
    (hwithin : ∀ listed, Fault.turnedAway (Fault.of? (question listed)) = false) :
    f.Answered d e (Fault.of? ((f.messages d).result.bind question)) (f.messages d).mailbox :=
  .use (Except.bind · question) (fun _ => rfl) (fun l _ => (he l).symm)
    fun l _ => hwithin l.messages

end Folder

namespace Mailbox

namespace Post

/-- Why an errand fails, if it does. -/
def fault? (p : Post) : Errand → Option Fault
  | .add m => Fault.of? (p.mailbox.add m p.disk).result
  | .clear => Fault.of? (p.mailbox.clear p.disk).result
  | .length => Fault.of? (p.mailbox.length p.disk).result
  | .isEmpty => Fault.of? (p.mailbox.isEmpty p.disk).result
  | .messages => Fault.of? (p.mailbox.messages p.disk).result
  | .message index => Fault.of? (p.mailbox.message index p.disk).result

theorem answered_errand (f : Folder) (d : Disk) (log : List Notice) (e : Errand) :
    ∃ g, (errand ⟨.folder f, d, log⟩ e).mailbox = .folder g ∧
      f.Answered d e (fault? ⟨.folder f, d, log⟩ e) g := by
  cases e with
  | add m =>
    refine ⟨_, rfl, Folder.Answered.use id (fun _ => rfl) (fun _ _ => rfl) fun l now => ?_⟩
    show Fault.turnedAway (Fault.of? (Except.mapError _ (Folder.writeFile _ _ m now).1)) = _
    cases (Folder.writeFile f.directory _ m now).1 <;> rfl
  | clear =>
    refine ⟨_, rfl, Folder.Answered.use id (fun _ => rfl) (fun _ now => ?_) fun _ now => ?_⟩
    · exact (Folder.clearing_done f.directory now).2
    · show Fault.turnedAway (Fault.of? (Folder.clearing f.directory now).result) = _
      rw [(Folder.clearing_done f.directory now).1]
      rfl
  | length => exact ⟨_, rfl, .ask (fun _ => rfl) fun _ => rfl⟩
  | isEmpty => exact ⟨_, rfl, .ask (fun _ => rfl) fun _ => rfl⟩
  | messages => exact ⟨_, rfl, .use id (fun _ => rfl) (fun _ _ => rfl) fun _ _ => rfl⟩
  | message index =>
    refine ⟨_, rfl, .ask (fun _ => rfl) fun listed => ?_⟩
    cases listed[index]? <;> rfl

/-- Until it is opened a folder turns errands away as often as it cannot be, and stays as it is. -/
theorem errand_unopened {p : Post} {directory : Bytes} (h : p.mailbox = .folder ⟨directory, none⟩)
    (e : Errand) :
    (∃ err, p.fault? e = some (.folder directory err) ∧
      (p.errand e).mailbox = .folder ⟨directory, none⟩) ∨
    ∃ l, p.disk.Gives directory l ∧ Fault.turnedAway (p.fault? e) = false ∧
      (p.errand e).mailbox = .folder ⟨directory, some (l.after e)⟩ := by
  obtain ⟨mailbox, disk, log⟩ := p
  obtain rfl : mailbox = _ := h
  obtain ⟨g, hmailbox, hanswered⟩ := answered_errand ⟨directory, none⟩ disk log e
  generalize fault? ⟨.folder ⟨directory, none⟩, disk, log⟩ e = fault at hanswered ⊢
  cases hanswered with
  | closed err unopened failed => exact .inl ⟨err, rfl, hmailbox⟩
  | heard l fault opened within =>
    rcases opened with hopen | ⟨-, hload⟩
    · cases hopen
    · exact .inr ⟨l, Folder.gives_load hload, within, hmailbox⟩

theorem errand_open {p : Post} {directory : Bytes} {l : Ledger}
    (h : p.mailbox = .folder ⟨directory, some l⟩) (e : Errand) :
    Fault.turnedAway (p.fault? e) = false ∧
      (p.errand e).mailbox = .folder ⟨directory, some (l.after e)⟩ := by
  obtain ⟨mailbox, disk, log⟩ := p
  obtain rfl : mailbox = _ := h
  obtain ⟨g, hmailbox, hanswered⟩ := answered_errand ⟨directory, some l⟩ disk log e
  generalize fault? ⟨.folder ⟨directory, some l⟩, disk, log⟩ e = fault at hanswered ⊢
  cases hanswered with
  | closed err unopened failed => cases unopened
  | heard l' fault opened within =>
    rcases opened with hopen | ⟨hnone, -⟩
    · obtain rfl := Option.some.inj hopen
      exact ⟨within, hmailbox⟩
    · cases hnone

end Post

/-! ### Runs -/

/-- What happens to a mailbox and its disk. -/
inductive Happening where
  | errand (e : Errand)
  /-- Someone else does something to the disk. -/
  | change (d : Disk)

namespace Post

def happen (p : Post) : Happening → Post
  | .errand e => p.errand e
  | .change d => {p with disk := d}

def happenAll (p : Post) (happenings : List Happening) : Post := happenings.foldl happen p

/-- Why the errands failed, each if it did. -/
def answers : Post → List Happening → List (Option Fault)
  | _, [] => []
  | p, .errand e :: rest => p.fault? e :: (p.errand e).answers rest
  | p, .change d :: rest => answers {p with disk := d} rest

end Post
end Mailbox

/-- The ledger of an open folder after something happened. -/
def Ledger.happen (l : Ledger) : Mailbox.Happening → Ledger
  | .errand e => l.after e
  | .change _ => l

namespace Mailbox.Post
variable {p : Post} {directory : Bytes} {l : Ledger}

/-- An open folder stays open, and goes by its list. -/
theorem happenAll_open (h : p.mailbox = .folder ⟨directory, some l⟩) (happenings : List Happening) :
    (∀ answer ∈ p.answers happenings, Fault.turnedAway answer = false) ∧
      (p.happenAll happenings).mailbox =
        .folder ⟨directory, some (happenings.foldl Ledger.happen l)⟩ := by
  induction happenings generalizing p l with
  | nil => exact ⟨nofun, h⟩
  | cons happening rest ih =>
    cases happening with
    | change d => exact ih (p := {p with disk := d}) h
    | errand e =>
      obtain ⟨hwithin, hmailbox⟩ := errand_open h e
      obtain ⟨hanswers, hafter⟩ := ih hmailbox
      exact ⟨List.forall_mem_cons.mpr ⟨hwithin, hanswers⟩, hafter⟩

/-- A new folder is opened by the first errand that is not turned away, and not again. -/
theorem happenAll_unopened (h : p.mailbox = .folder ⟨directory, none⟩)
    (happenings : List Happening) :
    (∀ answer ∈ p.answers happenings, Fault.turnedAway answer = true) ∧
        (p.happenAll happenings).mailbox = .folder ⟨directory, none⟩ ∨
      ∃ earlier e later l, happenings = earlier ++ .errand e :: later ∧
        (∀ answer ∈ p.answers earlier, Fault.turnedAway answer = true) ∧
        (p.happenAll earlier).disk.Gives directory l ∧
        (∀ answer ∈ (p.happenAll earlier).answers (.errand e :: later),
          Fault.turnedAway answer = false) ∧
        (p.happenAll happenings).mailbox =
          .folder ⟨directory, some (later.foldl Ledger.happen (l.after e))⟩ := by
  induction happenings generalizing p with
  | nil => exact .inl ⟨nofun, h⟩
  | cons happening rest ih =>
    cases happening with
    | change d =>
      rcases ih (p := {p with disk := d}) h with
        hunopened | ⟨earlier, e, later, l, rfl, hearlier, hgives, hlater, hmailbox⟩
      · exact .inl hunopened
      · exact .inr ⟨.change d :: earlier, e, later, l, rfl, hearlier, hgives, hlater, hmailbox⟩
    | errand e =>
      rcases errand_unopened h e with ⟨err, hfault, hsame⟩ | ⟨l, hgives, hwithin, hopen⟩
      · have hfirst : Fault.turnedAway (p.fault? e) = true := by
          rw [hfault]
          rfl
        rcases ih hsame with
          ⟨hanswers, hmailbox⟩ | ⟨earlier, e', later, l, rfl, hearlier, hgives, hlater, hmailbox⟩
        · exact .inl ⟨List.forall_mem_cons.mpr ⟨hfirst, hanswers⟩, hmailbox⟩
        · exact .inr ⟨.errand e :: earlier, e', later, l, rfl,
            List.forall_mem_cons.mpr ⟨hfirst, hearlier⟩, hgives, hlater, hmailbox⟩
      · obtain ⟨hanswers, hmailbox⟩ := happenAll_open hopen rest
        exact .inr ⟨[], e, rest, l, rfl, nofun, hgives,
          List.forall_mem_cons.mpr ⟨hwithin, hanswers⟩, hmailbox⟩

/-- An errand is turned away just if the folder is not open yet and cannot be opened. -/
theorem fault?_iff {f : Folder} (h : p.mailbox = .folder f) (e : Errand) (err : OsError) :
    p.fault? e = some (.folder f.directory err) ↔
      f.ledger = none ∧ p.disk.opening f.directory = .error err := by
  obtain ⟨mailbox, disk, log⟩ := p
  obtain rfl : mailbox = _ := h
  obtain ⟨g, -, hanswered⟩ := answered_errand f disk log e
  rw [← Folder.load_error]
  generalize fault? ⟨.folder f, disk, log⟩ e = fault at hanswered ⊢
  cases hanswered with
  | closed err' unopened failed =>
    constructor
    · intro hsame
      obtain ⟨-, rfl⟩ := Fault.folder.inj (Option.some.inj hsame)
      exact ⟨unopened, failed⟩
    · rintro ⟨-, hfailed⟩
      rw [Except.error.inj (failed.symm.trans hfailed)]
  | heard l fault opened within =>
    constructor
    · rintro rfl
      cases within
    · rintro ⟨hnone, hfailed⟩
      rcases opened with hopen | ⟨-, hload⟩
      · cases hopen.symm.trans hnone
      · cases hload.symm.trans hfailed

/-- **A folder is opened once.** An errand fails for the sake of the directory exactly if the folder
has not been opened and its directory can neither be listed nor, if it is missing, made; then the
folder stays as new. So whatever errands there are, and whatever else happens to the disk in between,
either all of them were turned away so far or one was the first that was not. It loaded the directory
as the disk had it then: one message for every message file that could be read, and the number of
them all. A directory that was missing then and had to be made counts as empty, even if its path
leads to message files once it is made, as `x/../mail` does when only the `x` was missing. No errand
is turned away after that, and the ledger is what the errands made of the one loaded, whatever is on
the disk. -/
theorem opened_once (directory : Bytes) (d : Disk) (log : List Notice)
    (happenings : List Happening) :
    let start : Post := ⟨.folder ⟨directory, none⟩, d, log⟩
    (∀ (p : Post) (f : Folder) (e : Errand), p.mailbox = .folder f →
      (∀ err, p.fault? e = some (.folder f.directory err) ↔
        f.ledger = none ∧ p.disk.opening f.directory = .error err) ∧
      (Fault.turnedAway (p.fault? e) = true →
        f.ledger = none ∧ (p.errand e).mailbox = .folder f)) ∧
    ((∀ answer ∈ start.answers happenings, Fault.turnedAway answer = true) ∧
        (start.happenAll happenings).mailbox = .folder ⟨directory, none⟩ ∨
      ∃ earlier e later l, happenings = earlier ++ .errand e :: later ∧
        (∀ answer ∈ start.answers earlier, Fault.turnedAway answer = true) ∧
        (start.happenAll earlier).disk.Gives directory l ∧
        (∀ answer ∈ (start.happenAll earlier).answers (.errand e :: later),
          Fault.turnedAway answer = false) ∧
        (start.happenAll happenings).mailbox =
          .folder ⟨directory, some (later.foldl Ledger.happen (l.after e))⟩) ∧
    ∀ (now : Disk) place name content, now.Unslashed → now.Houses directory place →
      Message.isMessageFile name = true →
      now.node? (place ++ [Text.encode name]) = some (.file content) →
        ∀ calls, now.messageAt? directory name calls =
          if now.grants calls = true ∧ mayName directory (Text.encode name) = true then
            (Text.decode? content).map .parse
          else none := by
  intro start
  refine ⟨fun p f e h => ⟨fault?_iff h e, fun hturned => ?_⟩, happenAll_unopened rfl happenings,
    fun now place name content hunslashed hhouses hfile hnode =>
      Folder.messageAt?_file hunslashed hhouses hfile hnode⟩
  obtain ⟨mailbox, disk, log⟩ := p
  obtain rfl : mailbox = _ := h
  obtain ⟨g, hmailbox, hanswered⟩ := answered_errand f disk log e
  generalize fault? ⟨.folder f, disk, log⟩ e = fault at hanswered hturned
  cases hanswered with
  | closed err unopened failed => exact ⟨unopened, hmailbox⟩
  | heard l fault opened within => cases hturned.symm.trans within

/-- The directory is missing and cannot be made. Then it is there with two message files, of which
one holds no text, and then it is gone again. -/
theorem opened_once_comeAndGone :
    let directory := Text.encode "/mail".toList
    let start : Post := ⟨.folder ⟨directory, none⟩, { refusals := [some .permissionDenied] }, []⟩
    let happenings : List Happening :=
      [.errand .length,
        .change (Store.newFolder [(Text.encode "7_a.eml".toList, .file [120]),
          (Text.encode "7_b.eml".toList, .file [255])]).disk,
        .errand (.message 5), .change {}, .errand .messages, .errand .clear, .errand (.add {})]
    start.answers happenings =
      [some (.folder directory .permissionDenied), some (.indexOutOfRange 5 1), none, none, none] ∧
    ∃ earlier e later l, happenings = earlier ++ .errand e :: later ∧
      (start.happenAll earlier).disk.Gives directory l ∧
      (start.happenAll happenings).mailbox =
        .folder ⟨directory, some (later.foldl Ledger.happen (l.after e))⟩ := by
  intro directory start happenings
  have hanswers : start.answers happenings = [some (.folder directory .permissionDenied),
      some (.indexOutOfRange 5 1), none, none, none] := by decide +kernel
  refine ⟨hanswers, ?_⟩
  obtain ⟨-, ⟨hturned, -⟩ | ⟨earlier, e, later, l, heq, -, hgives, -, hmailbox⟩, -⟩ :=
    opened_once directory { refusals := [some .permissionDenied] } [] happenings
  · have hheard := hturned none (by rw [hanswers]; decide)
    cases hheard
  · exact ⟨earlier, e, later, l, heq, hgives, hmailbox⟩

end Mailbox.Post
end MailCapture
