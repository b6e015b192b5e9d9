import MailCapture.Fault

/-! A disk.

A disk holds files, directories and symbolic links, each at a place: the names that lead to it from
the root. Names are bytes and need not be text. The root is a directory and has no entry. A disk may
also refuse calls for reasons of its own; `refusals` says which of the next ones, and why. -/
namespace MailCapture

/-- The names from the root down. -/
abbrev Place := List Bytes

inductive Node where
  | file (content : Bytes)
  | directory
  | link (target : Bytes)
deriving DecidableEq, Repr

structure Disk where
  entries : List (Place × Node) := []
  /-- What becomes of the next calls: `some e` is refused with `e`. Past the end none is refused. -/
  refusals : List (Option OsError) := []
  /-- No place has two entries. -/
  distinct : (entries.map Prod.fst).Nodup := by simp
deriving DecidableEq, Repr

namespace Disk

/-! ### Entries -/

def node? (d : Disk) (place : Place) : Option Node :=
  if place = [] then some .directory else d.entries.lookup place

/-- Keeps only some entries. -/
def keep (d : Disk) (p : Place × Node → Bool) : Disk :=
  { d with
    entries := d.entries.filter p
    distinct := d.distinct.sublist (List.filter_sublist.map Prod.fst) }

def erase (d : Disk) (place : Place) : Disk := d.keep fun entry => entry.1 ≠ place

def put (d : Disk) (place : Place) (node : Node) : Disk :=
  { d with
    entries := (place, node) :: (d.erase place).entries
    distinct := by
      refine List.nodup_cons.2 ⟨fun h => ?_, (d.erase place).distinct⟩
      simp [erase, keep] at h }

/-- The names directly under a place, with what they stand for. -/
def children (d : Disk) (place : Place) : List (Bytes × Node) :=
  d.entries.filterMap fun (full, node) =>
    match full.getLast? with
    | some name => if full.dropLast = place then some (name, node) else none
    | none => none

/-- A call that the disk may refuse. A refused call does nothing. -/
def attempt {α : Type} (d : Disk) (call : Disk → Except OsError α × Disk) :
    Except OsError α × Disk :=
  match d.refusals with
  | [] => call d
  | none :: rest => call {d with refusals := rest}
  | some e :: rest => (.error e, {d with refusals := rest})

@[simp] theorem node?_root (d : Disk) : d.node? [] = some .directory := by simp [node?]

theorem lookup_filter_ne {place other : Place} (h : other ≠ place) (entries : List (Place × Node)) :
    (entries.filter fun entry => entry.1 ≠ place).lookup other = entries.lookup other := by
  induction entries with
  | nil => rfl
  | cons entry rest ih =>
    obtain ⟨p, node⟩ := entry
    by_cases hp : p = place
    · have : (other == p) = false := by simp [hp, h]
      simp only [ne_eq, hp, not_true_eq_false, decide_false, Bool.false_eq_true, not_false_eq_true,
        List.filter_cons_of_neg]
      rw [List.lookup_cons, ← hp, this]
      simpa [hp] using ih
    · simp only [ne_eq, hp, not_false_eq_true, decide_true, List.filter_cons_of_pos]
      rw [List.lookup_cons, List.lookup_cons]
      cases other == p
      · simpa using ih
      · rfl

theorem node?_put_self {place : Place} (h : place ≠ []) (d : Disk) (node : Node) :
    (d.put place node).node? place = some node := by
  simp [node?, put, h]

theorem node?_put_of_ne {place other : Place} (h : other ≠ place) (d : Disk) (node : Node) :
    (d.put place node).node? other = d.node? other := by
  by_cases ho : other = []
  · simp [ho]
  · have : (other == place) = false := by simp [h]
    simp only [node?, ho, if_false, put, List.lookup_cons, this]
    exact lookup_filter_ne h d.entries

theorem node?_erase_of_ne {place other : Place} (h : other ≠ place) (d : Disk) :
    (d.erase place).node? other = d.node? other := by
  by_cases ho : other = []
  · simp [ho]
  · simp only [node?, ho, if_false, erase]
    exact lookup_filter_ne h d.entries

end Disk
end MailCapture
