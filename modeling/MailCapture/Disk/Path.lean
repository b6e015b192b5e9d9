import MailCapture.Disk.Basic

/-! Paths.

The names of a path lead from one directory to the next, and symbolic links on the way are followed.
`locate` finds where a path leads, or the vacant place where its last name would be made. What lies
at the very end depends on what the path is followed for. -/
namespace MailCapture

namespace Path

def slash : UInt8 := 47

/-- The name `.`, which leads nowhere else. -/
def here : Bytes := [46]

/-- The name `..`, which leads to the directory above. -/
def above : Bytes := [46, 46]

/-- The names between the slashes of a path. -/
def parts (path : Bytes) : List Bytes := (Text.split slash path).filter (· ≠ [])

/-- The names of a path. A slash at the end asks for a directory and counts as an empty name. -/
def names (path : Bytes) : List Bytes :=
  parts path ++ if path.getLast? = some slash then [[]] else []

/-- Whether names are only the slashes at the end of a path. -/
def areSlashes (names : List Bytes) : Bool := names ≠ [] && names.all (· = [])

/-- The names of a path to be made: those that lead anywhere. -/
def steps (path : Bytes) : List Bytes := (parts path).filter (· ≠ here)

/-- Whether the last name of a path is `.`. Such a path names nothing that could be made. -/
def endsHere (path : Bytes) : Bool := (parts path).getLast? = some here

def isAbsolute (path : Bytes) : Bool := path.head? = some slash

/-- The path of a name in a directory. -/
def inside (directory name : Bytes) : Bytes :=
  if directory.getLast? = some slash then directory ++ name else directory ++ slash :: name

/-- Bytes in a name. -/
def maxName : Nat := 255

/-- Bytes in a path. -/
def maxPath : Nat := 4095

/-- What no path may be. -/
def objection? (path : Bytes) : Option OsError :=
  if 0 ∈ path then some .nulInName
  else if path = [] then some .notFound
  else if path.length > maxPath then some .nameTooLong
  else none

end Path

namespace Disk

/-- What a path is followed for. -/
inductive Aim where
  /-- What its last name stands for, be it a link. -/
  | entry
  /-- What it leads to. A link at the end is followed too. -/
  | content
  /-- A file to write to, which is made if it is missing. -/
  | output
deriving DecidableEq, Repr

/-- Where a path leads. -/
inductive Spot where
  | taken (place : Place)
  /-- Nothing is there, but the directory it would be in exists. -/
  | vacant (place : Place)
deriving DecidableEq, Repr

/-- How far names lead without following a link. -/
inductive Walk where
  | arrived (spot : Spot)
  /-- A link: go on along other names from another directory. -/
  | detour (here : Place) (names : List Bytes)
deriving DecidableEq, Repr

/-- Walks along names from a directory. An output may not end in a slash, whatever is there. -/
def walk (d : Disk) (aim : Aim) (here : Place) : List Bytes → Except OsError Walk
  | [] => .ok (.arrived (.taken here))
  | name :: rest =>
    if name = [] ∨ name = Path.here then walk d aim here rest
    else if name = Path.above then walk d aim here.dropLast rest
    else if aim = .output ∧ Path.areSlashes rest then .error .isDirectory
    else if name.length > Path.maxName then .error .nameTooLong
    else
      let place := here ++ [name]
      match d.node? place with
      | none => if rest = [] then .ok (.arrived (.vacant place)) else .error .notFound
      | some .directory => walk d aim place rest
      | some (.file _) => if rest = [] then .ok (.arrived (.taken place)) else .error .notDirectory
      | some (.link target) =>
        if rest = [] ∧ aim = .entry then .ok (.arrived (.taken place))
        else .ok (.detour (if Path.isAbsolute target then [] else here) (Path.names target ++ rest))

/-- Walks, taking fewer than `detours` detours. -/
def walkAround (d : Disk) (aim : Aim) :
    (detours : Nat) → Place → List Bytes → Except OsError Spot
  | 0, _, _ => .error .tooManyLinks
  | detours + 1, here, names =>
    match d.walk aim here names with
    | .error e => .error e
    | .ok (.arrived spot) => .ok spot
    | .ok (.detour here names) => walkAround d aim detours here names

/-- Where names lead from the root, by way of at most forty links. -/
def find (d : Disk) (aim : Aim) (names : List Bytes) : Except OsError Spot :=
  d.walkAround aim 41 [] names

def locate (d : Disk) (aim : Aim) (path : Bytes) : Except OsError Spot :=
  match Path.objection? path with
  | some e => .error e
  | none => d.find aim (Path.names path)

end Disk
end MailCapture
