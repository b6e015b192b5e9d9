import MailCapture.Disk.Path

/-! What a disk can be asked.

Each call gives its result and the disk afterwards, which is the disk before if the call failed;
only `createAll` may leave something behind, the directories it had made by then. -/
namespace MailCapture.Disk

/-! ### Looking -/

/-- Whether a path leads anywhere. A path that cannot be followed does not. -/
def isThere (d : Disk) (path : Bytes) : Bool :=
  match d.locate .content path with
  | .ok (.taken _) => true
  | _ => false

/-- The entries of a directory, by name. -/
def list (d : Disk) (path : Bytes) : Except OsError (List (Bytes × Node)) × Disk :=
  d.attempt fun d =>
    let result := match d.locate .content path with
      | .error e => .error e
      | .ok (.vacant _) => .error .notFound
      | .ok (.taken place) =>
        if d.node? place = some .directory then .ok (d.children place) else .error .notDirectory
    (result, d)

/-- The content of a file. -/
def read (d : Disk) (path : Bytes) : Except OsError Bytes × Disk :=
  d.attempt fun d =>
    let result := match d.locate .content path with
      | .error e => .error e
      | .ok (.vacant _) => .error .notFound
      | .ok (.taken place) =>
        match d.node? place with
        | some (.file content) => .ok content
        | _ => .error .isDirectory
    (result, d)

/-! ### Writing -/

/-- Makes a file or replaces its content. -/
def write (d : Disk) (path : Bytes) (content : Bytes) : Except OsError Unit × Disk :=
  d.attempt fun d =>
    match d.locate .output path with
    | .error e => (.error e, d)
    | .ok (.vacant place) => (.ok (), d.put place (.file content))
    | .ok (.taken place) =>
      match d.node? place with
      | some (.file _) => (.ok (), d.put place (.file content))
      | _ => (.error .isDirectory, d)

/-- Removes a file or a link. -/
def remove (d : Disk) (path : Bytes) : Except OsError Unit × Disk :=
  d.attempt fun d =>
    match d.locate .entry path with
    | .error e => (.error e, d)
    | .ok (.vacant _) => (.error .notFound, d)
    | .ok (.taken place) =>
      if d.node? place = some .directory then (.error .isDirectory, d) else (.ok (), d.erase place)

/-- Removes whatever a path names. A directory loses all it holds first; it goes itself only if the
path still leads to it then, and by a name of its own. -/
def removeAll (d : Disk) (path : Bytes) : Except OsError Unit × Disk :=
  d.attempt fun d =>
    match d.locate .entry path with
    | .error e => (.error e, d)
    | .ok (.vacant _) => (.error .notFound, d)
    | .ok (.taken place) =>
      let d := d.keep fun entry => entry.1 = place ∨ !place.isPrefixOf entry.1
      if Path.endsHere path then (.error .invalidArgument, d)
      else match d.find .entry (Path.parts path) with
        | .error e => (.error e, d)
        | .ok (.vacant _) => (.error .notFound, d)
        | .ok (.taken other) =>
          if other = place then (.ok (), d.erase place) else (.error .notDirectory, d)

def makeLink (d : Disk) (path target : Bytes) : Except OsError Unit × Disk :=
  d.attempt fun d =>
    match Path.objection? target, d.locate .entry path with
    | some e, _ | none, .error e => (.error e, d)
    | none, .ok (.taken _) => (.error .alreadyExists, d)
    | none, .ok (.vacant place) => (.ok (), d.put place (.link target))

/-! ### Making directories -/

/-- One directory, in a directory that exists. -/
def make (d : Disk) (names : List Bytes) : Except OsError Disk :=
  match d.find .entry names with
  | .error e => .error e
  | .ok (.taken _) => .error .alreadyExists
  | .ok (.vacant place) => .ok (d.put place .directory)

def isDirectory (d : Disk) (names : List Bytes) : Bool :=
  match d.find .content names with
  | .ok (.taken place) => d.node? place = some .directory
  | _ => false

/-- What is left of a failure to make a directory that is there already. -/
def settle (d : Disk) (names : List Bytes) (e : OsError) : Except OsError Unit :=
  if d.isDirectory names then .ok () else .error e

/-- Makes a directory. If one above it is missing, those are made first. -/
def makeBelow (d : Disk) (names : List Bytes) (makeAbove : Disk → Except OsError Unit × Disk) :
    Except OsError Unit × Disk :=
  match d.make names with
  | .ok d => (.ok (), d)
  | .error .notFound =>
    match makeAbove d with
    | (.error e, d) => (.error e, d)
    | (.ok (), d) =>
      match d.make names with
      | .ok d => (.ok (), d)
      | .error e => (d.settle names e, d)
  | .error e => (d.settle names e, d)

/-- Makes a directory, given by its names from the last to the first, and those above it. -/
def makeAll : (names : List Bytes) → Disk → Except OsError Unit × Disk
  | [], d => (.ok (), d)
  | name :: above, d => d.makeBelow (name :: above).reverse (makeAll above)

/-- Makes a directory and those above it. One that exists is fine. -/
def createAll (d : Disk) (path : Bytes) : Except OsError Unit × Disk :=
  d.attempt fun d =>
    match Path.objection? path with
    | some e => (.error e, d)
    | none =>
      let names := Path.steps path
      if Path.endsHere path then d.makeBelow (names ++ [Path.here]) (makeAll names.reverse.tail)
      else makeAll names.reverse d

end MailCapture.Disk
