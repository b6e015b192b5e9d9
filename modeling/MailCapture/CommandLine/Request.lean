import MailCapture.CommandLine.Complaint
import MailCapture.Server.Options
import MailCapture.Text.Likeness
import MailCapture.Text.Numeral

/-! What a command line asks for.

Arguments are taken from left to right. A value is held until the next argument and only then looked
at, so an argument that is not known at all is complained of before a bad value in front of it. -/
namespace MailCapture.CommandLine

inductive Request where
  | serve (options : Server.Options)
  | version
  | help
deriving DecidableEq, Repr

/-! ### Values -/

/-- The largest number of sixty-four bits. -/
def maxWord : Nat := 0xffffffffffffffff

def readCount (p : Param) (value : Text) : Except Complaint Nat :=
  (Text.readNat maxWord value).mapError fun e => .invalidValue p value e.text

def readPort (value : Text) : Except Complaint Nat :=
  match Text.readInt value with
  | .error e => .error (.invalidValue .port value e.text)
  | .ok n =>
    if 0 ≤ n ∧ n ≤ 65535 then .ok n.toNat
    else .error (.invalidValue .port value (Text.integer n ++ " is not in 0..=65535".toList))

def booleans : List Text := ["true".toList, "false".toList]

/-- The choices of a parameter that has only a few. -/
def choices (p : Param) : List Text := if p = .threaded then booleans else []

def readChoice (p : Param) (value : Text) : Except Complaint Bool :=
  if value = "true".toList then .ok true
  else if value = "false".toList then .ok false
  else if value = [] then .error (.missingValue p booleans)
  else .error (.notAChoice p value booleans (Text.mostLike value id booleans))

/-- Options with one parameter set. -/
def set (o : Server.Options) (p : Param) (value : Text) : Except Complaint Server.Options :=
  match p with
  | .port => (readPort value).map fun n => {o with port := n}
  | .bind =>
    match Address.read value with
    | some address => .ok {o with host := address}
    | none => .error (.invalidValue p value "invalid IP address syntax".toList)
  | .hostname => .ok {o with hostname := value}
  | .mailStore =>
    match Mailbox.Kind.ofName value with
    | .ok kind => .ok {o with kind}
    | .error f => .error (.invalidValue p value f.text)
  | .threaded => (readChoice p value).map fun b => {o with threaded := b}
  | .threads => (readCount p value).map fun n => {o with threads := n}
  | .capacity => (readCount p value).map fun n => {o with capacity := n}
  | .emlDir =>
    if value = [] then .error (.missingValue p [])
    else .ok {o with directory := Text.encode value}
  | .waitInResponse => (readCount p value).map fun n => {o with replyDelay := n}
  | .readTimeout => (readCount p value).map fun n => {o with readTimeout := n * 1000}
  | .maxMessageSize => (readCount p value).map fun n => {o with sizeLimit := n}

/-! ### Arguments -/

/-- How far a command line has been read. -/
structure Reading where
  options : Server.Options := {}
  /-- The parameters given so far. -/
  given : List Param := []
  /-- A parameter not looked at yet, with its value once there is one. -/
  held : Option (Param × Option Text) := none
  portTaken : Bool := false
  /-- Whether every argument is a value from here on. -/
  onlyValues : Bool := false

namespace Reading

/-- Gives a parameter its value. -/
def give (r : Reading) (p : Param) (value : Text) : Except Complaint Reading :=
  if p ∈ r.given then .error (.repeated p)
  else (set r.options p value).map fun options => {r with options, given := r.given ++ [p]}

/-- Looks at what has been held back. -/
def settle (r : Reading) : Except Complaint Reading :=
  match r.held with
  | none => .ok r
  | some (p, none) => .error (.missingValue p (choices p))
  | some (p, some value) => {r with held := none}.give p value

/-- What the usage line of a complaint counts as used, in order of first use. A value that has not
been looked at counts, good or bad, and takes the parameter off the list if it is the second. -/
def used (r : Reading) : List Named :=
  let params := match r.held with
    | some (p, some _) =>
      if p ∈ r.given then r.given.filter (· ≠ p) else r.given ++ [p]
    | _ => r.given
  params.map .param

/-- The complaint about an argument with a name that is not known. -/
def unknown (r : Reading) (name : Text) : Complaint :=
  let complain (tip : Tip) (usage : List Named) :=
    Complaint.unexpected ("--".toList ++ name) (some tip) (.used usage)
  match Text.mostLike name Named.name Named.all with
  | none => complain .asValue r.used
  | some n => complain (.similar n) (if n ∈ r.used then r.used else r.used ++ [n])

/-- A question. It is answered at once. -/
def ask (r : Reading) (request : Request) : Except Complaint (Reading ⊕ Request) :=
  r.settle.map fun _ => .inr request

/-- The complaint about a value for a question. -/
def surplus (r : Reading) (n : Named) (value : Text) : Complaint :=
  .surplusValue n value (if r.given = [] then .used [n] else .withAny n)

def namedArgument (r : Reading) (name : Text) (value : Option Text) :
    Except Complaint (Reading ⊕ Request) :=
  match Named.all.find? fun n => n.name = name, value with
  | none, _ => .error (r.unknown name)
  | some (.param p), some value => r.settle.bind fun r => (r.give p value).map .inl
  | some (.param p), none => r.settle.map fun r => .inl {r with held := some (p, none)}
  | some .help, none => r.ask .help
  | some .version, none => r.ask .version
  | some n, some value => .error (r.surplus n value)

/-- An argument of a dash and a letter. -/
def letter (r : Reading) (c : Char) : Except Complaint (Reading ⊕ Request) :=
  if c = 'h' then r.ask .help
  else if c = 'V' then r.ask .version
  else .error (.unexpected ['-', c] (some .asValue) (.used []))

/-- A value that no name came before. Only the port is given like that. -/
def positional (r : Reading) (argument : Text) : Except Complaint (Reading ⊕ Request) :=
  if r.portTaken then .error (.unexpected argument none (.used []))
  else r.settle.map fun r => .inl {r with held := some (.port, some argument), portTaken := true}

def value (r : Reading) (argument : Text) : Except Complaint (Reading ⊕ Request) :=
  match r.held with
  | some (p, none) => .ok (.inl {r with held := some (p, some argument)})
  | _ => r.positional argument

def argument (r : Reading) (argument : Text) : Except Complaint (Reading ⊕ Request) :=
  if r.onlyValues then r.positional argument
  else match argument with
    | ['-', '-'] => .ok (.inl {r with onlyValues := true})
    | '-' :: '-' :: rest =>
      match Text.splitFirst (· = '=') rest with
      | some (name, value) => r.namedArgument name (some value)
      | none => r.namedArgument rest none
    | '-' :: c :: _ => r.letter c
    | _ => r.value argument

def arguments (r : Reading) : List Text → Except Complaint Request
  | [] => r.settle.map fun r => .serve r.options
  | a :: rest => do
    match ← r.argument a with
    | .inl r => arguments r rest
    | .inr request => return request

end Reading

/-- What the arguments of a command line ask for. -/
def parse (arguments : List Text) : Except Complaint Request := Reading.arguments {} arguments

end MailCapture.CommandLine
