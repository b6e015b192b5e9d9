import MailCapture.Text.Basic

/-! Internet addresses as text.

Version 4 addresses are four decimal numbers, version 6 addresses eight hexadecimal ones; in the
latter a double colon stands for a run of zeros, and the last two may be given as a version 4
address. `Address.text` gives the one spelling that is preferred. -/
namespace MailCapture

inductive Address where
  | v4 (a b c d : UInt8)
  /-- Eight groups of sixteen bits. -/
  | v6 (groups : List UInt16)
deriving DecidableEq, Repr

namespace Address

def localhost : Address := v4 127 0 0 1

/-- Whether it is of version 4, be it in the form that version 6 has for those. -/
def isV4 : Address → Bool
  | v4 .. => true
  | v6 groups => groups.take 6 = [0, 0, 0, 0, 0, 0xffff]

/-- Whether it stands for all addresses of a machine. -/
def isAny : Address → Bool
  | v4 a b c d => a = 0 && b = 0 && c = 0 && d = 0
  | v6 groups => groups.all (· = 0)

/-- Whether it belongs to a group of machines or means nothing beyond one link. Only version 6 keeps
such addresses apart: they start with `ff`, or with `fe8` to `feb`. -/
def isScoped : Address → Bool
  | v4 .. => false
  | v6 groups => groups.head?.any fun group => 0xff00 ≤ group || (0xfe80 ≤ group && group < 0xfec0)

/-! ### Reading -/

/-- Collects the values of all parts, unless one has none. -/
def collect {α : Type} : List (Option α) → Option (List α)
  | [] => some []
  | none :: _ => none
  | some x :: rest => (collect rest).map (x :: ·)

/-- The number that digits stand for. -/
def ofDigits (base : Nat) (digits : List Nat) : Nat := digits.foldl (fun n d => n * base + d) 0

/-- The value of a digit or of a letter after nine, whatever its case. -/
def digit (c : Char) : Nat :=
  if c.isDigit then c.toNat - '0'.toNat else c.toLower.toNat - 'a'.toNat + 10

def isHexDigit (c : Char) : Bool := c.isDigit || ('a' ≤ c.toLower && c.toLower ≤ 'f')

/-- A number of at most 255 in one to three digits, without a leading zero. -/
def readByte (t : Text) : Option UInt8 :=
  let n := ofDigits 10 (t.map digit)
  if t ≠ [] ∧ t.length ≤ 3 ∧ t.all Char.isDigit ∧ (t.head? = some '0' → t = ['0']) ∧ n ≤ 255 then
    some (UInt8.ofNat n)
  else none

def readV4 (t : Text) : Option Address :=
  match (Text.split '.' t).map readByte with
  | [some a, some b, some c, some d] => some (v4 a b c d)
  | _ => none

/-- One to four hexadecimal digits. -/
def readGroup (t : Text) : Option UInt16 :=
  if t ≠ [] ∧ t.length ≤ 4 ∧ t.all isHexDigit then some (UInt16.ofNat (ofDigits 16 (t.map digit)))
  else none

def pair (high low : UInt8) : UInt16 := high.toUInt16 * 256 + low.toUInt16

/-- The groups of a last part, which is a version 4 address if `mixed` allows it. -/
def readLast (mixed : Bool) (t : Text) : Option (List UInt16) :=
  match readGroup t with
  | some group => some [group]
  | none =>
    match mixed, readV4 t with
    | true, some (v4 a b c d) => some [pair a b, pair c d]
    | _, _ => none

def readParts (mixed : Bool) : List Text → Option (List UInt16)
  | [] => some []
  | [last] => readLast mixed last
  | part :: rest => (readGroup part).bind fun group => (readParts mixed rest).map (group :: ·)

/-- Groups between colons; none from no text. -/
def readGroups (mixed : Bool) (t : Text) : Option (List UInt16) :=
  if t = [] then some [] else readParts mixed (Text.split ':' t)

/-- The parts before and after the first double colon. -/
def splitGap : Text → Option (Text × Text)
  | ':' :: ':' :: rest => some ([], rest)
  | c :: rest => (splitGap rest).map fun (before, after) => (c :: before, after)
  | [] => none

/-- Eight groups, or at most seven around a double colon. -/
def readV6 (t : Text) : Option Address :=
  match splitGap t with
  | none => (readGroups true t).bind fun groups =>
    if groups.length = 8 then some (v6 groups) else none
  | some (before, after) =>
    (readGroups false before).bind fun head => (readGroups true after).bind fun tail =>
      if head.length + tail.length ≤ 7 then
        some (v6 (head ++ List.replicate (8 - head.length - tail.length) 0 ++ tail))
      else none

def read (t : Text) : Option Address := (readV4 t).or (readV6 t)

/-! ### Writing -/

def v4Text (a b c d : Nat) : Text := Text.join '.' ([a, b, c, d].map Text.decimal)

def groupsText (groups : List UInt16) : Text :=
  Text.join ':' (groups.map fun group => Nat.toDigits 16 group.toNat)

/-- How many zeros a list starts with. -/
def zeros (groups : List UInt16) : Nat := (groups.takeWhile (· = 0)).length

/-- The start and length of the longest run of zeros from a position on, the first of several. -/
def longestGap : (start : Nat) → List UInt16 → Nat × Nat
  | start, [] => (start, 0)
  | start, group :: rest =>
    let run := zeros (group :: rest)
    let later := longestGap (start + 1) rest
    if later.2 ≤ run then (start, run) else later

def text : Address → Text
  | v4 a b c d => v4Text a.toNat b.toNat c.toNat d.toNat
  | v6 [0, 0, 0, 0, 0, 0xffff, x, y] =>
    "::ffff:".toList ++ v4Text (x.toNat / 256) (x.toNat % 256) (y.toNat / 256) (y.toNat % 256)
  | v6 groups =>
    let (start, length) := longestGap 0 groups
    if length ≤ 1 then groupsText groups
    else groupsText (groups.take start) ++ "::".toList ++ groupsText (groups.drop (start + length))

end Address
end MailCapture
