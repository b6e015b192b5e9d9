import MailCapture.Text.Basic

/-! Numerals.

A numeral is an optional sign and decimal digits, read from left to right: the first character that
is no digit, or the first digit that makes the number too large, decides what is wrong with it. -/
namespace MailCapture.Text

inductive NumeralError where
  | empty
  | invalidDigit
  | tooLarge
  | tooSmall
deriving DecidableEq, Repr

def NumeralError.text : NumeralError → Text
  | empty => "cannot parse integer from empty string".toList
  | invalidDigit => "invalid digit found in string".toList
  | tooLarge => "number too large to fit in target type".toList
  | tooSmall => "number too small to fit in target type".toList

/-- Reads digits after those that made `n`. A number past `limit` is refused with `excess`. -/
def readDigits (limit : Nat) (excess : NumeralError) : Nat → Text → Except NumeralError Nat
  | n, [] => .ok n
  | n, c :: rest =>
    if c.isDigit then
      let next := n * 10 + (c.toNat - '0'.toNat)
      if next ≤ limit then readDigits limit excess next rest else .error excess
    else .error .invalidDigit

/-- At least one digit. -/
def readUnsigned (limit : Nat) (excess : NumeralError) (t : Text) : Except NumeralError Nat :=
  if t = [] then .error .invalidDigit else readDigits limit excess 0 t

/-- A number of at most `limit`, which may have a plus sign. -/
def readNat (limit : Nat) : Text → Except NumeralError Nat
  | [] => .error .empty
  | '+' :: t => readUnsigned limit .tooLarge t
  | t => readUnsigned limit .tooLarge t

/-- A number of 64 bits with its sign. -/
def readInt : Text → Except NumeralError Int
  | [] => .error .empty
  | '-' :: t => (readUnsigned 0x8000000000000000 .tooSmall t).map fun n => -(n : Int)
  | '+' :: t => (readUnsigned 0x7fffffffffffffff .tooLarge t).map Int.ofNat
  | t => (readUnsigned 0x7fffffffffffffff .tooLarge t).map Int.ofNat

def integer : Int → Text
  | .ofNat n => decimal n
  | .negSucc n => '-' :: decimal (n + 1)

end MailCapture.Text
