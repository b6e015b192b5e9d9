import MailCapture.Text.Ascii

/-! Header fields as an ordered multimap.

A field is a name with the values given for it. Names are told apart without regard to ASCII case;
a field keeps the place and the spelling of its first use, and its values keep their order. -/
namespace MailCapture

structure Field where
  name : Text
  values : List Text
deriving DecidableEq, Repr

/-- The header of a message. -/
abbrev Fields := List Field

namespace Fields

/-! ### Reading -/

/-- All values given for a name, none if the field is absent. -/
def values (name : Text) : Fields → List Text
  | [] => []
  | f :: rest => if Text.sameName f.name name then f.values else values name rest

def first? (name : Text) (fields : Fields) : Option Text := (values name fields).head?

/-- Every name with each of its values, in order. -/
def pairs (fields : Fields) : List (Text × Text) :=
  fields.flatMap fun f => f.values.map fun value => (f.name, value)

/-! ### Writing -/

/-- One more value under a name. -/
def add (name value : Text) : Fields → Fields
  | [] => [⟨name, [value]⟩]
  | f :: rest =>
    if Text.sameName f.name name then {f with values := f.values ++ [value]} :: rest
    else f :: add name value rest

/-- Text appended to the last of some values, or the first value. -/
def lengthen (value : Text) : List Text → List Text
  | [] => [value]
  | [last] => [last ++ value]
  | v :: rest => v :: lengthen value rest

/-- Text appended to the last value under a name. An absent field is created. -/
def extend (name value : Text) : Fields → Fields
  | [] => [⟨name, [value]⟩]
  | f :: rest =>
    if Text.sameName f.name name then {f with values := lengthen value f.values} :: rest
    else f :: extend name value rest

end Fields
end MailCapture
