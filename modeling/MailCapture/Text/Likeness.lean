import MailCapture.Text.Basic

/-! How alike two words are.

Characters of two words match if they are equal and not too far apart, each used once. The likeness
is the mean of three shares: of either word the share that matches, and of the matches the share in
the same order, where two in exchanged places count as one. The shares are rounded, each and their
mean, so a mean of exactly seven tenths can come out above or below. -/
namespace MailCapture.Text

/-- Takes the first character equal to `c` among the `window` characters after the first `skip`,
where `none` stands for one already taken. -/
def takeMatch (c : Char) : (skip window : Nat) → List (Option Char) → Option (List (Option Char))
  | _, 0, _ | _, _, [] => none
  | skip + 1, window, d :: rest => (takeMatch c skip window rest).map (d :: ·)
  | 0, window + 1, d :: rest =>
    if d = some c then some (none :: rest) else (takeMatch c 0 window rest).map (d :: ·)

/-- Matches the characters of one word, from position `i` on, in another. Gives those that matched,
in order, and what was left of the other word. -/
def matchFrom (range i : Nat) : Text → List (Option Char) → Text × List (Option Char)
  | [], other => ([], other)
  | c :: rest, other =>
    let skip := i - range
    match takeMatch c skip (i + range + 1 - skip) other with
    | none => matchFrom range (i + 1) rest other
    | some other =>
      let (matched, other) := matchFrom range (i + 1) rest other
      (c :: matched, other)

/-- The characters of a word that have been taken. -/
def taken : Text → List (Option Char) → Text
  | c :: rest, none :: others => c :: taken rest others
  | _ :: rest, some _ :: others => taken rest others
  | _, _ => []

/-- How alike two words are, from 0 to 1. -/
def likeness (a b : Text) : Float :=
  let range := max a.length b.length / 2 - 1
  let (matched, left) := matchFrom range 0 a (b.map some)
  let m := matched.length
  if m = 0 then (if a = [] ∧ b = [] then 1.0 else 0.0)
  else
    let swapped := ((matched.zip (taken b left)).filter fun (x, y) => x ≠ y).length / 2
    let share (part whole : Nat) : Float := part.toFloat / whole.toFloat
    (share m a.length + share m b.length + share (m - swapped) m) / 3.0

/-- What has the name most like a word, if it is more than seven tenths like it. Of several the
last. -/
def mostLike {α : Type} (word : Text) (name : α → Text) (candidates : List α) : Option α :=
  let step (best : Option (α × Float)) (other : α) : Option (α × Float) :=
    let score := likeness word (name other)
    if 0.7 < score ∧ (best.all fun (_, top) => top ≤ score) then some (other, score) else best
  (candidates.foldl step none).map (·.1)

end MailCapture.Text
