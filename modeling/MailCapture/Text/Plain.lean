import MailCapture.Text.Utf8

/-! Texts without control sequences.

A terminal obeys control characters instead of showing them, and some of them, an escape above all,
start a sequence that has an end of its own. `plain` takes all of it out of a text and keeps what
can be seen: of the control characters of ASCII it leaves only those that move on
(`isVisible_of_mem_plain`), and a text without any other comes back as it was (`plain_eq_self`). -/
namespace MailCapture.Text

/-! ### Characters -/

/-- Control characters that only move on: tab, newline, form feed and carriage return. -/
def isMove (c : Char) : Bool := ['\t', '\n', '\x0c', '\r'].contains c

/-- Characters that can be seen, or that only move on. -/
def isVisible (c : Char) : Bool := isMove c || (0x20 ≤ c.toNat && c.toNat ≠ 0x7f)

/-! ### Sequences -/

/-- What kind of sequence a character stands in. -/
inductive Sequence where
  /-- Outside of all. -/
  | none
  | escape
  /-- An escape with a character that qualifies it. -/
  | qualified
  /-- A control sequence. A letter ends it. -/
  | control
  /-- A string for a device, before any character of the string. -/
  | device
  | deviceParameters
  | deviceQualified
  /-- A string for a device or for an application. -/
  | string
  /-- A string for the terminal itself, its title for one. -/
  | command
deriving DecidableEq, Repr

namespace Sequence

/-- The sequence that an escape and one more character start. -/
def start (c : Char) : Sequence :=
  if c = '[' then control
  else if c = ']' then command
  else if c = 'P' then device
  else if ['X', '^', '_'].contains c then string
  else none

/-- The sequence after one more character. Escape starts anew and two characters cancel. Beyond
ASCII only the byte `9c` matters: it ends a string. -/
def after (s : Sequence) (c : Char) : Sequence :=
  let n := c.toNat
  if n = 0x1b then escape
  else if n = 0x18 || n = 0x1a then none
  else if n < 0x20 then (if s = command ∧ n = 7 then none else s)
  else if n = 0x7f then s
  else if 0x80 ≤ n then (if s = string ∧ (encode [c]).contains 0x9c then none else s)
  else match s with
    | none | string | command => s
    | escape => if n < 0x30 then qualified else start c
    | qualified => if n < 0x30 then s else none
    | control => if n < 0x40 then s else none
    | device => if n < 0x30 then deviceQualified else if n < 0x40 then deviceParameters else string
    | deviceParameters => if n < 0x30 then deviceQualified else if n < 0x3c then s else string
    | deviceQualified => if n < 0x30 then s else string

/-- Whether a character in a sequence shows nevertheless. -/
def shows (s : Sequence) (c : Char) : Bool :=
  match s with
  | none => isVisible c
  | escape | qualified | control => isMove c
  | _ => false

end Sequence

/-! ### Plain text -/

/-- What shows of a text that goes on in a sequence. A sequence is put off by a character in it that
shows (`shown`), up to the next one that does not, and dropped by a character beyond ASCII. -/
def plainFrom (s : Sequence) (shown : Bool) : Text → Text
  | [] => []
  | c :: rest =>
    if shown && isVisible c then c :: plainFrom (if c.toNat < 0x80 then s else .none) true rest
    else if s.shows c then c :: plainFrom (s.after c) true rest
    else plainFrom (s.after c) false rest

/-- What a terminal shows of a text. -/
def plain (t : Text) : Text := plainFrom .none true t

theorem isVisible_of_isMove {c : Char} (h : isMove c = true) : isVisible c = true := by
  simp [isVisible, h]

theorem Sequence.isVisible_of_shows {s : Sequence} {c : Char} (h : s.shows c = true) :
    isVisible c = true := by
  cases s with
  | none => exact h
  | escape | qualified | control => exact isVisible_of_isMove h
  | device | deviceParameters | deviceQualified | string | command => simp [shows] at h

/-- Only visible characters are left, whatever sequence the text goes on in. -/
theorem isVisible_of_mem_plainFrom {c : Char} {s : Sequence} {shown : Bool} {t : Text}
    (h : c ∈ plainFrom s shown t) : isVisible c = true := by
  fun_induction plainFrom s shown t with
  | case1 => simp at h
  | case2 s shown d rest hd ih =>
    rcases List.mem_cons.1 h with rfl | h
    · exact (Bool.and_eq_true_iff.1 hd).2
    · exact ih h
  | case3 s shown d rest _ hd ih =>
    rcases List.mem_cons.1 h with rfl | h
    · exact Sequence.isVisible_of_shows hd
    · exact ih h
  | case4 _ _ _ _ _ _ ih => exact ih h

theorem isVisible_of_mem_plain {c : Char} {t : Text} (h : c ∈ plain t) : isVisible c = true :=
  isVisible_of_mem_plainFrom h

/-- A text that can be seen as a whole is plain already. -/
theorem plain_eq_self {t : Text} (h : ∀ c ∈ t, isVisible c = true) : plain t = t := by
  unfold plain
  induction t with
  | nil => rfl
  | cons c rest ih =>
    have hc := h c (by simp)
    have hrest := ih fun d hd => h d (by simp [hd])
    simp [plainFrom, hc, hrest]

end MailCapture.Text
