/-! Texts as lists of characters.

Everything the dialogue and the message files do to text is cutting it at a character and putting
it back together. `splitFirst` cuts once, `split` cuts everywhere and `join` is its inverse
(`join_split`, `split_join`). Paths are cut in the same way at a byte. -/
namespace MailCapture

/-- A text is the list of its characters. -/
abbrev Text := List Char

namespace Text

/-! ### Cutting at a character -/

/-- The parts before and after the first character that `p` holds of; that character is dropped. -/
def splitFirst (p : Char → Bool) : Text → Option (Text × Text)
  | [] => none
  | c :: rest =>
    if p c then some ([], rest)
    else (splitFirst p rest).map fun (before, after) => (c :: before, after)

theorem splitFirst_eq_none {p : Char → Bool} {t : Text} :
    splitFirst p t = none ↔ ∀ c ∈ t, p c = false := by
  induction t with
  | nil => simp [splitFirst]
  | cons c rest ih => by_cases h : p c <;> simp [splitFirst, h, ih]

/-- Nothing is lost at the cut, and it is the first one possible. -/
theorem splitFirst_eq_some {p : Char → Bool} {t before after : Text}
    (h : splitFirst p t = some (before, after)) :
    ∃ c, p c = true ∧ t = before ++ c :: after ∧ ∀ x ∈ before, p x = false := by
  induction t generalizing before after with
  | nil => simp [splitFirst] at h
  | cons c rest ih =>
    by_cases hc : p c
    · simp only [splitFirst, hc, if_true, Option.some.injEq, Prod.mk.injEq] at h
      obtain ⟨rfl, rfl⟩ := h
      exact ⟨c, hc, rfl, by simp⟩
    · simp only [splitFirst, hc, Bool.false_eq_true, if_false, Option.map_eq_some_iff] at h
      obtain ⟨⟨before', after'⟩, hrest, heq⟩ := h
      obtain ⟨rfl, rfl⟩ := Prod.mk.inj heq
      obtain ⟨d, hd, ht, hall⟩ := ih hrest
      refine ⟨d, hd, by simp [ht], ?_⟩
      simpa [hc] using hall

theorem splitFirst_append {p : Char → Bool} {before : Text} {c : Char} (after : Text)
    (hbefore : ∀ x ∈ before, p x = false) (hc : p c = true) :
    splitFirst p (before ++ c :: after) = some (before, after) := by
  induction before with
  | nil => simp [splitFirst, hc]
  | cons d rest ih =>
    have hd : p d = false := hbefore d (by simp)
    simp [splitFirst, hd, ih fun x hx => hbefore x (by simp [hx])]

/-! ### Cutting everywhere -/

section Everywhere
variable {α : Type} [DecidableEq α]

/-- The parts between the separators: one more than there are separators. -/
def split (separator : α) : List α → List (List α)
  | [] => [[]]
  | c :: rest =>
    if c = separator then [] :: split separator rest
    else match split separator rest with
      | [] => [[c]]
      | part :: parts => (c :: part) :: parts

def join (separator : α) : List (List α) → List α
  | [] => []
  | [part] => part
  | part :: parts => part ++ separator :: join separator parts

theorem split_ne_nil (separator : α) (t : List α) : split separator t ≠ [] := by
  cases t with
  | nil => simp [split]
  | cons c rest =>
    by_cases h : c = separator
    · simp [split, h]
    · simp only [split, h, if_false]
      split <;> simp

omit [DecidableEq α] in
theorem join_cons {separator : α} {part : List α} {parts : List (List α)} (h : parts ≠ []) :
    join separator (part :: parts) = part ++ separator :: join separator parts := by
  cases parts with
  | nil => exact absurd rfl h
  | cons _ _ => rfl

@[simp] theorem join_split (separator : α) (t : List α) :
    join separator (split separator t) = t := by
  induction t with
  | nil => rfl
  | cons c rest ih =>
    by_cases h : c = separator
    · subst h
      simp [split, join_cons (split_ne_nil c rest), ih]
    · simp only [split, h, if_false]
      cases hs : split separator rest with
      | nil => exact absurd hs (split_ne_nil separator rest)
      | cons part parts =>
        rw [hs] at ih
        cases parts with
        | nil => simpa [join] using ih
        | cons _ _ => simpa [join] using ih

theorem split_of_not_mem {separator : α} {t : List α} (h : separator ∉ t) :
    split separator t = [t] := by
  induction t with
  | nil => rfl
  | cons c rest ih =>
    have hc : ¬ c = separator := fun he => h (by simp [he])
    simp [split, hc, ih fun hm => h (by simp [hm])]

theorem split_append_cons {separator : α} {part : List α} (t : List α) (h : separator ∉ part) :
    split separator (part ++ separator :: t) = part :: split separator t := by
  induction part with
  | nil => simp [split]
  | cons c rest ih =>
    have hc : ¬ c = separator := fun he => h (by simp [he])
    simp [split, hc, ih fun hm => h (by simp [hm])]

/-- Parts without the separator come back from their join. -/
theorem split_join {separator : α} {parts : List (List α)} (hne : parts ≠ [])
    (h : ∀ part ∈ parts, separator ∉ part) : split separator (join separator parts) = parts := by
  induction parts with
  | nil => exact absurd rfl hne
  | cons part rest ih =>
    cases rest with
    | nil => exact split_of_not_mem (h part (by simp))
    | cons next more =>
      rw [join_cons (by simp), split_append_cons _ (h part (by simp)),
        ih (by simp) fun p hp => h p (by simp [hp])]

end Everywhere

/-! ### Lines -/

def dropFinal (c : Char) (t : Text) : Text :=
  if t.getLast? = some c then t.dropLast else t

/-- The lines of a text. A newline ends a line, together with a carriage return before it; what
follows the last newline is a line as it stands, unless nothing does. -/
def lines (t : Text) : List Text :=
  let parts := split '\n' t
  parts.dropLast.map (dropFinal '\r') ++ parts.getLast?.toList.filter (· ≠ [])

/-! ### Order -/

/-- Texts go by the first character that differs, and a start of a text goes before the text. -/
def le : Text → Text → Bool
  | [], _ => true
  | _ :: _, [] => false
  | a :: s, b :: t => a.toNat < b.toNat || a.toNat = b.toNat && le s t

/-! ### Numbers -/

/-- The decimal digits of a number, without a leading zero. -/
def decimal (n : Nat) : Text := Nat.toDigits 10 n

end Text
end MailCapture
