import Mathlib.Data.List.DropRight
import MailCapture.Text.Blank

/-! Texts without their blank ends.

A trimmed text neither starts nor ends blank, so trimming it again changes nothing (`trim_trim`).
`trim_eq_self_iff` tells whether a text that starts with something else than a blank is trimmed by
its last character alone. Blanks around the words of a line make no difference: its first word and
the rest, trimmed, are what they are without (`splitWord_trim`). -/
namespace MailCapture.Text

/-! ### Texts that are trimmed -/

theorem trimEnd_eq_rdropWhile (t : Text) : trimEnd t = t.rdropWhile isBlank := rfl

/-- Only what follows the last character that is not blank is trimmed at the end. -/
theorem trimEnd_append_cons {c : Char} (h : isBlank c = false) (t u : Text) :
    trimEnd (t ++ c :: u) = t ++ c :: trimEnd u := by
  have hstop : (c :: t.reverse).dropWhile isBlank = c :: t.reverse :=
    List.dropWhile_cons_of_neg (by rw [h]; exact Bool.false_ne_true)
  have hend : (u.reverse ++ c :: t.reverse).dropWhile isBlank =
      u.reverse.dropWhile isBlank ++ c :: t.reverse := by
    rw [List.dropWhile_append, hstop]
    split
    · next hnone => rw [List.isEmpty_iff.mp hnone, List.nil_append]
    · rfl
  rw [trimEnd, List.reverse_append, List.reverse_cons, List.append_assoc, List.singleton_append,
    hend, List.reverse_append, List.reverse_cons, List.reverse_reverse, List.append_assoc]
  rfl

theorem trimEnd_append {t : Text} {c : Char} (h : isBlank c = false) :
    trimEnd (t ++ [c]) = t ++ [c] :=
  trimEnd_append_cons h t []

theorem trim_blank {c : Char} (h : isBlank c = true) (t : Text) : trim (c :: t) = trim t := by
  rw [trim, trimStart_blank h]
  rfl

theorem length_trim_le (t : Text) : (trim t).length ≤ t.length := by
  have hstart := (List.dropWhile_suffix isBlank (l := t)).length_le
  have hend := (List.dropWhile_suffix isBlank (l := (trimStart t).reverse)).length_le
  rw [List.length_reverse] at hend
  rw [trim, trimEnd, List.length_reverse]
  exact Nat.le_trans hend hstart

/-- A trimmed text does not start blank. -/
theorem head_of_trim {c : Char} {t : Text} (h : trim (c :: t) = c :: t) : isBlank c = false := by
  cases hc : isBlank c with
  | false => rfl
  | true =>
    have hlength := length_trim_le t
    rw [← trim_blank hc, h, List.length_cons] at hlength
    omega

/-! ### What trimming leaves -/

theorem mem_of_mem_trim {c : Char} {t : Text} (h : c ∈ trim t) : c ∈ t :=
  (List.dropWhile_sublist isBlank).subset ((List.rdropWhile_prefix isBlank _).subset h)

theorem trimEnd_cons {c : Char} (h : isBlank c = false) (t : Text) :
    trimEnd (c :: t) = c :: trimEnd t :=
  trimEnd_append_cons h [] t

/-- A text that does not start blank is trimmed at its end only. -/
theorem trim_cons {c : Char} (h : isBlank c = false) (t : Text) :
    trim (c :: t) = c :: trimEnd t := by
  rw [trim, trimStart_of_head h, trimEnd_cons h]

theorem trim_concat_blank {c : Char} (h : isBlank c = true) (t : Text) :
    trim (t ++ [c]) = trim t := by
  induction t with
  | nil => exact trim_blank h []
  | cons d rest ih =>
    rw [List.cons_append]
    cases hd : isBlank d with
    | true => rw [trim_blank hd, trim_blank hd, ih]
    | false =>
      rw [trim_cons hd, trim_cons hd, trimEnd_eq_rdropWhile, List.rdropWhile_concat_pos _ _ _ h]
      rfl

/-- Of a text that does not start blank, only the last character tells whether it is trimmed. -/
theorem trim_eq_self_iff {c : Char} (h : isBlank c = false) (t : Text) :
    trim (c :: t) = c :: t ↔ isBlank ((c :: t).getLast (List.cons_ne_nil c t)) = false := by
  rw [trim, trimStart_of_head h, trimEnd_eq_rdropWhile, List.rdropWhile_eq_self_iff]
  simp

theorem trim_trim (t : Text) : trim (trim t) = trim t := by
  induction t with
  | nil => rfl
  | cons c rest ih =>
    cases hc : isBlank c with
    | true => rw [trim_blank hc, ih]
    | false =>
      have hend : trimEnd (trimEnd rest) = trimEnd rest := List.rdropWhile_idempotent _ _
      rw [trim_cons hc, trim_cons hc, hend]

theorem trim_trimEnd (t : Text) : trim (trimEnd t) = trim t := by
  induction t using List.reverseRecOn with
  | nil => rfl
  | append_singleton t c ih =>
    cases hc : isBlank c with
    | true =>
      rw [trim_concat_blank hc, ← ih, trimEnd_eq_rdropWhile, List.rdropWhile_concat_pos _ _ _ hc]
      rfl
    | false => rw [trimEnd_append hc]

/-! ### Words of a line -/

/-- Nothing but blanks, if anything. -/
def AreBlank (t : Text) : Prop := ∀ c ∈ t, isBlank c = true

structure IsWord (t : Text) : Prop where
  nonempty : t ≠ []
  unbroken : ∀ c ∈ t, isBlank c = false

/-- What can follow a word: nothing, or what starts with a blank. -/
def EndsWord (t : Text) : Prop := ∀ c ∈ t.head?, isBlank c = true

instance (t : Text) : Decidable (AreBlank t) :=
  decidable_of_iff (t.all isBlank = true) List.all_eq_true

instance (t : Text) : Decidable (IsWord t) :=
  decidable_of_iff (t ≠ [] ∧ t.any isBlank = false)
    ⟨fun h => ⟨h.1, fun c hc => Bool.eq_false_iff.mpr (List.any_eq_false.mp h.2 c hc)⟩,
      fun h => ⟨h.nonempty, List.any_eq_false.mpr fun c hc => Bool.eq_false_iff.mp (h.unbroken c hc)⟩⟩

instance (t : Text) : Decidable (EndsWord t) :=
  decidable_of_iff (t.head?.all isBlank = true) (Option.all_eq_true _ _)

variable {indent word gap tail : Text}

theorem AreBlank.trimStart_append (h : AreBlank gap) (t : Text) :
    trimStart (gap ++ t) = trimStart t :=
  List.dropWhile_append_of_pos h

theorem AreBlank.trim_append (h : AreBlank gap) (t : Text) : trim (gap ++ t) = trim t := by
  rw [trim, h.trimStart_append]
  rfl

theorem AreBlank.endsWord (h : AreBlank gap) (hne : gap ≠ []) (t : Text) : EndsWord (gap ++ t) := by
  obtain ⟨b, more, rfl⟩ := List.exists_cons_of_ne_nil hne
  intro c hc
  rw [← Option.some.inj hc]
  exact h b List.mem_cons_self

theorem EndsWord.trimEnd (h : EndsWord tail) : EndsWord (trimEnd tail) := by
  obtain ⟨blanks, hblanks⟩ := List.rdropWhile_prefix isBlank tail
  intro c hc
  refine h c ?_
  rw [← hblanks, List.head?_append, ← trimEnd_eq_rdropWhile, hc]
  rfl

/-- A text is trimmed at its end only past its last word. -/
theorem IsWord.trimEnd_append_append (h : IsWord word) (t u : Text) :
    Text.trimEnd (t ++ (word ++ u)) = t ++ (word ++ Text.trimEnd u) := by
  obtain ⟨start, last, rfl⟩ := (List.eq_nil_or_concat word).resolve_left h.nonempty
  rw [List.concat_eq_append] at h ⊢
  have hlast : isBlank last = false := h.unbroken last List.mem_concat_self
  have hend := trimEnd_append_cons hlast (t ++ start) u
  simpa only [List.append_assoc, List.singleton_append] using hend

theorem IsWord.trimEnd_append (h : IsWord word) (t : Text) :
    Text.trimEnd (word ++ t) = word ++ Text.trimEnd t :=
  h.trimEnd_append_append [] t

theorem IsWord.trimStart_append (h : IsWord word) (t : Text) :
    trimStart (word ++ t) = word ++ t := by
  obtain ⟨first, more, rfl⟩ := List.exists_cons_of_ne_nil h.nonempty
  exact trimStart_of_head (h.unbroken first List.mem_cons_self)

theorem IsWord.trim_append (h : IsWord word) (t : Text) :
    trim (word ++ t) = word ++ Text.trimEnd t := by
  rw [trim, h.trimStart_append, h.trimEnd_append]

/-- The first word of what starts with a word. -/
theorem IsWord.firstWord_append (h : IsWord word) (htail : EndsWord tail) :
    firstWord (word ++ tail) = word := by
  have hunbroken : ∀ c ∈ word, (!isBlank c) = true := fun c hc => by rw [h.unbroken c hc]; rfl
  rw [firstWord, List.takeWhile_append_of_pos hunbroken]
  cases tail with
  | nil => exact List.append_nil word
  | cons c rest =>
    have hc : isBlank c = true := htail c rfl
    rw [List.takeWhile_cons_of_neg (by simp [hc]), List.append_nil]

/-- A line is its first word and a rest, whatever blanks there are around them. -/
theorem splitWord_trim (hindent : AreBlank indent) (hword : IsWord word) (htail : EndsWord tail) :
    splitWord (trim (indent ++ (word ++ tail))) = (word, trim tail) := by
  have hend := htail.trimEnd
  rw [hindent.trim_append, hword.trim_append, ← trim_trimEnd tail]
  cases htrim : Text.trimEnd tail with
  | nil =>
    have hnone : splitFirst isBlank word = none := splitFirst_eq_none.mpr hword.unbroken
    rw [List.append_nil, splitWord, hnone, trim_nil]
  | cons c rest =>
    have hc : isBlank c = true := hend c (by rw [htrim]; rfl)
    rw [splitWord, splitFirst_append rest hword.unbroken hc, trim_blank hc]

end MailCapture.Text
