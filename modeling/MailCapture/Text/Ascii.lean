import MailCapture.Text.Basic

/-! Letters compared without regard to case.

Header names, keywords and the names of mailbox kinds ignore the case of ASCII letters and of no
others. Command words go further and are compared in capitals (`Text/Capital`). -/
namespace MailCapture.Text

/-- ASCII capitals become small letters; every other character stands for itself. -/
def lower (t : Text) : Text := t.map Char.toLower

/-- Equal up to the case of ASCII letters. -/
def sameName (a b : Text) : Bool := lower a = lower b

/-- What follows `keyword` at the start of a text, whatever its ASCII case. -/
def dropKeyword : (keyword : Text) → Text → Option Text
  | [], t => some t
  | _ :: _, [] => none
  | k :: keyword, c :: t => if k.toLower = c.toLower then dropKeyword keyword t else none

theorem sameName_iff {a b : Text} : sameName a b = true ↔ lower a = lower b := by
  simp [sameName]

@[simp] theorem sameName_refl (a : Text) : sameName a a = true := by simp [sameName]

theorem sameName_comm (a b : Text) : sameName a b = sameName b a := by
  simp [sameName, eq_comm]

theorem sameName_trans {a b c : Text} (hab : sameName a b = true) (hbc : sameName b c = true) :
    sameName a c = true := by
  rw [sameName_iff] at *
  exact hab.trans hbc

/-- What is equal up to case to one is to the other. -/
theorem sameName_congr {a b : Text} (h : sameName a b = true) (c : Text) :
    sameName a c = sameName b c := by
  rw [sameName, sameName, sameName_iff.mp h]

/-- A text starts with the keyword exactly if it is some spelling of it and a remainder. -/
theorem dropKeyword_eq_some {keyword t rest : Text} :
    dropKeyword keyword t = some rest ↔
      ∃ spelling, t = spelling ++ rest ∧ sameName keyword spelling = true := by
  induction keyword generalizing t with
  | nil =>
    constructor
    · intro h
      exact ⟨[], by simpa [dropKeyword] using h, rfl⟩
    · rintro ⟨spelling, rfl, hs⟩
      have hs : spelling = [] := by simpa [sameName, lower] using hs
      simp [dropKeyword, hs]
  | cons k keyword ih =>
    cases t with
    | nil =>
      simp only [dropKeyword, reduceCtorEq, false_iff]
      rintro ⟨spelling, h, hs⟩
      have : spelling = [] := by
        cases spelling with
        | nil => rfl
        | cons _ _ => simp at h
      simp [this, sameName, lower] at hs
    | cons c t =>
      by_cases hkc : k.toLower = c.toLower
      · simp only [dropKeyword, hkc, if_true, ih]
        constructor
        · rintro ⟨spelling, rfl, hs⟩
          exact ⟨c :: spelling, rfl, by simpa [sameName_iff, lower, hkc] using hs⟩
        · rintro ⟨spelling, h, hs⟩
          cases spelling with
          | nil => simp [sameName, lower] at hs
          | cons d spelling =>
            obtain ⟨rfl, rfl⟩ := List.cons.inj h
            exact ⟨spelling, rfl, by simpa [sameName_iff, lower, hkc] using hs⟩
      · simp only [dropKeyword, hkc, if_false, reduceCtorEq, false_iff]
        rintro ⟨spelling, h, hs⟩
        cases spelling with
        | nil => simp [sameName, lower] at hs
        | cons d spelling =>
          obtain ⟨rfl, rfl⟩ := List.cons.inj h
          simp [sameName, lower, hkc] at hs

end MailCapture.Text
