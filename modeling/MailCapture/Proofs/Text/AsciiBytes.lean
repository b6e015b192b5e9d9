import MailCapture.Text.Utf8

/-! ASCII characters among the bytes of a text.

A byte below 128 is a character of its own wherever it stands, so a text can be cut at its newlines
or slashes before or after it is written as bytes. A text of such characters takes as many bytes as
it has characters (`size_eq_length`). -/
namespace MailCapture.Text

/-- No other character has the byte of an ASCII character. -/
theorem notMem_utf8EncodeChar {n : Nat} (hn : n < 128) {c : Char} (h : c.toNat ≠ n) :
    UInt8.ofNat n ∉ String.utf8EncodeChar c := by
  have hne {k : Nat} (hk : k < 256) (hkn : k ≠ n) : UInt8.ofNat n ≠ UInt8.ofNat k := by
    intro heq
    have hnat := congrArg UInt8.toNat heq
    rw [toNat_ofNat hk, toNat_ofNat (Nat.lt_trans hn (by decide))] at hnat
    exact hkn hnat.symm
  have hcons {k : Nat} {rest : Bytes} (hlow : 128 ≤ k) (hhigh : k < 256)
      (hrest : UInt8.ofNat n ∉ rest) : UInt8.ofNat n ∉ UInt8.ofNat k :: rest :=
    List.not_mem_cons_of_ne_of_not_mem (hne hhigh (by omega)) hrest
  have hnil : UInt8.ofNat n ∉ [] := List.not_mem_nil
  unfold String.utf8EncodeChar
  simp only
  split
  · exact List.not_mem_cons_of_ne_of_not_mem (hne (by omega) h) hnil
  have hlast := hcons (k := c.val.toNat % 64 + 128) (by omega) (by omega) hnil
  split
  · exact hcons (by omega) (by omega) hlast
  have hnext := hcons (k := c.val.toNat / 64 % 64 + 128) (by omega) (by omega) hlast
  split
  · exact hcons (by omega) (by omega) hnext
  · exact hcons (by omega) (by omega) (hcons (by omega) (by omega) hnext)

theorem notMem_encode {a : Char} (ha : a.toNat < 128) {t : Text} (h : a ∉ t) :
    UInt8.ofNat a.toNat ∉ encode t := by
  intro hmem
  obtain ⟨c, hc, hbyte⟩ := List.mem_flatMap.mp hmem
  refine notMem_utf8EncodeChar ha (fun heq => ?_) hbyte
  rw [Char.toNat_inj.mp heq] at hc
  exact h hc

/-! ### Digits -/

theorem size_eq_length {t : Text} (h : ∀ c ∈ t, c.utf8Size = 1) : size t = t.length := by
  induction t with
  | nil => rfl
  | cons c rest ih =>
    have hrest : size rest = rest.length := ih fun x hx => h x (List.mem_cons_of_mem c hx)
    rw [size, List.length_cons, h c List.mem_cons_self, hrest, Nat.add_comm]

theorem utf8Size_of_isDigit {c : Char} (h : c.isDigit = true) : c.utf8Size = 1 := by
  have hle : c.val ≤ '9'.val := of_decide_eq_true (Bool.and_eq_true_iff.mp h).2
  exact Char.utf8Size_eq_one_iff.mpr (UInt32.le_trans hle (by decide))

theorem isDigit_decimal {n : Nat} {c : Char} (h : c ∈ decimal n) : c.isDigit = true :=
  Nat.isDigit_of_mem_toDigits (by decide) (by decide) h

/-- The longest number of 64 bits has twenty digits. -/
theorem size_decimal_le {n : Nat} (h : n < 18446744073709551616) : size (decimal n) ≤ 20 := by
  rw [size_eq_length fun c hc => utf8Size_of_isDigit (isDigit_decimal hc)]
  exact (Nat.length_toDigits_le_iff (by decide) (by decide)).mpr (by omega)

end MailCapture.Text
