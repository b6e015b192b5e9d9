import MailCapture.Text.Utf8

/-! Bytes that are a text.

A byte string without an ill-formed part is the text it reads as, written down: no character has a
second form, so a name or a file that is text says no less as text (`encode_of_decode?`). -/
namespace MailCapture.Text

/-! ### Characters and their bytes -/

theorem toNat_charOfNat {n : Nat} (h : n < 0xd800 ∨ 0xdfff < n ∧ n < 0x110000) :
    (Char.ofNat n).val.toNat = n := by
  have hvalid : n.isValidChar := h
  rw [Char.ofNat, dif_pos hvalid]
  rfl

theorem ofNat_eq (b : UInt8) {n : Nat} (h : b.toNat = n) : UInt8.ofNat n = b := by
  rw [← h]
  exact UInt8.ofNat_toNat

theorem utf8EncodeChar_one {b : UInt8} (h : b.toNat < 0x80) :
    String.utf8EncodeChar (Char.ofNat b.toNat) = [b] := by
  have hchar := toNat_charOfNat (n := b.toNat) (by omega)
  unfold String.utf8EncodeChar
  simp only [hchar]
  rw [if_pos (by omega), ofNat_eq b rfl]

theorem utf8EncodeChar_two {n : Nat} {b b₁ : UInt8} (hlow : 0x80 ≤ n) (hhigh : n < 0x800)
    (hb : b.toNat = n / 64 + 192) (hb₁ : b₁.toNat = n % 64 + 128) :
    String.utf8EncodeChar (Char.ofNat n) = [b, b₁] := by
  have hchar := toNat_charOfNat (n := n) (by omega)
  unfold String.utf8EncodeChar
  simp only [hchar]
  rw [if_neg (by omega), if_pos (by omega), ofNat_eq b (by omega), ofNat_eq b₁ (by omega)]

theorem utf8EncodeChar_three {n : Nat} {b b₁ b₂ : UInt8} (hlow : 0x800 ≤ n) (hhigh : n < 0x10000)
    (hchar : n < 0xd800 ∨ 0xdfff < n) (hb : b.toNat = n / 4096 + 224)
    (hb₁ : b₁.toNat = n / 64 % 64 + 128) (hb₂ : b₂.toNat = n % 64 + 128) :
    String.utf8EncodeChar (Char.ofNat n) = [b, b₁, b₂] := by
  have hchar := toNat_charOfNat (n := n) (by omega)
  unfold String.utf8EncodeChar
  simp only [hchar]
  rw [if_neg (by omega), if_neg (by omega), if_pos (by omega), ofNat_eq b (by omega),
    ofNat_eq b₁ (by omega), ofNat_eq b₂ (by omega)]

theorem utf8EncodeChar_four {n : Nat} {b b₁ b₂ b₃ : UInt8} (hlow : 0x10000 ≤ n)
    (hhigh : n < 0x110000) (hb : b.toNat = n / 262144 + 240)
    (hb₁ : b₁.toNat = n / 4096 % 64 + 128) (hb₂ : b₂.toNat = n / 64 % 64 + 128)
    (hb₃ : b₃.toNat = n % 64 + 128) :
    String.utf8EncodeChar (Char.ofNat n) = [b, b₁, b₂, b₃] := by
  have hchar := toNat_charOfNat (n := n) (by omega)
  unfold String.utf8EncodeChar
  simp only [hchar]
  rw [if_neg (by omega), if_neg (by omega), if_neg (by omega), ofNat_eq b (by omega),
    ofNat_eq b₁ (by omega), ofNat_eq b₂ (by omega), ofNat_eq b₃ (by omega)]

/-! ### Characters begun -/

/-- Bytes that complete a character begun. -/
inductive Completes : Begun → Bytes → Char → Prop
  | last {low high b bits} (above : low ≤ b) (below : b ≤ high) :
      Completes ⟨0, low, high, bits⟩ [b] (Char.ofNat (bits * 64 + b.toNat % 64))
  | more {more low high b bits tail c} (above : low ≤ b) (below : b ≤ high)
      (rest : Completes ⟨more, 0x80, 0xbf, bits * 64 + b.toNat % 64⟩ tail c) :
      Completes ⟨more + 1, low, high, bits⟩ (b :: tail) c

/-- If no part that comes of a character begun is ill-formed the character is completed. -/
theorem completes_of_scanFrom {begun : Begun} {bytes : Bytes} {c : Char}
    {items : List (Option Char)} (h : scanFrom (some begun) bytes = some c :: items) :
    ∃ tail rest, bytes = tail ++ rest ∧ Completes begun tail c ∧ scanFrom none rest = items := by
  induction bytes generalizing begun with
  | nil => cases h
  | cons b bytes ih =>
    obtain ⟨more, low, high, bits⟩ := begun
    rw [scanFrom, follow] at h
    by_cases hrange : (low ≤ b && b ≤ high) = true
    · simp only [hrange, if_true] at h
      rw [Bool.and_eq_true, decide_eq_true_eq, decide_eq_true_eq] at hrange
      cases more with
      | zero =>
        obtain ⟨hc, hrest⟩ := List.cons.inj h
        obtain rfl := Option.some.inj hc
        exact ⟨[b], bytes, rfl, .last hrange.1 hrange.2, hrest⟩
      | succ more =>
        obtain ⟨tail, rest, rfl, hcompletes, hrest⟩ := ih h
        exact ⟨b :: tail, rest, rfl, .more hrange.1 hrange.2 hcompletes, hrest⟩
    · simp only [hrange] at h
      cases h

theorem completes_zero {low high : UInt8} {bits : Nat} {tail : Bytes} {c : Char}
    (h : Completes ⟨0, low, high, bits⟩ tail c) :
    ∃ b, tail = [b] ∧ low.toNat ≤ b.toNat ∧ b.toNat ≤ high.toNat ∧
      c = Char.ofNat (bits * 64 + b.toNat % 64) := by
  cases h with
  | @last _ _ b _ above below => exact ⟨b, rfl, above, below, rfl⟩

theorem completes_succ {more : Nat} {low high : UInt8} {bits : Nat} {tail : Bytes} {c : Char}
    (h : Completes ⟨more + 1, low, high, bits⟩ tail c) :
    ∃ b rest, tail = b :: rest ∧ low.toNat ≤ b.toNat ∧ b.toNat ≤ high.toNat ∧
      Completes ⟨more, 0x80, 0xbf, bits * 64 + b.toNat % 64⟩ rest c := by
  cases h with
  | @more _ _ _ b _ tail _ above below rest => exact ⟨b, tail, rfl, above, below, rest⟩

theorem lead_alone : ∀ n < 256, n < 0xc2 ∨ 0xf4 < n → (lead (UInt8.ofNat n)).2 = none := by
  decide +kernel

theorem completes_two {n : Nat} {b : UInt8} {tail : Bytes} {c : Char} (hn : 2 ≤ n)
    (hn' : n < 32) (hb : b.toNat = n + 192) (h : Completes ⟨0, 0x80, 0xbf, n⟩ tail c) :
    String.utf8EncodeChar c = b :: tail := by
  obtain ⟨b₁, rfl, hlow, hhigh, rfl⟩ := completes_zero h
  simp only [UInt8.reduceToNat] at hlow hhigh
  apply utf8EncodeChar_two <;> omega

theorem completes_three {n : Nat} {b low high : UInt8} {tail : Bytes} {c : Char} (hn : n < 16)
    (hb : b.toNat = n + 224) (hlow : low = if n = 0 then 0xa0 else 0x80)
    (hhigh : high = if n = 13 then 0x9f else 0xbf) (h : Completes ⟨1, low, high, n⟩ tail c) :
    String.utf8EncodeChar c = b :: tail := by
  obtain ⟨b₁, rest, rfl, hlow₁, hhigh₁, h⟩ := completes_succ h
  obtain ⟨b₂, rfl, hlow₂, hhigh₂, rfl⟩ := completes_zero h
  have hfirst : 0x80 ≤ b₁.toNat ∧ (n = 0 → 0xa0 ≤ b₁.toNat) := by
    rw [hlow] at hlow₁
    split at hlow₁ <;> simp only [UInt8.reduceToNat] at hlow₁ <;> omega
  have hfirst' : b₁.toNat ≤ 0xbf ∧ (n = 13 → b₁.toNat ≤ 0x9f) := by
    rw [hhigh] at hhigh₁
    split at hhigh₁ <;> simp only [UInt8.reduceToNat] at hhigh₁ <;> omega
  simp only [UInt8.reduceToNat] at hlow₂ hhigh₂
  apply utf8EncodeChar_three <;> omega

theorem completes_four {n : Nat} {b low high : UInt8} {tail : Bytes} {c : Char} (hn : n ≤ 4)
    (hb : b.toNat = n + 240) (hlow : low = if n = 0 then 0x90 else 0x80)
    (hhigh : high = if n = 4 then 0x8f else 0xbf) (h : Completes ⟨2, low, high, n⟩ tail c) :
    String.utf8EncodeChar c = b :: tail := by
  obtain ⟨b₁, rest, rfl, hlow₁, hhigh₁, h⟩ := completes_succ h
  obtain ⟨b₂, rest, rfl, hlow₂, hhigh₂, h⟩ := completes_succ h
  obtain ⟨b₃, rfl, hlow₃, hhigh₃, rfl⟩ := completes_zero h
  have hfirst : 0x80 ≤ b₁.toNat ∧ (n = 0 → 0x90 ≤ b₁.toNat) := by
    rw [hlow] at hlow₁
    split at hlow₁ <;> simp only [UInt8.reduceToNat] at hlow₁ <;> omega
  have hfirst' : b₁.toNat ≤ 0xbf ∧ (n = 4 → b₁.toNat ≤ 0x8f) := by
    rw [hhigh] at hhigh₁
    split at hhigh₁ <;> simp only [UInt8.reduceToNat] at hhigh₁ <;> omega
  simp only [UInt8.reduceToNat] at hlow₂ hhigh₂ hlow₃ hhigh₃
  apply utf8EncodeChar_four <;> omega

/-- A character begun by a byte is completed by its other bytes only. -/
theorem utf8EncodeChar_of_completes {b : UInt8} {begun : Begun} {tail : Bytes} {c : Char}
    (hlead : lead b = ([], some begun)) (h : Completes begun tail c) :
    String.utf8EncodeChar c = b :: tail := by
  obtain ⟨n, hn, rfl⟩ : ∃ n < 256, UInt8.ofNat n = b := ⟨b.toNat, b.toNat_lt, UInt8.ofNat_toNat⟩
  by_cases hrange : n < 0xc2 ∨ 0xf4 < n
  · have hnone := lead_alone n hn hrange
    rw [hlead] at hnone
    cases hnone
  by_cases htwo : n < 0xe0
  · have heq := lead_two (n - 192) (by omega) (by omega)
    rw [Nat.sub_add_cancel (by omega), hlead] at heq
    cases heq
    exact completes_two (by omega) (by omega) (by rw [toNat_ofNat hn]; omega) h
  by_cases hthree : n < 0xf0
  · have heq := lead_three (n - 224) (by omega)
    rw [Nat.sub_add_cancel (by omega), hlead] at heq
    cases heq
    exact completes_three (by omega) (by rw [toNat_ofNat hn]; omega) rfl rfl h
  · have heq := lead_four (n - 240) (by omega)
    rw [Nat.sub_add_cancel (by omega), hlead] at heq
    cases heq
    exact completes_four (by omega) (by rw [toNat_ofNat hn]; omega) rfl rfl h

/-! ### Whole texts -/

theorem lead_cases (b : UInt8) :
    b.toNat < 0x80 ∧ lead b = ([some (Char.ofNat b.toNat)], none) ∨ lead b = ([none], none) ∨
      ∃ begun, lead b = ([], some begun) := by
  unfold lead
  split
  · next h =>
    rw [UInt8.lt_iff_toNat_lt] at h
    exact .inl ⟨h, rfl⟩
  split
  · exact .inr (.inl rfl)
  repeat' split
  all_goals first
    | exact .inr (.inr ⟨_, rfl⟩)
    | exact .inr (.inl rfl)

theorem scanFrom_begun_ne_nil (begun : Begun) (bytes : Bytes) :
    scanFrom (some begun) bytes ≠ [] := by
  induction bytes generalizing begun with
  | nil => exact List.cons_ne_nil _ _
  | cons b rest ih =>
    rw [scanFrom, follow]
    split
    · split
      · exact List.cons_ne_nil _ _
      · exact ih _
    · exact List.cons_ne_nil _ _

theorem eq_nil_of_scan {bytes : Bytes} (h : scan bytes = []) : bytes = [] := by
  cases bytes with
  | nil => rfl
  | cons b rest =>
    rw [scan, scanFrom] at h
    rcases lead_cases b with ⟨-, hlead⟩ | hlead | ⟨begun, hlead⟩
    · rw [hlead] at h
      cases h
    · rw [hlead] at h
      cases h
    · rw [hlead] at h
      exact absurd h (scanFrom_begun_ne_nil begun rest)

/-- A character that is read first is written first. -/
theorem eq_append_of_scan {bytes : Bytes} {c : Char} {items : List (Option Char)}
    (h : scan bytes = some c :: items) :
    ∃ rest, bytes = String.utf8EncodeChar c ++ rest ∧ scan rest = items := by
  cases bytes with
  | nil => cases h
  | cons b bytes =>
    rw [scan, scanFrom] at h
    rcases lead_cases b with ⟨hascii, hlead⟩ | hlead | ⟨begun, hlead⟩
    · rw [hlead] at h
      obtain ⟨hc, hrest⟩ := List.cons.inj h
      obtain rfl := Option.some.inj hc
      exact ⟨bytes, by rw [utf8EncodeChar_one hascii]; rfl, hrest⟩
    · rw [hlead] at h
      cases h
    · rw [hlead] at h
      obtain ⟨tail, rest, rfl, hcompletes, hrest⟩ := completes_of_scanFrom h
      exact ⟨rest, by rw [utf8EncodeChar_of_completes hlead hcompletes]; rfl, hrest⟩

theorem encode_of_scan {bytes : Bytes} {t : Text} (h : scan bytes = t.map some) :
    encode t = bytes := by
  induction t generalizing bytes with
  | nil => rw [eq_nil_of_scan h, encode_nil]
  | cons c rest ih =>
    obtain ⟨more, rfl, hmore⟩ := eq_append_of_scan h
    rw [← ih hmore]
    exact List.flatMap_cons

/-- What reads as a text is the text as it is written. -/
theorem encode_of_decode? {bytes : Bytes} {t : Text} (h : decode? bytes = some t) :
    encode t = bytes := by
  have hmap (items : List (Option Char)) (hall : items.all Option.isSome = true) :
      items = (items.filterMap id).map some := by
    induction items with
    | nil => rfl
    | cons item rest ih =>
      rw [List.all_cons, Bool.and_eq_true] at hall
      obtain ⟨c, rfl⟩ := Option.isSome_iff_exists.mp hall.1
      exact congrArg (some c :: ·) (ih hall.2)
  unfold decode? at h
  simp only at h
  split at h
  · next hall =>
    obtain rfl := Option.some.inj h
    exact encode_of_scan (hmap _ hall)
  · cases h

end MailCapture.Text
