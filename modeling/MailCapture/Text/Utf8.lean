import MailCapture.Text.Basic

/-! Texts as UTF-8 bytes.

`scan` reads bytes as a list of characters and ill-formed parts, each part as long as it could
still have become a character. A client's bytes are read with every such part replaced by U+FFFD
(`decode`); a file is refused when it has one (`decode?`). What was written as UTF-8 reads back
either way (`decode_encode`, `decode?_encode`). -/
namespace MailCapture

abbrev Bytes := List UInt8

namespace Text

/-! ### Writing -/

def encode (t : Text) : Bytes := t.flatMap String.utf8EncodeChar

/-- How many bytes a text takes. -/
def size : Text → Nat
  | [] => 0
  | c :: rest => c.utf8Size + size rest

/-- The longest start of a text that takes at most `limit` bytes. -/
def cut (limit : Nat) : Text → Text
  | [] => []
  | c :: rest => if c.utf8Size ≤ limit then c :: cut (limit - c.utf8Size) rest else []

@[simp] theorem encode_nil : encode [] = [] := rfl

@[simp] theorem encode_append (a b : Text) : encode (a ++ b) = encode a ++ encode b := by
  simp [encode]

@[simp] theorem size_append (a b : Text) : size (a ++ b) = size a + size b := by
  induction a with
  | nil => simp [size]
  | cons c rest ih => simp [size, ih, Nat.add_assoc]

theorem size_cut_le (limit : Nat) (t : Text) : size (cut limit t) ≤ limit := by
  induction t generalizing limit with
  | nil => simp [cut, size]
  | cons c rest ih =>
    by_cases h : c.utf8Size ≤ limit
    · have := ih (limit - c.utf8Size)
      simp only [cut, h, if_true, size]
      omega
    · simp [cut, h, size]

theorem cut_isPrefix (limit : Nat) (t : Text) : cut limit t <+: t := by
  induction t generalizing limit with
  | nil => exact List.prefix_rfl
  | cons c rest ih =>
    rw [cut]
    split
    · exact List.cons_prefix_cons.mpr ⟨rfl, ih _⟩
    · exact List.nil_prefix

/-- No longer start takes as few bytes. -/
theorem isPrefix_cut {limit : Nat} {t u : Text} (h : u <+: t) (hsize : size u ≤ limit) :
    u <+: cut limit t := by
  induction t generalizing limit u with
  | nil => exact h
  | cons c rest ih =>
    cases u with
    | nil => exact List.nil_prefix
    | cons d u =>
      obtain ⟨rfl, hrest⟩ := List.cons_prefix_cons.mp h
      rw [size] at hsize
      rw [cut, if_pos (Nat.le_of_add_right_le hsize)]
      exact List.cons_prefix_cons.mpr ⟨rfl, ih hrest (by omega)⟩

/-! ### Reading -/

/-- A character whose first bytes have been read: how many it needs after the next one, the range
the next one must lie in, and the bits so far. -/
structure Begun where
  more : Nat
  low : UInt8
  high : UInt8
  bits : Nat
deriving DecidableEq, Repr

/-- What a first byte does. The narrower ranges keep out overlong forms, surrogates and numbers
past the last character. -/
def lead (b : UInt8) : List (Option Char) × Option Begun :=
  if b < 0x80 then ([some (Char.ofNat b.toNat)], none)
  else if b < 0xc2 then ([none], none)
  else if b < 0xe0 then ([], some ⟨0, 0x80, 0xbf, b.toNat % 32⟩)
  else if b = 0xe0 then ([], some ⟨1, 0xa0, 0xbf, 0⟩)
  else if b = 0xed then ([], some ⟨1, 0x80, 0x9f, 13⟩)
  else if b < 0xf0 then ([], some ⟨1, 0x80, 0xbf, b.toNat % 16⟩)
  else if b = 0xf0 then ([], some ⟨2, 0x90, 0xbf, 0⟩)
  else if b < 0xf4 then ([], some ⟨2, 0x80, 0xbf, b.toNat % 8⟩)
  else if b = 0xf4 then ([], some ⟨2, 0x80, 0x8f, 4⟩)
  else ([none], none)

/-- A byte out of range ends the character begun, which is then ill-formed, and is a first byte. -/
def follow (begun : Begun) (b : UInt8) : List (Option Char) × Option Begun :=
  if begun.low ≤ b && b ≤ begun.high then
    let bits := begun.bits * 64 + b.toNat % 64
    match begun.more with
    | 0 => ([some (Char.ofNat bits)], none)
    | more + 1 => ([], some ⟨more, 0x80, 0xbf, bits⟩)
  else
    let (items, next) := lead b
    (none :: items, next)

def scanFrom : Option Begun → Bytes → List (Option Char)
  | none, [] => []
  | some _, [] => [none]
  | none, b :: rest => (lead b).1 ++ scanFrom (lead b).2 rest
  | some begun, b :: rest => (follow begun b).1 ++ scanFrom (follow begun b).2 rest

/-- The characters and, as `none`, the ill-formed parts of a byte string. -/
def scan (bytes : Bytes) : List (Option Char) := scanFrom none bytes

/-- Every ill-formed part reads as U+FFFD. -/
def decode (bytes : Bytes) : Text := (scan bytes).map fun c => c.getD '\ufffd'

/-- Fails if any part is ill-formed. -/
def decode? (bytes : Bytes) : Option Text :=
  let items := scan bytes
  if items.all Option.isSome then some (items.filterMap id) else none

/-! ### Reading what was written -/

theorem toNat_ofNat {n : Nat} (h : n < 256) : (UInt8.ofNat n).toNat = n := by
  rw [UInt8.toNat_ofNat']
  omega

/-- A byte in range takes the character begun one step further. -/
theorem follow_more (more : Nat) {low high : UInt8} {bits n : Nat} (hn : n < 256)
    (hlow : low.toNat ≤ n) (hhigh : n ≤ high.toNat) :
    follow ⟨more + 1, low, high, bits⟩ (UInt8.ofNat n) =
      ([], some ⟨more, 0x80, 0xbf, bits * 64 + n % 64⟩) := by
  simp [follow, UInt8.le_iff_toNat_le, toNat_ofNat hn, hlow, hhigh]

/-- The last byte completes it. -/
theorem follow_last {low high : UInt8} {bits n : Nat} (hn : n < 256) (hlow : low.toNat ≤ n)
    (hhigh : n ≤ high.toNat) :
    follow ⟨0, low, high, bits⟩ (UInt8.ofNat n) =
      ([some (Char.ofNat (bits * 64 + n % 64))], none) := by
  simp [follow, UInt8.le_iff_toNat_le, toNat_ofNat hn, hlow, hhigh]

theorem lead_of_lt {n : Nat} (h : n < 0x80) :
    lead (UInt8.ofNat n) = ([some (Char.ofNat n)], none) := by
  have hn : (UInt8.ofNat n).toNat = n := toNat_ofNat (by omega)
  have hlt : UInt8.ofNat n < 0x80 := by
    rw [UInt8.lt_iff_toNat_lt, hn]
    exact h
  simp [lead, hlt, hn]

theorem lead_two : ∀ n < 32, 2 ≤ n →
    lead (UInt8.ofNat (n + 192)) = ([], some ⟨0, 0x80, 0xbf, n⟩) := by
  decide

theorem lead_three : ∀ n < 16, lead (UInt8.ofNat (n + 224)) =
    ([], some ⟨1, if n = 0 then 0xa0 else 0x80, if n = 13 then 0x9f else 0xbf, n⟩) := by
  decide

theorem lead_four : ∀ n ≤ 4, lead (UInt8.ofNat (n + 240)) =
    ([], some ⟨2, if n = 0 then 0x90 else 0x80, if n = 4 then 0x8f else 0xbf, n⟩) := by
  decide

/-- The bytes of a character read as that character, whatever follows them. -/
theorem scanFrom_utf8EncodeChar (c : Char) (rest : Bytes) :
    scanFrom none (String.utf8EncodeChar c ++ rest) = some c :: scanFrom none rest := by
  have hc : Char.ofNat c.toNat = c := Char.ofNat_toNat c
  have hv : c.toNat < 0xd800 ∨ 0xdfff < c.toNat ∧ c.toNat < 0x110000 := c.valid
  generalize hn : c.toNat = n at hc hv
  have hval : c.val.toNat = n := hn
  unfold String.utf8EncodeChar
  simp only [hval]
  split
  · simp [scanFrom, lead_of_lt (n := n) (by omega), hc]
  split
  · have hlead := lead_two (n / 64 % 32) (by omega) (by omega)
    have hlast := @follow_last 0x80 0xbf (n / 64 % 32) (n % 64 + 128) (by omega) (by simp)
      (by simp; omega)
    have hsum : n / 64 % 32 * 64 + (n % 64 + 128) % 64 = n := by omega
    simp only [List.cons_append, List.nil_append, scanFrom, hlead, hlast, hsum, hc]
  split
  · have hlead := lead_three (n / 4096 % 16) (by omega)
    have hlow : (if n / 4096 % 16 = 0 then (0xa0 : UInt8) else 0x80).toNat ≤ n / 64 % 64 + 128 := by
      split <;> simp
      omega
    have hhigh : n / 64 % 64 + 128 ≤
        (if n / 4096 % 16 = 13 then (0x9f : UInt8) else 0xbf).toNat := by
      split <;> simp <;> omega
    have hnext := @follow_more 0 _ _ (n / 4096 % 16) _ (by omega) hlow hhigh
    have hlast := @follow_last 0x80 0xbf (n / 4096 % 16 * 64 + (n / 64 % 64 + 128) % 64)
      (n % 64 + 128) (by omega) (by simp) (by simp; omega)
    have hsum : (n / 4096 % 16 * 64 + (n / 64 % 64 + 128) % 64) * 64 + (n % 64 + 128) % 64 = n := by
      omega
    simp only [Nat.zero_add] at hnext
    simp only [List.cons_append, List.nil_append, scanFrom, hlead, hnext, hlast, hsum, hc]
  · have hlead := lead_four (n / 262144 % 8) (by omega)
    have hlow : (if n / 262144 % 8 = 0 then (0x90 : UInt8) else 0x80).toNat ≤
        n / 4096 % 64 + 128 := by
      split <;> simp
      omega
    have hhigh : n / 4096 % 64 + 128 ≤
        (if n / 262144 % 8 = 4 then (0x8f : UInt8) else 0xbf).toNat := by
      split <;> simp <;> omega
    have hnext := @follow_more 1 _ _ (n / 262144 % 8) _ (by omega) hlow hhigh
    have hthen := @follow_more 0 0x80 0xbf (n / 262144 % 8 * 64 + (n / 4096 % 64 + 128) % 64)
      (n / 64 % 64 + 128) (by omega) (by simp) (by simp; omega)
    have hlast := @follow_last 0x80 0xbf ((n / 262144 % 8 * 64 + (n / 4096 % 64 + 128) % 64) * 64
      + (n / 64 % 64 + 128) % 64) (n % 64 + 128) (by omega) (by simp) (by simp; omega)
    have hsum : ((n / 262144 % 8 * 64 + (n / 4096 % 64 + 128) % 64) * 64
        + (n / 64 % 64 + 128) % 64) * 64 + (n % 64 + 128) % 64 = n := by
      omega
    simp only [Nat.zero_add, Nat.reduceAdd] at hnext hthen
    simp only [List.cons_append, List.nil_append, scanFrom, hlead, hnext, hthen, hlast, hsum, hc]

theorem scan_encode (t : Text) : scan (encode t) = t.map some := by
  induction t with
  | nil => rfl
  | cons c rest ih =>
    rw [scan, encode, List.flatMap_cons, scanFrom_utf8EncodeChar]
    exact congrArg (some c :: ·) ih

@[simp] theorem decode_encode (t : Text) : decode (encode t) = t := by
  simp [decode, scan_encode, Function.comp_def]

@[simp] theorem decode?_encode (t : Text) : decode? (encode t) = some t := by
  simp [decode?, scan_encode]

theorem length_encode (t : Text) : (encode t).length = size t := by
  induction t with
  | nil => rfl
  | cons c rest ih =>
    rw [encode, List.flatMap_cons, List.length_append, String.length_utf8EncodeChar, size]
    exact congrArg _ ih

end Text
end MailCapture
