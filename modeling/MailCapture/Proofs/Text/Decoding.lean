import MailCapture.Proofs.Text.WellFormed

/-! What comes out of bytes that a client sent.

A client's bytes may be anything, and ill-formed parts read as U+FFFD. Every other character of the
text stands in the bytes as it would be written (`isInfix_of_mem_decode`), so a line cut off before
its newline has no newline in its text. An ill-formed part has at most as many bytes as what is put
in its place, so the text is at least as long, written down, as the bytes it was read from
(`length_le_size_decode`). -/
namespace MailCapture.Text

/-- The scan goes on after an ill-formed part as if that had not been there. The part ends before
the character begun would have been complete. -/
theorem eq_append_of_scanFrom_none {begun : Begun} {bytes : Bytes} {items : List (Option Char)}
    (h : scanFrom (some begun) bytes = none :: items) :
    ∃ skipped rest, bytes = skipped ++ rest ∧ skipped.length ≤ begun.more ∧ scan rest = items := by
  induction bytes generalizing begun with
  | nil =>
    obtain rfl := (List.cons.inj h).2
    exact ⟨[], [], rfl, Nat.zero_le _, rfl⟩
  | cons b bytes ih =>
    rw [scanFrom, follow] at h
    by_cases hrange : (begun.low ≤ b && b ≤ begun.high) = true
    · simp only [hrange, if_true] at h
      split at h
      · cases h
      · next hmore =>
        obtain ⟨skipped, rest, rfl, hlength, hrest⟩ := ih h
        exact ⟨b :: skipped, rest, rfl, hmore ▸ Nat.succ_le_succ hlength, hrest⟩
    · -- the byte out of range is read again, as a first byte
      simp only [hrange] at h
      exact ⟨[], b :: bytes, rfl, Nat.zero_le _, (List.cons.inj h).2⟩

/-- No character has more than four bytes. -/
theorem more_lead {b : UInt8} {begun : Begun} (h : (lead b).2 = some begun) : begun.more ≤ 2 := by
  have hall : ∀ n < 256, (lead (UInt8.ofNat n)).2.all (·.more ≤ 2) = true := by decide +kernel
  have hb := hall b.toNat b.toNat_lt
  rw [UInt8.ofNat_toNat, h] at hb
  exact of_decide_eq_true hb

theorem eq_append_of_scan_none {bytes : Bytes} {items : List (Option Char)}
    (h : scan bytes = none :: items) :
    ∃ skipped rest, bytes = skipped ++ rest ∧ skipped.length ≤ 3 ∧ scan rest = items := by
  cases bytes with
  | nil => cases h
  | cons b bytes =>
    rw [scan, scanFrom] at h
    rcases lead_cases b with ⟨-, hlead⟩ | hlead | ⟨begun, hlead⟩
    · rw [hlead] at h
      cases h
    · rw [hlead] at h
      exact ⟨[b], bytes, rfl, by simp, (List.cons.inj h).2⟩
    · have hmore : begun.more ≤ 2 := more_lead (congrArg Prod.snd hlead)
      rw [hlead] at h
      obtain ⟨skipped, rest, rfl, hlength, hrest⟩ := eq_append_of_scanFrom_none h
      exact ⟨b :: skipped, rest, rfl, Nat.succ_le_succ (Nat.le_trans hlength hmore), hrest⟩

/-- A character that is read stands in the bytes. -/
theorem isInfix_of_mem_scan {bytes : Bytes} {c : Char} (h : some c ∈ scan bytes) :
    String.utf8EncodeChar c <:+: bytes := by
  generalize hitems : scan bytes = items at h
  induction items generalizing bytes with
  | nil => cases h
  | cons item items ih =>
    cases item with
    | none =>
      obtain ⟨skipped, rest, rfl, -, hrest⟩ := eq_append_of_scan_none hitems
      have hmem : some c ∈ items := (List.mem_cons.mp h).resolve_left (Option.some_ne_none c)
      exact (ih hrest hmem).trans (List.suffix_append skipped rest).isInfix
    | some d =>
      obtain ⟨rest, rfl, hrest⟩ := eq_append_of_scan hitems
      rcases List.mem_cons.mp h with heq | hmem
      · obtain rfl := Option.some.inj heq
        exact (List.prefix_append _ rest).isInfix
      · exact (ih hrest hmem).trans (List.suffix_append _ rest).isInfix

theorem isInfix_of_mem_decode {bytes : Bytes} {c : Char} (hc : c ≠ '\ufffd')
    (h : c ∈ decode bytes) : String.utf8EncodeChar c <:+: bytes := by
  obtain ⟨item, hitem, hread⟩ := List.mem_map.mp h
  cases item with
  | none => exact absurd hread.symm hc
  | some d =>
    obtain rfl : d = c := hread
    exact isInfix_of_mem_scan hitem

theorem newline_notMem_decode {bytes : Bytes} (h : 10 ∉ bytes) : '\n' ∉ decode bytes := by
  intro hmem
  have hpart : [10] <:+: bytes := isInfix_of_mem_decode (by decide) hmem
  exact h (hpart.subset List.mem_cons_self)

/-! ### How long the text is -/

theorem length_le_size_decode (bytes : Bytes) : bytes.length ≤ size (decode bytes) := by
  unfold decode
  generalize hitems : scan bytes = items
  induction items generalizing bytes with
  | nil => simp [eq_nil_of_scan hitems]
  | cons item items ih =>
    cases item with
    | none =>
      obtain ⟨skipped, rest, rfl, hlength, hrest⟩ := eq_append_of_scan_none hitems
      have hreplacement : ('\ufffd').utf8Size = 3 := rfl
      have := ih rest hrest
      rw [List.length_append, List.map_cons, size, Option.getD_none, hreplacement]
      omega
    | some c =>
      obtain ⟨rest, rfl, hrest⟩ := eq_append_of_scan hitems
      have := ih rest hrest
      rw [List.length_append, String.length_utf8EncodeChar, List.map_cons, size, Option.getD_some]
      omega

/-- Bytes without an ill-formed part are as many as their text takes. -/
theorem size_decode {bytes : Bytes} (h : (decode? bytes).isSome = true) :
    size (decode bytes) = bytes.length := by
  obtain ⟨t, ht⟩ := Option.isSome_iff_exists.mp h
  rw [← encode_of_decode? ht, decode_encode, length_encode]

end MailCapture.Text
