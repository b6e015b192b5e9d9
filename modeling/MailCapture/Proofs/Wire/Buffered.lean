import MailCapture.Proofs.Wire.Pieces

/-! A connection read through a buffer.

Reads of any length fill a buffer of any size, and lines are taken out of the buffer: `readUntil`
takes at most as many bytes as a line may have, and `skipLine` passes over the rest of an overlong
one. Either may have to fill the buffer again, anywhere in a line. `serve` is the loop over lines.

`run_eq_interpret`: neither the reads nor the buffer show. The loop and the conversation both do
with the bytes of the client what the interpreter does with them uncut. -/
namespace MailCapture

/-- A read, which has at least one byte: a read of none is the end of input. -/
abbrev Read := {read : Bytes // read ≠ []}

/-- The bytes of some reads. -/
def Read.bytes (reads : List Read) : Bytes := (reads.map Subtype.val).flatten

/-- A buffer in front of the reads still to come. -/
structure Buffered where
  /-- How many bytes one filling may bring. -/
  capacity : Nat
  /-- Bytes read and not yet used. -/
  buffer : Bytes := []
  reads : List Read
  capacity_pos : 0 < capacity

namespace Buffered

/-! ### Filling and using -/

/-- All that is still to come. -/
def left (r : Buffered) : Bytes := r.buffer ++ Read.bytes r.reads

/-- A read without its first bytes, if there are others. -/
def restOf (read : Read) (capacity : Nat) : List Read :=
  if h : read.val.drop capacity = [] then [] else [⟨read.val.drop capacity, h⟩]

/-- An empty buffer takes what it can of the next read. -/
def fill (r : Buffered) : Buffered :=
  match r.buffer, r.reads with
  | [], read :: rest =>
    {r with buffer := read.val.take r.capacity, reads := restOf read r.capacity ++ rest}
  | _, _ => r

def use (r : Buffered) (n : Nat) : Buffered := {r with buffer := r.buffer.drop n}

theorem bytes_restOf (read : Read) (capacity : Nat) :
    Read.bytes (restOf read capacity) = read.val.drop capacity := by
  unfold restOf Read.bytes
  split
  · next h => exact h.symm
  · exact List.append_nil _

theorem left_fill (r : Buffered) : r.fill.left = r.left := by
  obtain ⟨capacity, buffer, reads, hcapacity⟩ := r
  cases buffer with
  | cons b more => rfl
  | nil =>
    cases reads with
    | nil => rfl
    | cons read rest =>
      show read.val.take capacity ++ Read.bytes (restOf read capacity ++ rest) =
        [] ++ Read.bytes (read :: rest)
      have hbytes : Read.bytes (restOf read capacity ++ rest) =
          Read.bytes (restOf read capacity) ++ Read.bytes rest := by
        simp [Read.bytes]
      rw [hbytes, bytes_restOf, ← List.append_assoc, List.take_append_drop]
      rfl

/-- A buffer that stays empty is at the end of input. -/
theorem left_eq_nil {r : Buffered} (h : r.fill.buffer = []) : r.left = [] := by
  obtain ⟨capacity, buffer, reads, hcapacity⟩ := r
  cases buffer with
  | cons b more => exact absurd h (List.cons_ne_nil b more)
  | nil =>
    cases reads with
    | nil => rfl
    | cons read rest =>
      rcases List.take_eq_nil_iff.mp h with hzero | hread
      · exact absurd hzero (Nat.ne_of_gt hcapacity)
      · exact absurd hread read.property

/-- What is used of the buffer comes first. -/
theorem append_left_use (r : Buffered) {taken : Bytes} (h : taken <+: r.buffer) :
    taken ++ (r.use taken.length).left = r.left := by
  obtain ⟨more, hmore⟩ := h
  show taken ++ (r.buffer.drop taken.length ++ Read.bytes r.reads) = r.buffer ++ _
  rw [← hmore, List.drop_left, List.append_assoc]

/-! ### Searching for a newline -/

/-- What is used of some bytes in the search, and whether the search is over: it is at a newline,
and if there are no bytes. -/
def scan (available : Bytes) : Bytes × Bool :=
  match available.idxOf? 10 with
  | some i => (available.take (i + 1), true)
  | none => (available, available.isEmpty)

theorem scan_newline {raw : Bytes} (hraw : 10 ∉ raw) (rest : Bytes) :
    scan (raw ++ 10 :: rest) = (raw ++ [10], true) := by
  have hfound : (raw ++ 10 :: rest).idxOf? 10 = some raw.length := by
    induction raw with
    | nil => rfl
    | cons b more ih =>
      rw [List.mem_cons, not_or] at hraw
      simp [List.idxOf?_cons, Ne.symm hraw.1, ih hraw.2]
  have hlength : raw.length + 1 = (raw ++ [10]).length := by rw [List.length_append]; rfl
  simp only [scan, hfound]
  rw [List.append_cons, hlength, List.take_left]

theorem scan_none {raw : Bytes} (hraw : 10 ∉ raw) : scan raw = (raw, raw.isEmpty) := by
  have hfound : raw.idxOf? 10 = none := List.idxOf?_eq_none_iff.mpr hraw
  simp only [scan, hfound]

theorem scan_isPrefix (available : Bytes) : (scan available).1 <+: available := by
  unfold scan
  split
  · exact List.take_prefix ..
  · exact List.prefix_rfl

/-- A search that is not over has used something. -/
theorem scan_pos {available : Bytes} (h : (scan available).2 = false) :
    0 < (scan available).1.length := by
  unfold scan at h ⊢
  split at h
  · cases h
  · exact List.length_pos_iff.mpr (List.isEmpty_eq_false_iff.mp h)

/-- A search that is over has used the next piece. -/
theorem scan_over {available bytes : Bytes} (hstart : available <+: bytes)
    (hempty : available = [] → bytes = []) (hover : (scan available).2 = true) :
    (scan available).1 = (cutPiece bytes).1 := by
  obtain ⟨more, rfl⟩ := hstart
  rcases newline_or_none available with ⟨raw, rest, hraw, rfl⟩ | hraw
  · rw [scan_newline hraw, List.append_assoc, List.cons_append, cutPiece_newline hraw]
  · rw [scan_none hraw] at hover
    have hnil := List.isEmpty_iff.mp hover
    rw [hempty hnil, hnil]
    rfl

/-- A search that is not over has come past no newline. -/
theorem scan_more {available : Bytes} (hmore : ¬ (scan available).2 = true) :
    10 ∉ (scan available).1 := by
  rcases newline_or_none available with ⟨raw, rest, hraw, rfl⟩ | hraw
  · rw [scan_newline hraw] at hmore
    exact absurd rfl hmore
  · rwa [scan_none hraw]

theorem length_scan_take (limit : Nat) (available : Bytes) :
    (scan (available.take limit)).1.length ≤ limit :=
  Nat.le_trans (scan_isPrefix _).length_le (List.length_take_le ..)

/-! ### Taking lines -/

/-- The bytes up to and including the next newline, but at most `limit`. -/
def readUntil (limit : Nat) (r : Buffered) : Bytes × Buffered :=
  if _ : limit = 0 then ([], r)
  else
    let used := (scan (r.fill.buffer.take limit)).1
    let after := r.fill.use used.length
    if _ : (scan (r.fill.buffer.take limit)).2 then (used, after)
    else
      let further := readUntil (limit - used.length) after
      (used ++ further.1, further.2)
termination_by limit
decreasing_by
  have := scan_pos (Bool.eq_false_iff.mpr ‹¬ (scan _).2 = true›)
  omega

/-- Passes over everything up to and including the next newline. -/
def skipLine (r : Buffered) : Buffered :=
  let used := (scan r.fill.buffer).1
  let after := r.fill.use used.length
  if _ : (scan r.fill.buffer).2 then after else skipLine after
termination_by r.left.length
decreasing_by
  have hused := append_left_use r.fill (scan_isPrefix r.fill.buffer)
  have hpos := scan_pos (Bool.eq_false_iff.mpr ‹¬ (scan _).2 = true›)
  have hlength := congrArg List.length hused
  rw [List.length_append, left_fill] at hlength
  omega

/-- A search sees a start of what is still to come. -/
theorem fill_buffer_isPrefix (r : Buffered) : r.fill.buffer <+: r.left := by
  rw [← left_fill]
  exact List.prefix_append ..

theorem append_left_scan (r : Buffered) {available : Bytes} (h : available <+: r.fill.buffer) :
    (scan available).1 ++ (r.fill.use (scan available).1.length).left = r.left :=
  (append_left_use r.fill ((scan_isPrefix available).trans h)).trans r.left_fill

/-- What is taken is the next piece, as far as the limit, and nothing is lost. -/
theorem readUntil_spec (limit : Nat) (r : Buffered) :
    (r.readUntil limit).1 = (cutPiece r.left).1.take limit ∧
      (r.readUntil limit).1 ++ (r.readUntil limit).2.left = r.left := by
  induction limit, r using readUntil.induct with
  | case1 r =>
    rw [readUntil, dif_pos rfl]
    exact ⟨rfl, rfl⟩
  | case2 limit r hlimit hover =>
    rw [readUntil, dif_neg hlimit, dif_pos hover]
    have hseen := List.take_prefix limit r.fill.buffer
    have hpiece := scan_over (hseen.trans r.fill_buffer_isPrefix)
      (fun hnil => left_eq_nil ((List.take_eq_nil_iff.mp hnil).resolve_left hlimit)) hover
    refine ⟨?_, append_left_scan r hseen⟩
    rw [← hpiece]
    exact (List.take_of_length_le (length_scan_take ..)).symm
  | case3 limit r hlimit used after hmore ih =>
    rw [readUntil, dif_neg hlimit, dif_neg hmore]
    have hlength : used.length ≤ limit := length_scan_take ..
    have hleft : used ++ after.left = r.left := append_left_scan r (List.take_prefix ..)
    have hpiece := cutPiece_before (show 10 ∉ used from scan_more hmore) after.left
    rw [hleft] at hpiece
    refine ⟨?_, ?_⟩
    · show used ++ (after.readUntil (limit - used.length)).1 = _
      rw [ih.1, hpiece, List.take_append, List.take_of_length_le hlength]
    · show used ++ (after.readUntil (limit - used.length)).1 ++ _ = _
      rw [List.append_assoc, ih.2, hleft]

/-- What is passed over is the next piece. -/
theorem left_skipLine (r : Buffered) : r.skipLine.left = (cutPiece r.left).2 := by
  induction r using skipLine.induct with
  | case1 r hover =>
    rw [skipLine, dif_pos hover]
    have hpiece := scan_over r.fill_buffer_isPrefix left_eq_nil hover
    have hleft := append_left_scan r List.prefix_rfl
    rw [← cutPiece_append r.left] at hleft
    rw [hpiece] at hleft ⊢
    exact List.append_cancel_left hleft
  | case2 r used after hmore ih =>
    rw [skipLine, dif_neg hmore, ih]
    have hleft : used ++ after.left = r.left := append_left_scan r List.prefix_rfl
    rw [← hleft, cutPiece_before (show 10 ∉ used from scan_more hmore)]

variable {r : Buffered} {limit : Nat} {raw rest : Bytes}

/-- A line below the limit is taken with its newline. -/
theorem readUntil_newline (hleft : r.left = raw ++ 10 :: rest) (hraw : 10 ∉ raw)
    (hfits : raw.length < limit) :
    (r.readUntil limit).1 = raw ++ [10] ∧ (r.readUntil limit).2.left = rest := by
  obtain ⟨htaken, happend⟩ := readUntil_spec limit r
  have hline : (r.readUntil limit).1 = raw ++ [10] := by
    rw [htaken, hleft, cutPiece_newline hraw]
    exact List.take_of_length_le (by rw [List.length_append]; exact hfits)
  refine ⟨hline, ?_⟩
  rw [hline, hleft, List.append_assoc] at happend
  exact List.cons.inj (List.append_cancel_left happend) |>.2

/-- So is a last line, which has none. -/
theorem readUntil_all (hleft : r.left = raw) (hraw : 10 ∉ raw) (hfits : raw.length < limit) :
    (r.readUntil limit).1 = raw ∧ (r.readUntil limit).2.left = [] := by
  obtain ⟨htaken, happend⟩ := readUntil_spec limit r
  have hline : (r.readUntil limit).1 = raw := by
    rw [htaken, hleft, cutPiece_all hraw]
    exact List.take_of_length_le (Nat.le_of_lt hfits)
  refine ⟨hline, ?_⟩
  rw [hline, hleft] at happend
  exact List.append_right_eq_self.mp happend

/-- Of an overlong line the start is taken, and the rest can be passed over. -/
theorem readUntil_long (hleft : r.left = raw ++ rest) (hraw : 10 ∉ raw)
    (hlong : limit ≤ raw.length) :
    (r.readUntil limit).1 = raw.take limit ∧
      (r.readUntil limit).2.skipLine.left = (cutPiece rest).2 := by
  obtain ⟨htaken, happend⟩ := readUntil_spec limit r
  have hline : (r.readUntil limit).1 = raw.take limit := by
    rw [htaken, hleft, cutPiece_before hraw, List.take_append_of_le_length hlong]
  have hdrop : 10 ∉ raw.drop limit := fun h => hraw (List.mem_of_mem_drop h)
  refine ⟨hline, ?_⟩
  rw [hline, hleft, ← List.take_append_drop limit raw, List.append_assoc,
    List.take_append_drop] at happend
  rw [left_skipLine, List.append_cancel_left happend, cutPiece_before hdrop]

/-! ### Serving -/

theorem length_readUntil (h : (r.readUntil limit).1 ≠ []) :
    (r.readUntil limit).2.left.length < r.left.length := by
  have hlength := congrArg List.length (readUntil_spec limit r).2
  have hpos := List.length_pos_iff.mpr h
  rw [List.length_append] at hlength
  omega

theorem length_skipLine (r : Buffered) : r.skipLine.left.length ≤ r.left.length := by
  have hlength := congrArg List.length (cutPiece_append r.left)
  rw [List.length_append, ← left_skipLine] at hlength
  omega

/-- Lines in turn, until there is none or the dialogue is over. A line that has all the bytes it may
have and does not end in a newline is overlong. -/
def serve (r : Buffered) (s : Session) : Course :=
  if s.phase = .connect then { session := s }
  else
    let line := (r.readUntil s.phase.lineLimit).1
    let after := (r.readUntil s.phase.lineLimit).2
    if _ : line = [] then { session := s }
    else if line.length = s.phase.lineLimit ∧ line.getLast? ≠ some 10 then
      if s.phase.isData then { session := s.breakOff, acts := Act.refusal .connect }
      else (after.skipLine.serve s).behind (Act.refusal s.phase)
    else
      let turn := s.accept (pieceText line)
      (after.serve turn.session).behind turn.acts
termination_by r.left.length
decreasing_by
  · exact Nat.lt_of_le_of_lt (length_skipLine _) (length_readUntil ‹_›)
  · exact length_readUntil ‹_›

/-- The greeting, and then the lines. -/
def talk (r : Buffered) (s : Session) : Course :=
  (r.serve s.greet.session).behind s.greet.acts

variable {s : Session}

theorem serve_fits {line : Bytes} {after : Buffered} (going : s.phase ≠ .connect)
    (hread : r.readUntil s.phase.lineLimit = (line, after)) (hne : line ≠ [])
    (hfits : ¬ (line.length = s.phase.lineLimit ∧ line.getLast? ≠ some 10)) :
    r.serve s = (after.serve (s.accept (pieceText line)).session).behind
      (s.accept (pieceText line)).acts := by
  rw [serve, if_neg going]
  simp only [hread]
  rw [dif_neg hne, if_neg hfits]

theorem serve_over (h : s.phase = .connect ∨ r.left = []) : r.serve s = { session := s } := by
  by_cases hs : s.phase = .connect
  · rw [serve, if_pos hs]
  · have hline : (r.readUntil s.phase.lineLimit).1 = [] := by
      rw [(readUntil_spec ..).1, h.resolve_left hs]
      exact List.take_nil
    rw [serve, if_neg hs]
    exact dif_pos hline

/-- At the start of an overlong line. -/
theorem serve_long (going : s.phase ≠ .connect) (hleft : r.left = raw ++ rest) (hraw : 10 ∉ raw)
    (hlong : s.phase.lineLimit ≤ raw.length) :
    ∃ after : Buffered, after.left = (cutPiece rest).2 ∧
      r.serve s = if s.phase.isData then { session := s.breakOff, acts := Act.refusal .connect }
        else (after.serve s).behind (Act.refusal s.phase) := by
  obtain ⟨hline, hafter⟩ := readUntil_long hleft hraw hlong
  have hlength : (raw.take s.phase.lineLimit).length = s.phase.lineLimit :=
    List.length_take_of_le hlong
  have hne : raw.take s.phase.lineLimit ≠ [] := by
    rw [← List.length_pos_iff, hlength]
    exact s.phase.lineLimit_pos
  have hlast : (raw.take s.phase.lineLimit).getLast? ≠ some 10 :=
    getLast?_ne_newline fun h => hraw (List.mem_of_mem_take h)
  refine ⟨_, hafter, ?_⟩
  rw [serve, if_neg going]
  simp only [hline]
  rw [dif_neg hne, if_pos ⟨hlength, hlast⟩]

/-- The loop over lines goes the interpreter's way, wherever the buffer is. -/
theorem serve_eq {bytes : Bytes} {o : Course} (h : Interprets s bytes o) {r : Buffered}
    (hleft : r.left = bytes) : r.serve s = o := by
  induction h generalizing r with
  | ended h => exact serve_over (hleft ▸ h)
  | line going newline fits next ih =>
    obtain ⟨hline, hafter⟩ := readUntil_newline hleft newline fits
    rw [serve_fits going (Prod.ext hline rfl) (by simp) (by simp), pieceText_newline, ih hafter]
  | lastLine going newline nonempty fits =>
    obtain ⟨hline, hafter⟩ := readUntil_all hleft newline fits
    rw [serve_fits going (Prod.ext hline rfl) nonempty (fun h => Nat.ne_of_lt fits h.1),
      pieceText_all newline, serve_over (.inr hafter), Course.behind, List.append_nil]
  | longData data newline long =>
    obtain ⟨after, -, hserve⟩ := serve_long (Phase.ne_connect_of_isData data) hleft newline long
    rw [hserve, if_pos data]
  | longCommand going command newline long next ih =>
    obtain ⟨after, hafter, hserve⟩ := serve_long going hleft newline long
    rw [hserve, if_neg (Bool.eq_false_iff.mp command), ih hafter]
  | lastLongCommand going command newline long =>
    obtain ⟨after, hafter, hserve⟩ :=
      serve_long going (hleft.trans (List.append_nil _).symm) newline long
    rw [hserve, if_neg (Bool.eq_false_iff.mp command), serve_over (.inr hafter), Course.behind,
      List.append_nil]

/-- The same with the greeting first. -/
theorem talk_eq_interpret (r : Buffered) (s : Session) : r.talk s = interpret s r.left := by
  rw [talk, interpret, serve_eq (interprets_interpretFrom ..) rfl]

end Buffered

/-! ### The cut does not show -/

open Conversation in
/-- Neither the reads nor the size of the buffer show in what a conversation does. -/
theorem run_eq_interpret (bytes : Bytes) (reads : List Read) (hcut : Read.bytes reads = bytes)
    (capacity : Nat) (hcapacity : 0 < capacity) (s : Session) (delayed : Bool) :
    let c := run s (reads.map (.bytes ·.val)) .sound .down delayed
    let r : Buffered := { capacity, reads, capacity_pos := hcapacity }
    let o := interpret s bytes
    (c.written = o.written ∧ c.deliveries = o.deliveries ∧ c.session = o.session) ∧
      (c.history = o.acts ∧ c.failure? = none) ∧ r.talk s = o := by
  intro c r o
  have hclosed : c = closed o.session delayed o.acts := by
    have h := run_eq_closed s (reads.map (·.val)) delayed
    rwa [List.map_map, show (reads.map (·.val)).flatten = bytes from hcut] at h
  have hhistory : c.history = o.acts := by rw [hclosed, history_closed]
  refine ⟨⟨?_, ?_, ?_⟩, ⟨hhistory, ?_⟩, ?_⟩
  · rw [written, hhistory]
    rfl
  · rw [deliveries, hhistory]
    rfl
  · rw [hclosed]
    rfl
  · rw [hclosed]
    rfl
  · rw [Buffered.talk_eq_interpret]
    exact congrArg (interpret s) hcut

/-- Two commands, the second without a newline, cut inside their words and between the carriage
return and the newline. -/
def cutInside : List Read :=
  [⟨Text.encode "NO".toList, by decide⟩, ⟨Text.encode "OP\r".toList, by decide⟩,
    ⟨Text.encode "\nLIS".toList, by decide⟩, ⟨Text.encode "T".toList, by decide⟩]

theorem run_eq_interpret_cutInside :
    (interpret { hostname := "mx".toList } (Text.encode "NOOP\r\nLIST".toList)).written =
      Text.encode
        "220 mx SMTP service ready\r\n250 OK\r\n252 Not supported\r\n".toList := by
  have h := run_eq_interpret (Text.encode "NOOP\r\nLIST".toList) cutInside (by decide) 2
    (by decide) { hostname := "mx".toList } false
  exact h.1.1.symm.trans (by decide +kernel)

end MailCapture
