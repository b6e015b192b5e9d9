import MailCapture.Proofs.Wire.Rounds

/-! Conversations line by line.

The bytes of a client fall into pieces, one for each newline and one for what follows the last
(`pieces`). An undisturbed conversation takes them up one by one, each in the session that the one
before it left, until there are no more or the dialogue is over: `Heard.listFrom`. What it writes is
the answer to the client's arrival and then the reply to each piece, nothing between them
(`written_run`), and the session it leaves is the one left by the last piece (`session_run`). -/
namespace MailCapture

/-! ### Pieces -/

/-- The pieces of some bytes, each up to and including a newline, or up to the end. -/
def pieces : Bytes → List Bytes
  | [] => []
  | b :: rest =>
    if b = 10 then [b] :: pieces rest
    else match pieces rest with
      | [] => [[b]]
      | piece :: more => (b :: piece) :: more

/-- Bytes before the first newline only make its piece longer. -/
theorem pieces_before {raw : Bytes} (hraw : 10 ∉ raw) {bytes piece : Bytes} {more : List Bytes}
    (h : pieces bytes = piece :: more) : pieces (raw ++ bytes) = (raw ++ piece) :: more := by
  induction raw with
  | nil => exact h
  | cons b rest ih =>
    rw [List.mem_cons, not_or] at hraw
    rw [List.cons_append, pieces, if_neg (Ne.symm hraw.1), ih hraw.2]
    rfl

theorem pieces_newline {raw : Bytes} (hraw : 10 ∉ raw) (rest : Bytes) :
    pieces (raw ++ 10 :: rest) = (raw ++ [10]) :: pieces rest :=
  pieces_before hraw rfl

theorem pieces_all {raw : Bytes} (hraw : 10 ∉ raw) (hne : raw ≠ []) : pieces raw = [raw] := by
  obtain ⟨first, b, rfl⟩ := (List.eq_nil_or_concat raw).resolve_left hne
  rw [List.concat_eq_append] at hraw ⊢
  rw [List.mem_append, not_or] at hraw
  rw [List.mem_singleton] at hraw
  have hlast : pieces [b] = [[b]] := if_neg (Ne.symm hraw.2)
  exact pieces_before hraw.1 hlast

/-- The interpreter's cut takes the first of them. -/
theorem pieces_cut {bytes : Bytes} (hne : bytes ≠ []) :
    pieces bytes = (cutPiece bytes).1 :: pieces (cutPiece bytes).2 := by
  rcases newline_or_none bytes with ⟨raw, rest, hraw, rfl⟩ | hraw
  · rw [pieces_newline hraw, cutPiece_newline hraw]
  · rw [pieces_all hraw hne, cutPiece_all hraw]
    rfl

/-- Bytes are none, a line and more bytes, or a last piece. -/
@[elab_as_elim]
theorem bytes_induction {P : Bytes → Prop} (bytes : Bytes) (nil : P [])
    (line : ∀ raw rest, 10 ∉ raw → P rest → P (raw ++ 10 :: rest))
    (last : ∀ raw, raw ≠ [] → 10 ∉ raw → P raw) : P bytes := by
  induction hlength : bytes.length using Nat.strongRecOn generalizing bytes with
  | ind n ih =>
    rcases newline_or_none bytes with ⟨raw, rest, hraw, rfl⟩ | hraw
    · refine line raw rest hraw (ih rest.length ?_ rest rfl)
      rw [← hlength, List.length_append, List.length_cons]
      omega
    · by_cases hne : bytes = []
      · exact hne ▸ nil
      · exact last bytes hne hraw

theorem flatten_pieces (bytes : Bytes) : (pieces bytes).flatten = bytes := by
  induction bytes using bytes_induction with
  | nil => rfl
  | line raw rest hraw ih => simp [pieces_newline hraw, ih]
  | last raw hne hraw => simp [pieces_all hraw hne]

/-- A piece has no newline but at its end. -/
theorem newline_notMem_chop {bytes piece : Bytes} (h : piece ∈ pieces bytes) :
    10 ∉ chop 10 piece := by
  induction bytes using bytes_induction with
  | nil => cases h
  | line raw rest hraw ih =>
    rw [pieces_newline hraw] at h
    rcases List.mem_cons.mp h with rfl | h
    · simpa [chop] using hraw
    · exact ih h
  | last raw hne hraw =>
    rw [pieces_all hraw hne, List.mem_singleton] at h
    rw [h, chop, if_neg (getLast?_ne_newline hraw)]
    exact hraw

/-! ### Pieces in their sessions -/

/-- A piece taken up, and the session it finds. -/
structure Heard where
  session : Session
  piece : Bytes
deriving DecidableEq, Repr

namespace Heard

def round (h : Heard) : Round := .ofPiece h.session h.piece

def turn (h : Heard) : Turn := h.round.turn

/-- The bytes written in reply. -/
def reply (h : Heard) : Bytes := h.turn.answer.bytes

/-- Pieces taken up one by one until the dialogue is over. -/
def listFrom (s : Session) : List Bytes → List Heard
  | [] => []
  | piece :: rest =>
    if s.phase = .connect then []
    else
      let h : Heard := ⟨s, piece⟩
      h :: listFrom h.turn.session rest

/-- The session that some pieces leave. -/
def leave (s : Session) (heard : List Heard) : Session :=
  heard.foldl (fun _ h => h.turn.session) s

variable {s : Session} {ps : List Bytes}

theorem listFrom_cons (hs : s.phase ≠ .connect) (piece : Bytes) (rest : List Bytes) :
    listFrom s (piece :: rest) = ⟨s, piece⟩ :: listFrom (turn ⟨s, piece⟩).session rest :=
  if_neg hs

theorem listFrom_over (hs : s.phase = .connect) (ps : List Bytes) : listFrom s ps = [] := by
  cases ps with
  | nil => rfl
  | cons => exact if_pos hs

theorem rounds_listFrom (s : Session) (bytes : Bytes) :
    (listFrom s (pieces bytes)).map round = Round.listFrom s bytes := by
  induction s, bytes using Round.listFrom.induct with
  | case1 s bytes h =>
    rw [Round.listFrom, dif_pos h]
    rcases h with hs | rfl
    · rw [listFrom_over hs]
      rfl
    · rfl
  | case2 s bytes h r ih =>
    obtain ⟨hs, hne⟩ := not_or.mp h
    rw [Round.listFrom, dif_neg h, pieces_cut hne, listFrom_cons hs]
    exact congrArg (r :: ·) ih

/-- The interpreter goes on from the session that a piece leaves. -/
theorem session_interpretFrom_cut {bytes : Bytes} (hs : s.phase ≠ .connect) (hne : bytes ≠ []) :
    (interpretFrom s bytes).session =
      (interpretFrom (turn ⟨s, (cutPiece bytes).1⟩).session (cutPiece bytes).2).session := by
  rw [interpretFrom, dif_neg (not_or.mpr ⟨hs, hne⟩)]
  unfold turn round Round.ofPiece
  by_cases hfits : pieceFits s.phase.lineLimit (cutPiece bytes).1 = true
  · simp only [hfits, if_true]
    rfl
  · by_cases hdata : s.phase.isData = true
    · simp only [hfits, hdata, Session.overrun, Bool.false_eq_true, if_true, if_false]
      rw [interpretFrom, dif_pos (.inl rfl)]
    · simp only [hfits, hdata, Session.overrun, Bool.false_eq_true, if_false]
      rfl

theorem session_interpretFrom (s : Session) (bytes : Bytes) :
    (interpretFrom s bytes).session = leave s (listFrom s (pieces bytes)) := by
  induction s, bytes using Round.listFrom.induct with
  | case1 s bytes h =>
    rw [interpretFrom, dif_pos h]
    rcases h with hs | rfl
    · rw [listFrom_over hs]
      rfl
    · rfl
  | case2 s bytes h r ih =>
    obtain ⟨hs, hne⟩ := not_or.mp h
    rw [session_interpretFrom_cut hs hne, pieces_cut hne, listFrom_cons hs]
    exact ih

/-- The pieces are taken up in order, from the first. -/
theorem pieces_listFrom_isPrefix (s : Session) (ps : List Bytes) :
    (listFrom s ps).map piece <+: ps := by
  induction ps generalizing s with
  | nil => exact List.prefix_rfl
  | cons p rest ih =>
    by_cases hs : s.phase = .connect
    · rw [listFrom_over hs]
      exact List.nil_prefix
    · rw [listFrom_cons hs, List.map_cons]
      exact List.prefix_cons_inj p |>.mpr (ih _)

/-- And to the last, unless the dialogue is over before. -/
theorem pieces_listFrom_eq (h : (leave s (listFrom s ps)).phase ≠ .connect) :
    (listFrom s ps).map piece = ps := by
  induction ps generalizing s with
  | nil => rfl
  | cons p rest ih =>
    by_cases hs : s.phase = .connect
    · rw [listFrom_over hs] at h
      exact absurd hs h
    · rw [listFrom_cons hs] at h
      rw [listFrom_cons hs, List.map_cons, ih h]

/-- What every turn keeps is there when a piece is taken up. -/
theorem kept_listFrom (Kept : Session → Prop)
    (hturn : ∀ h : Heard, Kept h.session → Kept h.turn.session) (hs : Kept s) :
    ∀ h ∈ listFrom s ps, Kept h.session := by
  induction ps generalizing s with
  | nil => exact fun _ hmem => absurd hmem List.not_mem_nil
  | cons p rest ih =>
    by_cases hover : s.phase = .connect
    · rw [listFrom_over hover]
      exact fun _ hmem => absurd hmem List.not_mem_nil
    · rw [listFrom_cons hover]
      exact List.forall_mem_cons.mpr ⟨hs, ih (hturn ⟨s, p⟩ hs)⟩

/-! ### What is written -/

open Conversation in
/-- An undisturbed conversation writes the answer to the client's arrival and the replies. -/
theorem written_run (s : Session) (reads : List Bytes) (delayed : Bool) :
    (run s (reads.map .bytes) .sound .down delayed).written =
      s.greet.answer.bytes ++ (listFrom s.greet.session (pieces reads.flatten)).flatMap reply := by
  have hrounds : Round.written (Round.list s reads.flatten) =
      s.greet.answer.bytes ++ Round.written (Round.listFrom s.greet.session reads.flatten) := rfl
  show (run s (reads.map .bytes) .sound .down delayed).history.flatMap Act.bytes = _
  rw [Round.history_run, Round.written_history, hrounds, ← rounds_listFrom, Round.written,
    List.flatMap_map]
  rfl

open Conversation in
theorem session_run (s : Session) (reads : List Bytes) (delayed : Bool) :
    (run s (reads.map .bytes) .sound .down delayed).session =
      leave s.greet.session (listFrom s.greet.session (pieces reads.flatten)) := by
  rw [run_eq_closed]
  exact session_interpretFrom s.greet.session reads.flatten

end Heard
end MailCapture
