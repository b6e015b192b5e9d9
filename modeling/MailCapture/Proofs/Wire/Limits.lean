import MailCapture.Proofs.Session.Sums
import MailCapture.Proofs.Wire.Replies

/-! What the size limit counts.

A session adds up the lines of message data from the 354 on, each with two bytes for its line end,
and gives the message up at the line that takes the sum past the limit. But it adds up what it has
read, not what came in (`answered_552_iff`). Where the bytes are not UTF-8, U+FFFD has been read in
place of one, two or three of them and counts as three: the sum can only be too large, and it is
exact for a message without such a part. `sizeLimit_run` says when the difference shows: at a line
where the bytes that came in are still within the limit and the sum is past it.
`replacement_refused` is such a message. -/
namespace MailCapture

/-! ### Sizes -/

namespace Heard

/-- The bytes of a line without its line end. -/
def raw (h : Heard) : Bytes := chop 13 (chop 10 h.piece)

/-- What a line takes as it came in. -/
def rawSize (h : Heard) : Nat := h.raw.length + 2

/-- What it is counted as. -/
def countedSize (h : Heard) : Nat := Session.lineSize (pieceText h.piece)

/-- What some lines take together. -/
def total (size : Heard → Nat) : List Heard → Nat
  | [] => 0
  | h :: rest => size h + total size rest

theorem total_concat (size : Heard → Nat) (lines : List Heard) (h : Heard) :
    total size (lines ++ [h]) = total size lines + size h := by
  induction lines with
  | nil => exact Nat.add_comm (size h) 0
  | cons first rest ih =>
    rw [List.cons_append, total, ih, total]
    omega

theorem rawSize_le_countedSize (h : Heard) : h.rawSize ≤ h.countedSize :=
  Nat.add_le_add_right (Text.length_le_size_decode h.raw) 2

theorem countedSize_eq {h : Heard} (hread : (Text.decode? h.raw).isSome = true) :
    h.countedSize = h.rawSize :=
  congrArg (· + 2) (Text.size_decode hread)

theorem total_rawSize_le (lines : List Heard) :
    total rawSize lines ≤ total countedSize lines := by
  induction lines with
  | nil => exact Nat.le_refl 0
  | cons h rest ih => exact Nat.add_le_add h.rawSize_le_countedSize ih

theorem total_countedSize_eq {lines : List Heard}
    (hread : ∀ h ∈ lines, (Text.decode? h.raw).isSome = true) :
    total countedSize lines = total rawSize lines := by
  induction lines with
  | nil => rfl
  | cons h rest ih =>
    obtain ⟨hfirst, hrest⟩ := List.forall_mem_cons.mp hread
    rw [total, total, countedSize_eq hfirst, ih hrest]

end Heard

/-! ### What was counted so far -/

namespace Session
variable {hostname : Text} {limit : Nat} {s : Session}

theorem Standing.overrun (h : Standing hostname limit s) :
    Standing hostname limit s.overrun.session := by
  unfold Session.overrun
  simp only
  split
  · exact h.discarded rfl
  · exact h

end Session

namespace Heard
variable {hostname : Text} {limit : Nat} {s : Session} {ps : List Bytes} {h : Heard}

theorem standing_turn (hs : Session.Standing hostname limit h.session) :
    Session.Standing hostname limit h.turn.session := by
  by_cases hfits : pieceFits h.session.phase.lineLimit h.piece = true
  · rw [turn_fits hfits]
    exact hs.accept _
  · rw [turn_long hfits]
    exact hs.overrun

/-- At the 354 nothing has been counted yet. -/
theorem received_startInput (hs : Session.Standing hostname limit h.session)
    (hcode : h.turn.answer.code? = some 354) : h.turn.session.received = 0 := by
  by_cases hfits : pieceFits h.session.phase.lineLimit h.piece = true
  · rw [turn_fits hfits] at hcode ⊢
    exact (hs.startInput hcode).2
  · rw [turn_long hfits] at hcode
    cases hcode

/-- A line of message data that leaves the session in message data has been counted. -/
theorem received_turn (hdata : h.session.phase.isData = true)
    (hnext : h.turn.session.phase.isData = true) :
    h.turn.session.received = h.session.received + h.countedSize := by
  by_cases hfits : pieceFits h.session.phase.lineLimit h.piece = true
  · have hturn := dataTurn hdata hfits
    generalize h.turn = t at hturn hnext
    cases hturn with
    | tooMuch | dot => cases hnext
    | emptyLine | bodyLine => rfl
    | headerLine => rw [Session.draftHeader_eq_take]; rfl
  · rw [turn_long hfits, Session.overrun, if_pos hdata] at hnext
    cases hnext

/-- The first piece taken up finds the session there is. -/
theorem session_head {later : List Heard} (hlist : listFrom s ps = h :: later) :
    h.session = s ∧ ∃ rest, later = listFrom h.turn.session rest := by
  cases ps with
  | nil => cases hlist
  | cons p rest =>
    by_cases hs : s.phase = .connect
    · rw [listFrom_over hs] at hlist
      cases hlist
    · rw [listFrom_cons hs] at hlist
      obtain ⟨rfl, rfl⟩ := List.cons.inj hlist
      exact ⟨rfl, rest, rfl⟩

/-- What is taken up after a piece is taken up in the session that it leaves. -/
theorem listFrom_split {earlier later : List Heard}
    (hlist : listFrom s ps = earlier ++ h :: later) : ∃ rest, later = listFrom h.turn.session rest := by
  induction earlier generalizing s ps with
  | nil => exact (session_head hlist).2
  | cons first more ih =>
    obtain ⟨-, rest, hrest⟩ := session_head hlist
    exact ih hrest.symm

/-- What has been counted when a line of message data is taken up. -/
theorem received_listFrom {data later : List Heard} (hlist : listFrom s ps = data ++ h :: later)
    (hdata : ∀ x ∈ data ++ [h], x.session.phase.isData = true) :
    h.session.received = s.received + total countedSize data := by
  induction data generalizing s ps with
  | nil =>
    rw [(session_head hlist).1]
    rfl
  | cons x data ih =>
    obtain ⟨hx, rest, hrest⟩ := session_head hlist
    obtain ⟨hfirst, hmore⟩ := List.forall_mem_cons.mp hdata
    have hnext : x.turn.session.phase.isData = true := by
      cases data with
      | nil =>
        rw [← (session_head hrest.symm).1]
        exact hmore h List.mem_cons_self
      | cons y more =>
        rw [← (session_head hrest.symm).1]
        exact hmore y List.mem_cons_self
    rw [ih hrest.symm hmore, received_turn hfirst hnext, ← hx, Nat.add_assoc]
    rfl

/-- Only the line that takes the sum past the limit is answered 552. -/
theorem answered_552_iff (hdata : h.session.phase.isData = true) :
    h.turn.answer.code? = some 552 ↔ pieceFits h.session.phase.lineLimit h.piece = true ∧
      h.session.sizeLimit < h.session.received + h.countedSize := by
  by_cases hfits : pieceFits h.session.phase.lineLimit h.piece = true
  · have hturn := dataTurn hdata hfits
    generalize h.turn = t at hturn
    cases hturn with
    | tooMuch hexcess => exact iff_of_true rfl ⟨hfits, Nat.lt_of_not_le hexcess⟩
    | dot hsize | emptyLine hsize | headerLine hsize | bodyLine hsize =>
      exact iff_of_false nofun fun hexcess => Nat.not_lt_of_le hsize hexcess.2
  · rw [turn_long hfits]
    exact iff_of_false nofun fun hexcess => hfits hexcess.1

/-- And it ends the dialogue. -/
theorem phase_of_answered_552 (hdata : h.session.phase.isData = true)
    (hcode : h.turn.answer.code? = some 552) : h.turn.session.phase = .connect := by
  obtain ⟨hfits, hexcess⟩ := (answered_552_iff hdata).mp hcode
  rw [turn_fits hfits, Session.accept_tooMuch hdata (Nat.not_le_of_lt hexcess)]
  rfl

end Heard

open Heard in
/-- **The size limit is kept on what was read.** Take a conversation of a new session, the pieces
it takes up, and among them the lines of a message from its 354 on. One of these lines is answered
552 exactly if it is not overlong and, as they are counted, the lines up to it are past the limit;
no more is taken up then. The bytes that came in are never more than that and are as many if all of
them are UTF-8. So of a line that is not overlong it is right to say that the bytes that came in
decide, unless they are still within the limit when the count is past it. -/
theorem sizeLimit_run (hostname : Text) (limit : Nat) (reads : List Bytes) (delayed : Bool) :
    let new : Session := { hostname, sizeLimit := limit }
    let c := Conversation.run new (reads.map .bytes) .sound .down delayed
    let sent := pieces reads.flatten
    let heard := listFrom new.greet.session sent
    c.written = new.greet.answer.bytes ++ heard.flatMap reply ∧
      (heard.map piece <+: sent ∧ (c.session.phase ≠ .connect → heard.map piece = sent)) ∧
      ∀ earlier d data h later, heard = earlier ++ d :: (data ++ h :: later) →
        d.turn.answer.code? = some 354 → (∀ x ∈ data ++ [h], x.session.phase.isData = true) →
        let lines := data ++ [h]
        (h.turn.answer.code? = some 552 ↔
          pieceFits h.session.phase.lineLimit h.piece = true ∧ limit < total countedSize lines) ∧
        (h.turn.answer.code? = some 552 → later = []) ∧
        total rawSize lines ≤ total countedSize lines ∧
        ((∀ x ∈ lines, (Text.decode? x.raw).isSome = true) →
          total countedSize lines = total rawSize lines) ∧
        (pieceFits h.session.phase.lineLimit h.piece = true →
          ((h.turn.answer.code? = some 552 ↔ limit < total rawSize lines) ↔
            ¬(total rawSize lines ≤ limit ∧ limit < total countedSize lines))) := by
  intro new c sent heard
  refine ⟨written_run new reads delayed, ⟨pieces_listFrom_isPrefix _ sent, fun hphase => ?_⟩, ?_⟩
  · rw [show c.session = leave _ heard from session_run new reads delayed] at hphase
    exact pieces_listFrom_eq hphase
  intro earlier d data h later hheard hstart hdata lines
  have hnew : Session.Standing hostname limit new := .closed rfl
  have hstanding : ∀ x ∈ heard, Session.Standing hostname limit x.session :=
    kept_listFrom _ (fun _ => standing_turn) hnew.greet
  have hd : Session.Standing hostname limit d.session := hstanding d (by simp [hheard])
  have hh : Session.Standing hostname limit h.session := hstanding h (by simp [hheard])
  obtain ⟨rest, hrest⟩ := listFrom_split hheard
  have hlast : h.session.phase.isData = true := hdata h (by simp)
  have hreceived : h.session.received + h.countedSize = total countedSize lines := by
    rw [received_listFrom hrest.symm hdata, received_startInput hd hstart, Nat.zero_add]
    exact (total_concat countedSize data h).symm
  have hiff := answered_552_iff hlast
  rw [hh.settings.2, hreceived] at hiff
  have hle := total_rawSize_le lines
  refine ⟨hiff, fun hcode => ?_, hle, total_countedSize_eq, fun hfits => ?_⟩
  · obtain ⟨more, hmore⟩ := listFrom_split hrest.symm
    rw [hmore, listFrom_over (phase_of_answered_552 hlast hcode)]
  · rw [hiff]
    simp only [hfits, true_and]
    omega

/-- A transaction with one line of body. -/
def oneLine (body : Bytes) : List Bytes :=
  [Text.encode "MAIL FROM:<a>\r\nRCPT TO:<b>\r\nDATA\r\n\r\n".toList, body,
    Text.encode "\r\n.\r\n".toList]

open Heard in
/-- Nine bytes of UTF-8 do not fit into eight. -/
theorem sizeLimit_run_wellFormed :
    let new : Session := { hostname := "localhost".toList, sizeLimit := 8 }
    let heard := listFrom new.greet.session (pieces (oneLine (Text.encode ['é'])).flatten)
    ∃ earlier d data h, heard = earlier ++ d :: (data ++ [h]) ∧
      (∀ x ∈ data ++ [h], (Text.decode? x.raw).isSome = true) ∧
      total rawSize (data ++ [h]) = 9 ∧ h.turn.answer.code? = some 552 := by
  intro new heard
  obtain ⟨-, -, hlines⟩ := sizeLimit_run "localhost".toList 8 (oneLine (Text.encode ['é'])) false
  have hheard : heard = heard.take 2 ++ heard[2] :: ([heard[3], heard[4]] ++ [heard[5]]) := by decide
  have hread : ∀ x ∈ [heard[3], heard[4]] ++ [heard[5]], (Text.decode? x.raw).isSome = true := by
    decide
  have hraw : total rawSize ([heard[3], heard[4]] ++ [heard[5]]) = 9 := by decide
  obtain ⟨hiff, -, -, hcounted, -⟩ := hlines _ _ _ _ [] hheard (by decide) (by decide)
  refine ⟨_, _, _, _, hheard, hread, hraw, hiff.mpr ⟨by decide, ?_⟩⟩
  rw [hcounted hread, hraw]
  decide

open Heard in
/-- **A byte that is not UTF-8 counts for three.** The lines of this message come to eight bytes,
which is the limit, and none of them is overlong; its dot is answered 552, and it is lost. -/
theorem replacement_refused :
    let new : Session := { hostname := "localhost".toList, sizeLimit := 8 }
    let c := Conversation.run new ((oneLine [0xff]).map .bytes) .sound .down false
    let heard := listFrom new.greet.session (pieces (oneLine [0xff]).flatten)
    (∃ earlier d data h, heard = earlier ++ d :: (data ++ [h]) ∧
      d.turn.answer.code? = some 354 ∧
      (∀ x ∈ data ++ [h], x.session.phase.isData = true ∧
        pieceFits x.session.phase.lineLimit x.piece = true) ∧
      total rawSize (data ++ [h]) = 8 ∧ h.turn.answer.code? = some 552) ∧
      c.deliveries = [] := by
  intro new c heard
  refine ⟨⟨heard.take 2, heard[2], [heard[3], heard[4]], heard[5], ?_⟩, ?_⟩ <;> decide

end MailCapture
