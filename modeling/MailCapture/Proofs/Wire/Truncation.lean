import Mathlib.Data.List.DropRight
import MailCapture.Proofs.Text.WellFormed
import MailCapture.Proofs.Wire.Disturbed

/-! Input that ends too early.

A client that goes away leaves a stretch of whole lines and then, maybe, a line without its end.
Whole lines deliver nothing unless one of them is a dot alone (`deliveries_open`), so only the line
without its end can. It counts as a line, and so a dot, or a dot and a carriage return, is taken for
the end of the message even if it was the start of something else. `truncated_run` says that this is
the only way in which a message cut off is delivered. -/
namespace MailCapture

/-! ### Stretches of lines -/

/-- Nothing, or lines with their newlines. -/
def WholeLines (bytes : Bytes) : Prop := bytes = [] ∨ bytes.getLast? = some 10

/-- One of the lines has its newline and is a dot alone, maybe with a carriage return. -/
def HasDotLine (bytes : Bytes) : Prop :=
  [10, 46, 10] <:+: 10 :: bytes ∨ [10, 46, 13, 10] <:+: 10 :: bytes

instance (bytes : Bytes) : Decidable (WholeLines bytes) := inferInstanceAs (Decidable (_ ∨ _))

instance (bytes : Bytes) : Decidable (HasDotLine bytes) := inferInstanceAs (Decidable (_ ∨ _))

theorem WholeLines.of_line {raw rest : Bytes} (h : WholeLines (raw ++ 10 :: rest)) :
    WholeLines rest := by
  rcases h with h | h
  · exact absurd h (List.append_ne_nil_of_right_ne_nil raw (List.cons_ne_nil 10 rest))
  · cases rest with
    | nil => exact .inl rfl
    | cons b rest =>
      rw [List.getLast?_append_cons, List.getLast?_cons_cons] at h
      exact .inr h

theorem WholeLines.append {first rest : Bytes} (hfirst : WholeLines first)
    (hrest : WholeLines rest) : WholeLines (first ++ rest) := by
  rcases hrest with rfl | hrest
  · rwa [List.append_nil]
  · exact .inr (List.getLast?_append.trans (by rw [hrest]; rfl))

/-- They leave nothing over. -/
theorem WholeLines.eq_nil {raw : Bytes} (h : WholeLines raw) (hraw : 10 ∉ raw) : raw = [] :=
  h.resolve_right (getLast?_ne_newline hraw)

theorem HasDotLine.of_line {raw rest : Bytes} (h : HasDotLine rest) :
    HasDotLine (raw ++ 10 :: rest) := by
  have hrest : 10 :: rest <:+: 10 :: (raw ++ 10 :: rest) := ⟨10 :: raw, [], by simp⟩
  exact h.imp (·.trans hrest) (·.trans hrest)

theorem HasDotLine.of_isPrefix {first bytes : Bytes} (h : HasDotLine first)
    (hbegins : first <+: bytes) : HasDotLine bytes := by
  have hinfix : 10 :: first <:+: 10 :: bytes := (List.cons_prefix_cons.mpr ⟨rfl, hbegins⟩).isInfix
  exact h.imp (·.trans hinfix) (·.trans hinfix)

/-- The whole lines come first, and what is left has no newline. -/
theorem wholeLines_rdropWhile (bytes : Bytes) : WholeLines (bytes.rdropWhile (· ≠ 10)) := by
  by_cases hnil : bytes.rdropWhile (· ≠ 10) = []
  · exact .inl hnil
  · refine .inr ?_
    have hlast := List.rdropWhile_last_not _ _ hnil
    rw [List.getLast?_eq_some_getLast hnil]
    simpa using hlast

theorem newline_notMem_rtakeWhile (bytes : Bytes) : 10 ∉ bytes.rtakeWhile (· ≠ 10) := fun hmem => by
  simpa using List.mem_rtakeWhile_imp hmem

/-! ### Dots -/

namespace Text

theorem decode_eq_dot {bytes : Bytes} : decode bytes = ['.'] ↔ bytes = [46] := by
  constructor
  · intro h
    obtain ⟨item, hscan, hitem⟩ := List.map_eq_singleton_iff.mp h
    obtain rfl : item = some '.' := by
      cases item with
      | some c => exact congrArg some hitem
      | none => exact absurd hitem (by decide)
    exact (encode_of_scan (t := ['.']) hscan).symm
  · rintro rfl
    rfl

end Text

/-- The lines that are a dot alone. -/
theorem lineText_eq_dot {raw : Bytes} :
    Conversation.lineText raw = ['.'] ↔ raw = [46] ∨ raw = [46, 13] := by
  rw [Conversation.lineText, Text.decode_eq_dot]
  split
  · next hlast =>
    obtain ⟨front, rfl⟩ := List.getLast?_eq_some_iff.mp hlast
    rw [List.dropLast_concat]
    constructor
    · rintro rfl
      exact .inr rfl
    · rintro (h | h)
      · simp [List.append_eq_cons_iff] at h
      · exact (List.append_inj_left' h rfl : front = [46])
  · next hlast =>
    refine ⟨.inl, fun h => h.resolve_right ?_⟩
    rintro rfl
    exact hlast rfl

/-! ### The interpreter -/

/-- Once the dialogue is over there is nothing to interpret. -/
theorem interpretFrom_connect {s : Session} (hs : s.phase = .connect) (bytes : Bytes) :
    interpretFrom s bytes = { session := s } := by
  rw [interpretFrom, dif_pos (.inl hs)]

theorem Interprets.append {s : Session} {bytes : Bytes} {o : Course} (h : Interprets s bytes o)
    (hwhole : WholeLines bytes) (rest : Bytes) :
    Interprets s (bytes ++ rest) ((interpretFrom o.session rest).behind o.acts) := by
  induction h with
  | @ended s bytes h =>
    show Interprets s (bytes ++ rest) (interpretFrom s rest)
    rcases h with hs | rfl
    · rw [interpretFrom_connect hs]
      exact .ended (.inl hs)
    · exact interprets_interpretFrom s rest
  | @line s raw more o going newline fits next ih =>
    have hnext := Interprets.line going newline fits (ih hwhole.of_line)
    simpa only [Course.behind, List.append_assoc, List.cons_append] using hnext
  | lastLine going newline nonempty fits => exact absurd (hwhole.eq_nil newline) nonempty
  | @longData s raw more data newline long =>
    have hlong : Interprets s (raw ++ (more ++ rest)) _ := .longData data newline long
    rw [interpretFrom_connect rfl]
    simpa only [Course.behind, List.append_assoc, List.append_nil] using hlong
  | @longCommand s raw more o going command newline long next ih =>
    have hnext := Interprets.longCommand going command newline long (ih hwhole.of_line)
    simpa only [Course.behind, List.append_assoc, List.cons_append] using hnext
  | @lastLongCommand s raw going command newline long =>
    rw [hwhole.eq_nil newline] at long
    exact absurd s.phase.lineLimit_pos (Nat.not_lt_of_le long)

/-- What comes after whole lines is interpreted where they leave off. -/
theorem interpretFrom_append (s : Session) {bytes : Bytes} (hwhole : WholeLines bytes)
    (rest : Bytes) :
    interpretFrom s (bytes ++ rest) =
      (interpretFrom (interpretFrom s bytes).session rest).behind (interpretFrom s bytes).acts :=
  ((interprets_interpretFrom s bytes).append hwhole rest).unique.symm

theorem interpret_append (s : Session) {bytes : Bytes} (hwhole : WholeLines bytes)
    (rest : Bytes) :
    interpret s (bytes ++ rest) =
      (interpretFrom (interpret s bytes).session rest).behind (interpret s bytes).acts := by
  unfold interpret
  rw [interpretFrom_append _ hwhole]
  simp only [Course.behind, List.append_assoc]

theorem deliveries_behind (done : List Act) (o : Course) :
    (o.behind done).deliveries = done.filterMap Act.message? ++ o.deliveries :=
  List.filterMap_append

theorem Turn.message?_acts (t : Turn) : t.acts.filterMap Act.message? = t.delivered.toList := by
  show (t.quiet ++ t.answer.acts).filterMap Act.message? = _
  rw [List.filterMap_append, t.message?_quiet, MailCapture.message?_acts, List.append_nil]

/-- An overlong line delivers nothing. -/
theorem message?_refusal (next : Phase) : (Act.refusal next).filterMap Act.message? = [] := rfl

/-- Whole lines deliver nothing unless one of them is a dot. -/
theorem Interprets.deliveries_open {s : Session} {bytes : Bytes} {o : Course}
    (h : Interprets s bytes o) (hwhole : WholeLines bytes) (hopen : ¬ HasDotLine bytes) :
    o.deliveries = [] := by
  induction h with
  | ended => rfl
  | @line s raw rest o going newline fits next ih =>
    have hnone : (s.accept (Conversation.lineText raw)).delivered = none := by
      by_contra hsome
      have hdot := ((s.isSome_delivered _).mp (Option.isSome_iff_ne_none.mpr hsome)).2.1
      refine hopen ?_
      rcases lineText_eq_dot.mp hdot with rfl | rfl
      · exact .inl ⟨[], rest, rfl⟩
      · exact .inr ⟨[], rest, rfl⟩
    rw [deliveries_behind, Turn.message?_acts, hnone,
      ih hwhole.of_line fun hdot => hopen (.of_line hdot)]
    rfl
  | lastLine going newline nonempty fits => exact absurd (hwhole.eq_nil newline) nonempty
  | longData => exact message?_refusal _
  | longCommand going command newline long next ih =>
    rw [deliveries_behind, message?_refusal, ih hwhole.of_line fun hdot => hopen (.of_line hdot)]
    rfl
  | lastLongCommand => exact message?_refusal _

instance (s : Session) (line : Text) : Decidable (s.Fits line) :=
  inferInstanceAs (Decidable (_ ≤ _))

/-- What a line delivers. -/
theorem delivered_lineText (s : Session) (raw : Bytes) :
    (s.accept (Conversation.lineText raw)).delivered.toList =
      if s.phase.isData = true ∧ (raw = [46] ∨ raw = [46, 13]) ∧ s.Fits ['.'] then [s.draft]
      else [] := by
  split
  · next h =>
    obtain ⟨hdata, hdot, hfits⟩ := h
    rw [lineText_eq_dot.mpr hdot, Session.accept_dot hdata hfits]
    rfl
  · next h =>
    rw [Option.toList_eq_nil_iff]
    by_contra hsome
    obtain ⟨hdata, hdot, hfits⟩ := (s.isSome_delivered _).mp (Option.isSome_iff_ne_none.mpr hsome)
    rw [hdot] at hfits
    exact h ⟨hdata, lineText_eq_dot.mp hdot, hfits⟩

/-- A line without its end delivers what it would deliver with it. -/
theorem deliveries_lastLine (s : Session) {raw : Bytes} (hraw : 10 ∉ raw) :
    (interpretFrom s raw).deliveries =
      if s.phase.isData = true ∧ (raw = [46] ∨ raw = [46, 13]) ∧ s.Fits ['.'] then [s.draft]
      else [] := by
  have h := interprets_interpretFrom s raw
  generalize interpretFrom s raw = o at h
  have hnewline (front rest : Bytes) : 10 ∈ front ++ 10 :: rest := by simp
  cases h with
  | ended h =>
    refine (if_neg ?_).symm
    rintro ⟨hdata, hdot, -⟩
    rcases h with hs | rfl
    · exact Phase.ne_connect_of_isData hdata hs
    · simp at hdot
  | line | longCommand => exact absurd (hnewline _ _) hraw
  | lastLine => rw [← delivered_lineText, ← Turn.message?_acts]; rfl
  | @longData s front rest data newline long =>
    refine (if_neg ?_).symm
    rintro ⟨-, hdot, -⟩
    have hshort : (front ++ rest).length ≤ 2 := by
      rcases hdot with h | h <;> rw [h] <;> decide
    have hlimit : s.phase.lineLimit = 1000 := if_pos data
    rw [List.length_append] at hshort
    omega
  | lastLongCommand going command newline long =>
    refine (if_neg ?_).symm
    rintro ⟨hdata, -, -⟩
    rw [hdata] at command
    cases command

/-- What a part of the input without a whole line that is a dot adds to what came before. -/
theorem deliveries_truncated (s : Session) {before : Bytes} (hbefore : WholeLines before)
    {part : Bytes} (hopen : ¬ HasDotLine part) :
    let t := (interpret s (before ++ part.rdropWhile (· ≠ 10))).session
    let last := part.rtakeWhile (· ≠ 10)
    (interpret s (before ++ part)).deliveries = (interpret s before).deliveries ++
      if t.phase.isData = true ∧ (last = [46] ∨ last = [46, 13]) ∧ t.Fits ['.'] then [t.draft]
      else [] := by
  intro t last
  obtain ⟨lines, hlines⟩ : ∃ lines, lines = part.rdropWhile (· ≠ 10) := ⟨_, rfl⟩
  have hpart : lines ++ last = part := hlines ▸ List.rdropWhile_append_rtakeWhile
  have hwhole : WholeLines lines := hlines ▸ wholeLines_rdropWhile part
  have hnone : (interpretFrom (interpret s before).session lines).deliveries = [] :=
    (interprets_interpretFrom ..).deliveries_open hwhole fun hdot =>
      hopen (hdot.of_isPrefix ⟨last, hpart⟩)
  have ht : t = (interpret s (before ++ lines)).session := by rw [hlines]
  rw [← hpart, ← List.append_assoc, interpret_append s (hbefore.append hwhole), deliveries_behind,
    ← ht, deliveries_lastLine t (newline_notMem_rtakeWhile part)]
  show (interpret s (before ++ lines)).deliveries ++ _ = _
  rw [interpret_append s hbefore, deliveries_behind, hnone, List.append_nil]
  rfl

/-- **A message cut off is delivered only by a dot.** Let input end after some whole lines and then
a part in which no whole line is a dot. Then it delivers what the lines before did, and one more
message exactly if what is left without a newline is a dot, maybe with a carriage return, among
message data within its size. However the conversation is disturbed on its way there, it delivers
no more than that. -/
theorem truncated_run (s : Session) {before : Bytes} (hbefore : WholeLines before) {part : Bytes}
    (hopen : ¬ HasDotLine part) :
    let t := (interpret s (before ++ part.rdropWhile (· ≠ 10))).session
    let last := part.rtakeWhile (· ≠ 10)
    let delivered := (interpret s before).deliveries ++
      if t.phase.isData = true ∧ (last = [46] ∨ last = [46, 13]) ∧ t.Fits ['.'] then [t.draft]
      else []
    (∀ (reads : List Bytes) (delayed : Bool), reads.flatten = before ++ part →
      (Conversation.run s (reads.map .bytes) .sound .down delayed).deliveries = delivered) ∧
    ∀ (arrivals : List Arrival) (outlet : Outlet) (stop : StopSignal) (delayed : Bool),
      arrivals.flatMap Arrival.read = before ++ part →
        (Conversation.run s arrivals outlet stop delayed).deliveries <+: delivered := by
  intro t last delivered
  have hdelivered : (interpret s (before ++ part)).deliveries = delivered :=
    deliveries_truncated s hbefore hopen
  have hundisturbed (reads : List Bytes) (delayed : Bool) (hreads : reads.flatten = before ++ part) :
      (Conversation.run s (reads.map .bytes) .sound .down delayed).deliveries = delivered := by
    rw [Conversation.run_eq_closed, hreads, ← hdelivered]
    show (Conversation.history _).filterMap _ = _
    rw [Conversation.history_closed]
    rfl
  refine ⟨hundisturbed, fun arrivals outlet stop delayed harrivals => ?_⟩
  have hcut := (Conversation.run_cutShort s arrivals outlet stop delayed).deliveries
  rw [harrivals] at hcut
  have hwhole := Round.history_run s [before ++ part] delayed
  rw [List.flatten_singleton] at hwhole
  rw [← hwhole] at hcut
  rw [← hundisturbed [before ++ part] delayed (List.flatten_singleton ..)]
  exact hcut

/-- Cut a byte later, inside the line, nothing is delivered however the bytes are read. -/
theorem truncated_run_insideLine :
    let begun := Text.encode "MAIL FROM:<a>\r\nRCPT TO:<b>\r\nDATA\r\n\r\n".toList
    let part := Text.encode "one\r\n..".toList
    WholeLines begun ∧ ¬ HasDotLine part ∧
      ∀ (reads : List Bytes) (delayed : Bool), reads.flatten = begun ++ part →
        (Conversation.run { hostname := "mx".toList } (reads.map .bytes) .sound .down
          delayed).deliveries = [] := by
  intro begun part
  have hbegun : WholeLines begun := by decide +kernel
  have hopen : ¬ HasDotLine part := by decide +kernel
  obtain ⟨hrun, -⟩ := truncated_run { hostname := "mx".toList } hbegun hopen
  exact ⟨hbegun, hopen, fun reads delayed hreads => (hrun reads delayed hreads).trans
    (by decide +kernel)⟩

/-- A line that begins with two dots, cut between them: the message is delivered without it. -/
theorem dottedLine_cut_delivers :
    let begun := Text.encode "MAIL FROM:<a>\r\nRCPT TO:<b>\r\nDATA\r\n\r\n".toList
    let message := Text.encode "one\r\n..two\r\n.\r\n".toList
    let part := message.take 6
    let run bytes := Conversation.run { hostname := "mx".toList } [.bytes bytes] .sound .down false
    let m : Message := { sender := some ['a'], recipients := [['b']] }
    ((run begun).session.phase.isData = true ∧ ¬ HasDotLine part) ∧
      (run begun).deliveries = [] ∧
      (run (begun ++ part)).deliveries = [{m with linesBack := ["one".toList]}] ∧
      (run (begun ++ message)).deliveries =
        [{m with linesBack := [".two".toList, "one".toList]}] := by
  decide +kernel

end MailCapture
