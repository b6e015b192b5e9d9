import MailCapture.Mailbox.Delivery
import MailCapture.Proofs.Session.Steps
import Mathlib.Algebra.Order.Ring.Nat
import Mathlib.Data.List.Induction
import Mathlib.Logic.Function.Basic

/-! Clients that share a mailbox in memory.

Each client has a session of its own, and what any of them completes goes into the one mailbox, which
may be cleared at any time. An `Office` hears one line of one client after another, in any order.
`shared_run` says that no client notices another, and that the mailbox holds the latest commits since
it was last cleared, as many as it has room for. -/
namespace MailCapture

/-- What an office can hear next. -/
inductive Event (ι : Type) where
  | line (client : ι) (line : Text)
  | clear

/-- An event, and what came of it. -/
inductive Deed (ι : Type) where
  | turn (client : ι) (line : Text) (turn : Turn)
  | clearing

/-- A message that went into the mailbox. -/
structure Commit (ι : Type) where
  /-- The deed that it was, counted from the first. -/
  position : Nat
  client : ι
  message : Message
deriving DecidableEq

def Deed.event {ι : Type} : Deed ι → Event ι
  | turn client line _ => .line client line
  | clearing => .clear

/-- The commits since the last clear, once there is one more deed. -/
def Deed.commits {ι : Type} (position : Nat) (earlier : List (Commit ι)) :
    Deed ι → List (Commit ι)
  | turn client _ t => earlier ++ (t.delivered.map (Commit.mk position client)).toList
  | clearing => []

/-! ### Commits -/

namespace Commit
variable {ι : Type} {history : List (Deed ι)} {deed d : Deed ι} {c : Commit ι}

/-- The commits of a history since its last clear. -/
def since (history : List (Deed ι)) : List (Commit ι) :=
  history.zipIdx.foldl (fun earlier (deed, position) => deed.commits position earlier) []

/-- A client completed it at its position, and no clear came later. -/
def Stands (history : List (Deed ι)) (c : Commit ι) : Prop :=
  (∃ line t, history[c.position]? = some (.turn c.client line t) ∧
    t.delivered = some c.message) ∧
  ∀ later, c.position < later → history[later]? ≠ some .clearing

theorem since_concat (history : List (Deed ι)) (deed : Deed ι) :
    since (history ++ [deed]) = deed.commits history.length (since history) := by
  simp [since, List.zipIdx_append, List.foldl_append]

theorem Stands.position_lt (h : c.Stands history) : c.position < history.length := by
  obtain ⟨⟨_, _, hturn, -⟩, -⟩ := h
  exact (List.getElem?_eq_some_iff.mp hturn).1

theorem getElem?_concat {n : Nat} :
    (history ++ [deed])[n]? = some d ↔ history[n]? = some d ∨ n = history.length ∧ deed = d := by
  rcases Nat.lt_trichotomy n history.length with hlt | heq | hgt
  · rw [List.getElem?_append_left hlt]
    exact ⟨.inl, fun h => h.resolve_right fun hlast => Nat.ne_of_lt hlt hlast.1⟩
  · simp [heq]
  · have hnone : history[n]? = none := List.getElem?_eq_none (Nat.le_of_lt hgt)
    have hnone' : (history ++ [deed])[n]? = none := List.getElem?_eq_none (by simp; omega)
    simp only [hnone, hnone', reduceCtorEq, false_or, false_iff]
    exact fun hlast => Nat.ne_of_gt hgt hlast.1

theorem not_stands_clearing : ¬ c.Stands (history ++ [.clearing]) := by
  rintro ⟨⟨line, t, hturn, -⟩, hlater⟩
  rcases getElem?_concat.mp hturn with hearlier | ⟨-, hlast⟩
  · have hlt : c.position < history.length := (List.getElem?_eq_some_iff.mp hearlier).1
    exact hlater _ hlt (getElem?_concat.mpr (.inr ⟨rfl, rfl⟩))
  · cases hlast

theorem stands_turn {client : ι} {line : Text} {t : Turn} :
    c.Stands (history ++ [.turn client line t]) ↔
      c.Stands history ∨
        c.position = history.length ∧ c.client = client ∧ t.delivered = some c.message := by
  have hclearing {n : Nat} : (history ++ [.turn client line t])[n]? = some .clearing ↔
      history[n]? = some .clearing := by
    simp [getElem?_concat]
  simp only [Stands, ne_eq, hclearing, getElem?_concat]
  constructor
  · rintro ⟨⟨line', t', hearlier | ⟨hposition, hlast⟩, hdelivered⟩, hlater⟩
    · exact .inl ⟨⟨line', t', hearlier, hdelivered⟩, hlater⟩
    · cases hlast
      exact .inr ⟨hposition, rfl, hdelivered⟩
  · rintro (⟨⟨line', t', hearlier, hdelivered⟩, hlater⟩ | ⟨hposition, rfl, hdelivered⟩)
    · exact ⟨⟨line', t', .inl hearlier, hdelivered⟩, hlater⟩
    · refine ⟨⟨line, t, .inr ⟨hposition, rfl⟩, hdelivered⟩, fun later hlt => ?_⟩
      rw [List.getElem?_eq_none (by omega)]
      simp

/-- Nothing is missing from the commits since the last clear, and nothing else is among them. -/
theorem mem_since : c ∈ since history ↔ c.Stands history := by
  induction history using List.reverseRecOn with
  | nil =>
    refine ⟨fun h => absurd h List.not_mem_nil, fun h => ?_⟩
    exact absurd h.position_lt (Nat.not_lt_zero _)
  | append_singleton history deed ih =>
    rw [since_concat]
    cases deed with
    | clearing => exact ⟨fun h => absurd h List.not_mem_nil, fun h => absurd h not_stands_clearing⟩
    | turn client line t =>
      rw [stands_turn, Deed.commits, List.mem_append, ih]
      refine or_congr_right ?_
      obtain ⟨position, client', m⟩ := c
      cases hdelivered : t.delivered with
      | none => simp
      | some m' => simp [eq_comm]

/-- They are in the order in which they were made. -/
theorem pairwise_since (history : List (Deed ι)) :
    (since history).Pairwise (·.position < ·.position) := by
  induction history using List.reverseRecOn with
  | nil => exact .nil
  | append_singleton history deed ih =>
    rw [since_concat]
    cases deed with
    | clearing => exact .nil
    | turn client line t =>
      rw [Deed.commits, List.pairwise_append]
      refine ⟨ih, ?_, fun earlier hearlier last hlast => ?_⟩
      · cases t.delivered with
        | none => exact .nil
        | some m => exact List.pairwise_singleton _ _
      · obtain ⟨m, -, rfl⟩ := Option.map_eq_some_iff.mp (Option.mem_toList.mp hlast)
        exact (mem_since.mp hearlier).position_lt

end Commit

/-! ### One client -/

/-- The turns of a session that hears some lines. -/
def Session.turns (s : Session) : List Text → List Turn
  | [] => []
  | line :: rest => s.accept line :: (s.accept line).session.turns rest

theorem Session.turns_append (s : Session) (a b : List Text) :
    s.turns (a ++ b) = s.turns a ++ (s.after a).turns b := by
  induction a generalizing s with
  | nil => rfl
  | cons line rest ih => exact congrArg (s.accept line :: ·) (ih _)

section Own
variable {ι : Type} [DecidableEq ι]

def Event.lineOf (client : ι) : Event ι → Option Text
  | line other text => if other = client then some text else none
  | clear => none

/-- The lines that are a client's own. -/
def Event.linesOf (client : ι) (events : List (Event ι)) : List Text :=
  events.filterMap (lineOf client)

theorem Event.linesOf_concat (client : ι) (events : List (Event ι)) (e : Event ι) :
    linesOf client (events ++ [e]) = linesOf client events ++ (e.lineOf client).toList := by
  rw [linesOf, List.filterMap_append]
  cases h : e.lineOf client <;> simp [linesOf, h]

def Deed.turnOf (client : ι) : Deed ι → Option Turn
  | turn other _ t => if other = client then some t else none
  | clearing => none

/-- The turns that are a client's own. -/
def Deed.turnsOf (client : ι) (history : List (Deed ι)) : List Turn :=
  history.filterMap (turnOf client)

theorem Deed.turnsOf_concat (client : ι) (history : List (Deed ι)) (deed : Deed ι) :
    turnsOf client (history ++ [deed]) = turnsOf client history ++ (deed.turnOf client).toList := by
  rw [turnsOf, List.filterMap_append]
  cases h : deed.turnOf client <;> simp [turnsOf, h]

/-- A client's own commits since the last clear are the latest of its deliveries. -/
theorem Commit.own_suffix (client : ι) (history : List (Deed ι)) :
    ((since history).filter (·.client = client)).map Commit.message <:+
      (Deed.turnsOf client history).filterMap Turn.delivered := by
  induction history using List.reverseRecOn with
  | nil => exact List.suffix_rfl
  | append_singleton history deed ih =>
    rw [since_concat, Deed.turnsOf_concat, List.filterMap_append]
    cases deed with
    | clearing => exact List.nil_suffix
    | turn other line t =>
      rw [Deed.commits, List.filter_append, List.map_append]
      by_cases hown : other = client
      · subst hown
        -- the deed ends both lists alike
        have hlast : (((t.delivered.map (Commit.mk history.length other)).toList).filter
            (·.client = other)).map Commit.message =
              ((Deed.turn other line t).turnOf other).toList.filterMap Turn.delivered := by
          cases hdelivered : t.delivered <;> simp [Deed.turnOf, hdelivered]
        rw [hlast]
        exact (List.suffix_append_self_iff).mpr ih
      · -- and another client's deed is in neither
        have hlast : ((t.delivered.map (Commit.mk history.length other)).toList).filter
            (·.client = client) = [] := by
          cases t.delivered <;> simp [hown]
        rw [hlast]
        simpa [Deed.turnOf, hown] using ih

end Own

/-! ### A mailbox in memory -/

/-- What a step delivers is added, and what it notices changes nothing. -/
theorem Mailbox.Post.mailbox_take {p : Post} {r : Recent} (h : p.mailbox = .recent r) (t : Turn) :
    (p.take t).mailbox = .recent (t.delivered.elim r r.add) := by
  have hnoticed (notices : List Notice) :
      (p.followAll (notices.map .noticed)).mailbox = .recent r := by
    induction notices generalizing p with
    | nil => exact h
    | cons n rest ih => exact ih (p := p.notice n) h
  rw [take, followAll_append]
  cases t.delivered with
  | none => exact hnoticed t.notices
  | some m =>
    show (Mailbox.add _ m _).mailbox = _
    rw [hnoticed t.notices]
    rfl

/-- The latest of some messages are still the latest when one more comes. -/
theorem Recent.messages_add_latest {r : Recent} {all : List Message}
    (h : r.messages = all.drop (all.length - r.capacity)) (m : Message) :
    (r.add m).messages = (all ++ [m]).drop ((all ++ [m]).length - r.capacity) := by
  have hbegins : all.drop (all.length - r.capacity) ++ [m] =
      (all ++ [m]).drop (all.length - r.capacity) :=
    (List.drop_append_of_le_length (Nat.sub_le _ _)).symm
  rw [messages_add, h, hbegins, List.drop_drop]
  congr 1
  simp only [List.length_drop, List.length_append, List.length_singleton]
  omega

/-! ### Offices -/

structure Office (ι : Type) where
  sessions : ι → Session
  post : Mailbox.Post
  /-- Everything so far. -/
  history : List (Deed ι) := []

namespace Office
variable {ι : Type} [DecidableEq ι] {o : Office ι} {start : ι → Session} {capacity : Nat}
  {heard : List (Event ι)}

/-- A line steps the session of its client and nobody else's. -/
def step (o : Office ι) : Event ι → Office ι
  | .line client line =>
    let t := (o.sessions client).accept line
    ⟨Function.update o.sessions client t.session, o.post.take t,
      o.history ++ [.turn client line t]⟩
  | .clear =>
    let cleared := o.post.mailbox.clear o.post.disk
    ⟨o.sessions, ⟨cleared.mailbox, cleared.disk, o.post.log ++ cleared.notices⟩,
      o.history ++ [.clearing]⟩

def run (o : Office ι) (events : List (Event ι)) : Office ι := events.foldl step o

/-- It began with an empty mailbox in memory, and has heard some events. -/
structure Serving (start : ι → Session) (capacity : Nat) (heard : List (Event ι))
    (o : Office ι) : Prop where
  events : o.history.map Deed.event = heard
  turns (client : ι) :
    Deed.turnsOf client o.history = (start client).turns (Event.linesOf client heard)
  sessions (client : ι) : o.sessions client = (start client).after (Event.linesOf client heard)
  mailbox : ∃ r, o.post.mailbox = .recent r ∧ r.capacity = capacity ∧
    let all := (Commit.since o.history).map Commit.message
    r.messages = all.drop (all.length - r.capacity)

theorem Serving.line (h : o.Serving start capacity heard) (client : ι) (line : Text) :
    (o.step (.line client line)).Serving start capacity (heard ++ [.line client line]) where
  events := by
    rw [step, List.map_append, h.events]
    rfl
  turns other := by
    rw [step, Deed.turnsOf_concat, Event.linesOf_concat, Session.turns_append, h.turns other]
    by_cases hown : client = other
    · subst hown
      simp [Deed.turnOf, Event.lineOf, Session.turns, h.sessions client]
    · simp [Deed.turnOf, Event.lineOf, Session.turns, hown]
  sessions other := by
    rw [Event.linesOf_concat, Session.after_append, ← h.sessions other]
    by_cases hown : client = other
    · subst hown
      simp [step, Event.lineOf]
    · simp [step, Event.lineOf, hown, Ne.symm hown]
  mailbox := by
    obtain ⟨r, hrecent, hcapacity, hmessages⟩ := h.mailbox
    refine ⟨_, Mailbox.Post.mailbox_take hrecent _, ?_⟩
    rw [step, Commit.since_concat, Deed.commits, List.map_append]
    cases ((o.sessions client).accept line).delivered with
    | none => exact ⟨hcapacity, by simpa using hmessages⟩
    | some m => exact ⟨hcapacity, Recent.messages_add_latest hmessages m⟩

theorem Serving.clear (h : o.Serving start capacity heard) :
    (o.step .clear).Serving start capacity (heard ++ [.clear]) where
  events := by
    rw [step, List.map_append, h.events]
    rfl
  turns client := by
    rw [step, Deed.turnsOf_concat, Event.linesOf_concat, Session.turns_append, h.turns client]
    rfl
  sessions client := by
    rw [Event.linesOf_concat, Session.after_append, ← h.sessions client]
    rfl
  mailbox := by
    obtain ⟨r, hrecent, hcapacity, -⟩ := h.mailbox
    refine ⟨r.clear, ?_, hcapacity, ?_⟩
    · rw [step, hrecent]
      rfl
    · rw [step, Commit.since_concat]
      exact List.drop_nil.symm

theorem Serving.run (h : o.Serving start capacity heard) (events : List (Event ι)) :
    (o.run events).Serving start capacity (heard ++ events) := by
  induction events generalizing o heard with
  | nil =>
    rw [List.append_nil]
    exact h
  | cons e rest ih =>
    rw [List.append_cons]
    cases e with
    | line client line => exact ih (h.line client line)
    | clear => exact ih h.clear

/-- **Clients that share a mailbox do not notice each other, and it keeps the latest commits.**
Whatever the sessions that begin with an empty mailbox in memory are, and in whatever order their
lines and the clears come: each client's turns, with the answers, and the session it is left with
are those of its own lines alone. Among the deeds, which are the events in their order, the commits
since the last clear are the messages that turns completed after it. The mailbox holds the last of
them in that order, all of them or as many as there is room for, and of each client's messages the
latest that it delivered, in their order. -/
theorem shared_run (sessions : ι → Session) (r : Recent) (hempty : r.messages = []) (disk : Disk)
    (events : List (Event ι)) :
    let o := run ⟨sessions, ⟨.recent r, disk, []⟩, []⟩ events
    let commits := Commit.since o.history
    let held := commits.drop (commits.length - r.capacity)
    (∀ client,
      Deed.turnsOf client o.history = (sessions client).turns (Event.linesOf client events) ∧
      o.sessions client = (sessions client).after (Event.linesOf client events)) ∧
    (o.history.map Deed.event = events ∧ (∀ c, c ∈ commits ↔ c.Stands o.history) ∧
      commits.Pairwise (·.position < ·.position)) ∧
    ((o.post.mailbox.messages o.post.disk).result = .ok (held.map Commit.message) ∧
      (o.post.mailbox.length o.post.disk).result = .ok (min r.capacity commits.length)) ∧
    ∀ client, (held.filter (·.client = client)).map Commit.message <:+
      ((sessions client).turns (Event.linesOf client events)).filterMap Turn.delivered := by
  intro o commits held
  have hstart : (⟨sessions, ⟨.recent r, disk, []⟩, []⟩ : Office ι).Serving sessions r.capacity [] :=
    ⟨rfl, fun _ => rfl, fun _ => rfl, r, rfl, rfl, hempty.trans List.drop_nil.symm⟩
  have h : o.Serving sessions r.capacity events := hstart.run events
  refine ⟨fun client => ⟨h.turns client, h.sessions client⟩,
    ⟨h.events, fun _ => Commit.mem_since, Commit.pairwise_since _⟩, ?_, fun client => ?_⟩
  · obtain ⟨r', hrecent, hcapacity, hmessages⟩ := h.mailbox
    have hheld : r'.messages = held.map Commit.message := by
      rw [hmessages, hcapacity, List.length_map, ← List.map_drop]
    have hlength : held.length = min r.capacity commits.length := by
      rw [List.length_drop]
      omega
    rw [hrecent]
    refine ⟨congrArg Except.ok hheld, ?_⟩
    show Except.ok r'.messages.length = _
    rw [hheld, List.length_map, hlength]
  · rw [← h.turns client]
    have hlatest : held <:+ commits := List.drop_suffix _ _
    exact ((hlatest.filter _).map _).trans (Commit.own_suffix client o.history)

/-- Two clients, line by line in turn, and each completes a message. -/
def alternating : List (Event Bool) :=
  [.line false "MAIL FROM:<first>".toList, .line true "MAIL FROM:<second>".toList] ++
    ["RCPT TO:<reader>", "DATA", "."].flatMap fun line =>
      [.line false line.toList, .line true line.toList]

/-- There is room for one message, and it is the one completed last. -/
theorem shared_run_alternating :
    let r : Recent := { capacity := 1, capacity_pos := Nat.one_pos }
    let start (_ : Bool) : Session := .greeted "localhost".toList 1000
    let o := run ⟨start, ⟨.recent r, {}, []⟩, []⟩ alternating
    r.messages = [] ∧
    (o.post.mailbox.messages o.post.disk).result =
      .ok [{ sender := "second".toList, recipients := ["reader".toList] }] ∧
    ∀ client, (Deed.turnsOf client o.history).length = 4 ∧
      Deed.turnsOf client o.history =
        (start client).turns (Event.linesOf client alternating) := by
  intro r start o
  obtain ⟨hturns, -, ⟨hmessages, -⟩, -⟩ := shared_run start r rfl {} alternating
  refine ⟨rfl, ?_, fun client => ⟨?_, (hturns client).1⟩⟩
  · rw [hmessages]
    decide +kernel
  · rw [(hturns client).1]
    cases client <;> decide +kernel

end Office
end MailCapture
