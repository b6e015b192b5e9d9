import MailCapture.Proofs.Session.Standing
import MailCapture.Proofs.Wire.Law

/-! Sessions used again and again.

Nothing keeps a session to one conversation: lines may be given to it one by one, a conversation may
break off anywhere and another begin where it stood, and all of this in any order. `coherent_useAll`
says what can be relied on all the same, phase by phase, and that a session back where it began is
a new one. -/
namespace MailCapture

/-- All of a conversation that is not up to the session. -/
structure Connection where
  arrivals : List Arrival
  outlet : Outlet := .sound
  stop : StopSignal := .down
  delayed : Bool := false
deriving DecidableEq, Repr

namespace Session

def converse (s : Session) (c : Connection) : Conversation :=
  .run s c.arrivals c.outlet c.stop c.delayed

/-- A way to use a session. -/
inductive Use where
  | line (line : Text)
  | connection (c : Connection)
deriving DecidableEq, Repr

def use (s : Session) : Use → Session
  | .line line => (s.accept line).session
  | .connection c => (s.converse c).session

def useAll (s : Session) (uses : List Use) : Session := uses.foldl use s

/-! ### What a session can be relied on for -/

structure Coherent (s : Session) : Prop where
  /-- Between transactions nothing is drafted. -/
  idle : s.phase.isOpen = false → s.draft = {} ∧ s.lastField = none ∧ s.received = 0
  sender : s.phase.isOpen = true → s.draft.sender.isSome = true
  recipients : s.phase.isOpen = true → (s.draft.recipients = [] ↔ s.phase = .sender)
  /-- The envelope comes before the content. -/
  envelope : s.phase.isAddressing = true → s.draft.fields = [] ∧ s.draft.lines = []
  /-- The header comes before the body. -/
  header : s.phase = .headers → s.draft.lines = []
  /-- The field that a fold would continue is there. -/
  continued : ∀ name, s.lastField = some name → Fields.values name s.draft.fields ≠ []
  /-- So a fold never makes a field. -/
  folded : ∀ line, Message.isFolded line = true →
    (s.draftHeader line).1.draft.fields.map Field.name = s.draft.fields.map Field.name
  limit : s.received ≤ s.sizeLimit

theorem names_draftHeader_folded {s : Session}
    (hcontinued : ∀ name, s.lastField = some name → Fields.values name s.draft.fields ≠ [])
    {line : Text} (hfolded : Message.isFolded line = true) :
    (s.draftHeader line).1.draft.fields.map Field.name = s.draft.fields.map Field.name := by
  unfold draftHeader
  rw [hfolded]
  cases hlast : s.lastField with
  | none => rfl
  | some name => exact Fields.names_extend (hcontinued name hlast) line

variable {hostname : Text} {sizeLimit : Nat} {s : Session}

theorem Standing.continued (h : Standing hostname sizeLimit s) :
    ∀ name, s.lastField = some name → Fields.values name s.draft.fields ≠ [] := by
  cases h with
  | closed | addressing => exact nofun
  | collecting hs => exact hs.continued

theorem Standing.coherent (h : Standing hostname sizeLimit s) : s.Coherent := by
  have hcontinued := h.continued
  cases h with
  | @closed phase hclosed =>
    have hopen : phase.isOpen ≠ true := Bool.eq_false_iff.mp hclosed
    exact {
      idle := fun _ => ⟨rfl, rfl, rfl⟩
      sender := fun h => absurd h hopen
      recipients := fun h => absurd h hopen
      envelope := fun _ => ⟨rfl, rfl⟩
      header := fun _ => rfl
      continued := hcontinued
      folded := fun _ => names_draftHeader_folded hcontinued
      limit := Nat.zero_le sizeLimit }
  | @addressing phase address recipients haddressing hnamed =>
    have hopen := Phase.isOpen_of_isAddressing haddressing
    have hsender : recipients = [] ↔ phase = .sender := by
      cases phase <;> simp_all [Phase.isAddressing]
    exact {
      idle := fun h => absurd hopen (Bool.eq_false_iff.mp h)
      sender := fun _ => rfl
      recipients := fun _ => hsender
      envelope := fun _ => ⟨rfl, rfl⟩
      header := fun _ => rfl
      continued := hcontinued
      folded := fun _ => names_draftHeader_folded hcontinued
      limit := Nat.zero_le sizeLimit }
  | collecting hs =>
    have hopen := Phase.isOpen_of_isData hs.data
    have hcommand : s.phase.isAddressing ≠ true := fun haddressing => by
      have hdata := hs.data
      rw [Phase.isData_of_isCommand (Phase.isCommand_of_isAddressing haddressing)] at hdata
      cases hdata
    exact {
      idle := fun h => absurd hopen (Bool.eq_false_iff.mp h)
      sender := fun _ => hs.sender
      recipients := fun _ =>
        ⟨fun h => absurd h hs.recipients, fun h => absurd (by rw [h]; rfl) hcommand⟩
      envelope := fun h => absurd h hcommand
      header := fun h => by rw [Message.lines, hs.header h]; rfl
      continued := hcontinued
      folded := fun _ => names_draftHeader_folded hcontinued
      limit := hs.settings.2 ▸ hs.fits }

/-! ### Any use -/

/-- How a session stands is a law of conversations, whatever they deliver. -/
theorem Standing.law (hostname : Text) (sizeLimit : Nat) :
    Law (Standing hostname sizeLimit) (fun _ => True) where
  greet _ h := h.greet
  accept _ line h _ := h.accept line
  breakOff _ h _ := h.discarded rfl
  delivered _ _ _ _ _ _ := trivial

theorem Standing.use (h : Standing hostname sizeLimit s) (u : Use) :
    Standing hostname sizeLimit (s.use u) := by
  cases u with
  | line line => exact h.accept line
  | connection c => exact ((law hostname sizeLimit).run h ..).1

theorem Standing.useAll (h : Standing hostname sizeLimit s) (uses : List Use) :
    Standing hostname sizeLimit (s.useAll uses) := by
  induction uses generalizing s with
  | nil => exact h
  | cons u rest ih => exact ih (h.use u)

/-- Using a session comes down to greeting it, giving it lines and breaking off. -/
theorem Reached.useAll (h : Reached hostname sizeLimit s) (uses : List Use) :
    Reached hostname sizeLimit (s.useAll uses) := by
  have hlaw : Law (Reached hostname sizeLimit) (fun _ => True) :=
    ⟨fun _ => .greet, fun _ line h _ => .line h line, fun _ => .breakOff,
      fun _ _ _ _ _ _ => trivial⟩
  induction uses generalizing s with
  | nil => exact h
  | cons u rest ih =>
    cases u with
    | line line => exact ih (.line h line)
    | connection c => exact ih (hlaw.run h ..).1

/-- **A session stays coherent**, whatever lines it is given, whatever conversations it has and
however they end, in any order. Once it is back where it began it is a new session. -/
theorem coherent_useAll (hostname : Text) (sizeLimit : Nat) (uses : List Use) :
    let new : Session := { hostname, sizeLimit }
    let s := new.useAll uses
    s.Coherent ∧ (s.phase = .connect → s = new ∧ ∀ c, s.converse c = new.converse c) := by
  intro new s
  have hnew : Standing hostname sizeLimit new := .closed rfl
  have hs : Standing hostname sizeLimit s := hnew.useAll uses
  refine ⟨hs.coherent, fun hphase => ?_⟩
  have heq : s = new := by
    rw [hs.of_closed (by rw [hphase]; rfl), hphase]
  exact ⟨heq, fun c => by rw [heq]⟩

end Session
end MailCapture
