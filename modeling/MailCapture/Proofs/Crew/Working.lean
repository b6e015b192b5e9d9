import Mathlib.Data.List.Basic
import Mathlib.Data.List.Induction
import Mathlib.Data.List.TakeWhile
import MailCapture.Crew

/-! Which jobs a crew does.

A run of a crew is a list of moves, each of them something `Step` lets it do: somebody hands in a
job or closes the crew, a free worker takes the job at the head of the queue, a running job ends.
Nothing says who is faster. Three things can be read off the moves alone: the jobs accepted, those
handed in before the crew was closed, the jobs started and the jobs ended. The books (`Books`) tie
them to the crew at every point of a run: what was started and what still waits make up what was
accepted, in that order, and every breakage so far has cost a worker.

So the workers have no say in which jobs are done (`jobs_done`). Once nothing is left for them to
do, the jobs started are the accepted ones up to the job whose breakage cost the last worker, or
all of them. -/
namespace MailCapture
namespace Crew

/-! ### Moves -/

/-- What somebody does with a crew, or a worker in it. -/
inductive Move where
  | submit (j : Job)
  | close
  | take (j : Job)
  | finish (j : Job)
deriving DecidableEq, Repr

/-- What a crew becomes by a move, if it can make it. -/
def move? (c : Crew) : Move → Option Crew
  | .submit j => some (c.submit j)
  | .close => some c.close
  | .take j =>
    if c.queue.head? = some j ∧ c.hasFree = true then some (c.take j c.queue.tail) else none
  | .finish j => if j ∈ c.running then some (c.finish j) else none

/-- Moves one after the other. -/
def play? (c : Crew) (moves : List Move) : Option Crew := moves.foldlM move? c

namespace Move

/-- Whether it is a worker's move. -/
def isWork : Move → Bool
  | .take _ | .finish _ => true
  | .submit _ | .close => false

def handedIn : Move → Option Job
  | .submit j => some j
  | _ => none

def taken : Move → Option Job
  | .take j => some j
  | _ => none

def done : Move → Option Job
  | .finish j => some j
  | _ => none

/-- The jobs handed in before the crew was closed. -/
def accepted (moves : List Move) : List Job := (moves.takeWhile (· ≠ .close)).filterMap handedIn

/-- The jobs started, in order. -/
def starts (moves : List Move) : List Job := moves.filterMap taken

/-- The jobs ended, in order. -/
def ends (moves : List Move) : List Job := moves.filterMap done

theorem accepted_concat (moves : List Move) (m : Move) :
    accepted (moves ++ [m]) =
      accepted moves ++ if .close ∈ moves then [] else m.handedIn.toList := by
  unfold accepted
  by_cases hclosed : Move.close ∈ moves
  · rw [List.takeWhile_append, if_neg, if_pos hclosed, List.append_nil]
    intro hlength
    have hall := (List.takeWhile_prefix _).eq_of_length hlength
    rw [← hall] at hclosed
    simpa using List.mem_takeWhile_imp hclosed
  · have hopen : ∀ x ∈ moves, decide (x ≠ Move.close) = true := by
      intro x hx
      simpa using fun h : x = Move.close => hclosed (h ▸ hx)
    rw [List.takeWhile_append_of_pos hopen, List.takeWhile_eq_self_iff.mpr hopen, if_neg hclosed,
      List.filterMap_append]
    congr 1
    cases m <;> simp [handedIn]

theorem starts_concat (moves : List Move) (m : Move) :
    starts (moves ++ [m]) = starts moves ++ m.taken.toList := by
  simp only [starts, List.filterMap_append]
  cases m <;> rfl

theorem ends_concat (moves : List Move) (m : Move) :
    ends (moves ++ [m]) = ends moves ++ m.done.toList := by
  simp only [ends, List.filterMap_append]
  cases m <;> rfl

end Move

open Move

/-- A step is a move. -/
theorem step_iff {c c' : Crew} : Step c c' ↔ ∃ m, c.move? m = some c' := by
  constructor
  · intro hstep
    cases hstep with
    | submit j => exact ⟨.submit j, rfl⟩
    | close => exact ⟨.close, rfl⟩
    | take j rest hhead hfree => exact ⟨.take j, by simp [move?, hhead, hfree]⟩
    | finish j hrunning => exact ⟨.finish j, by simp [move?, hrunning]⟩
  · rintro ⟨m, hm⟩
    cases m with
    | submit j => exact Option.some.inj hm ▸ .submit c j
    | close => exact Option.some.inj hm ▸ .close c
    | take j =>
      obtain ⟨⟨hhead, hfree⟩, hc⟩ := Option.ite_none_right_eq_some.mp hm
      exact Option.some.inj hc ▸ .take c j _ (List.eq_cons_of_mem_head? hhead) hfree
    | finish j =>
      obtain ⟨hrunning, hc⟩ := Option.ite_none_right_eq_some.mp hm
      exact Option.some.inj hc ▸ .finish c j hrunning

@[simp]
theorem play?_nil (c : Crew) : c.play? [] = some c := rfl

theorem play?_cons (c : Crew) (m : Move) (moves : List Move) :
    c.play? (m :: moves) = (c.move? m).bind (·.play? moves) :=
  rfl

theorem play?_append (c : Crew) (moves more : List Move) :
    c.play? (moves ++ more) = (c.play? moves).bind (·.play? more) :=
  List.foldlM_append

theorem play?_concat (c : Crew) (moves : List Move) (m : Move) :
    c.play? (moves ++ [m]) = (c.play? moves).bind (·.move? m) := by
  rw [play?_append]
  congr 1
  funext b
  exact Option.bind_fun_some (b.move? m)

/-! ### Breakages -/

/-- How many of the jobs cost a worker. -/
def breakages (jobs : List Job) : Nat := jobs.countP (·.breaks)

theorem breakages_append (jobs more : List Job) :
    breakages (jobs ++ more) = breakages jobs + breakages more :=
  List.countP_append

theorem breakages_perm {jobs others : List Job} (h : jobs.Perm others) :
    breakages jobs = breakages others :=
  h.countP_eq _

theorem breakages_le_of_prefix {jobs others : List Job} (h : jobs <+: others) :
    breakages jobs ≤ breakages others :=
  h.sublist.countP_le

theorem breakages_le_length (jobs : List Job) : breakages jobs ≤ jobs.length :=
  List.countP_le_length

theorem finish_lost (c : Crew) (j : Job) : (c.finish j).lost = c.lost + breakages [j] := by
  cases hbreaks : j.breaks <;> simp [finish, breakages, hbreaks]

/-! ### The books -/

/-- What a crew of so many workers owes to its moves. -/
structure Books (size : Nat) (moves : List Move) (c : Crew) : Prop where
  size_eq : c.size = size
  open_iff : c.isOpen = true ↔ .close ∉ moves
  /-- What was started, then what waits, is what was accepted. -/
  inOrder : starts moves ++ c.queue = accepted moves
  started_eq : c.started = starts moves
  /-- What was started has ended or is running. -/
  pending : (ends moves ++ c.running).Perm (starts moves)
  lost_eq : c.lost = breakages (ends moves)
  staffed : c.lost + c.running.length ≤ size
  /-- No job was started after the breakages that cost every worker. -/
  manned : ∀ earlier j, starts moves = earlier ++ [j] → breakages earlier < size
  /-- A single worker ends each job before it takes the next one. -/
  alone : size = 1 → ends moves ++ c.running = starts moves

section
variable {size : Nat} {moves : List Move} {c c' c₀ : Crew}

theorem Books.hire (h : Crew.hire size = .ok c) : Books size [] c := by
  have hc : c = {size := size} := by
    unfold Crew.hire at h
    split at h
    · cases h
    · exact (Except.ok.inj h).symm
  subst hc
  exact
    { size_eq := rfl
      open_iff := by simp
      inOrder := rfl
      started_eq := rfl
      pending := .nil
      lost_eq := rfl
      staffed := Nat.zero_le _
      manned := by simp [starts]
      alone := fun _ => rfl }

/-- What nobody in the crew does changes the queue and the door only. -/
theorem Books.outside (h : Books size moves c) {m : Move} (hidle : m.isWork = false)
    {isOpen : Bool} (hopen : isOpen = true ↔ .close ∉ moves ++ [m])
    {queue : List Job}
    (hqueue : queue = c.queue ++ if .close ∈ moves then [] else m.handedIn.toList) :
    Books size (moves ++ [m]) {c with isOpen := isOpen, queue := queue} := by
  have hstarts : starts (moves ++ [m]) = starts moves := by
    rw [starts_concat]
    cases m <;> simp_all [isWork, taken]
  have hends : ends (moves ++ [m]) = ends moves := by
    rw [ends_concat]
    cases m <;> simp_all [isWork, done]
  exact
    { size_eq := h.size_eq
      open_iff := hopen
      inOrder := by rw [hstarts, accepted_concat, ← h.inOrder, hqueue, List.append_assoc]
      started_eq := by rw [hstarts]; exact h.started_eq
      pending := by rw [hstarts, hends]; exact h.pending
      lost_eq := by rw [hends]; exact h.lost_eq
      staffed := h.staffed
      manned := by rw [hstarts]; exact h.manned
      alone := by rw [hstarts, hends]; exact h.alone }

theorem Books.submit (h : Books size moves c) (j : Job) :
    Books size (moves ++ [.submit j]) (c.submit j) := by
  have hopen : c.isOpen = true ↔ .close ∉ moves ++ [Move.submit j] := by
    rw [h.open_iff]
    simp
  unfold Crew.submit
  split
  · next hdoor =>
    refine h.outside (m := .submit j) rfl hopen ?_
    rw [if_neg (h.open_iff.mp hdoor)]
    rfl
  · next hdoor =>
    refine h.outside (m := .submit j) rfl hopen ?_
    rw [if_pos (not_not.mp (mt h.open_iff.mpr hdoor)), List.append_nil]

theorem Books.close (h : Books size moves c) : Books size (moves ++ [.close]) c.close := by
  refine h.outside (m := .close) rfl (by simp) ?_
  split
  · rw [List.append_nil]
  · rw [show Move.close.handedIn.toList = [] from rfl, List.append_nil]

theorem Books.take (h : Books size moves c) {j : Job} {rest : List Job}
    (hqueue : c.queue = j :: rest) (hfree : c.hasFree = true) :
    Books size (moves ++ [.take j]) (c.take j rest) := by
  have hstarts : starts (moves ++ [.take j]) = starts moves ++ [j] := starts_concat ..
  have hends : ends (moves ++ [.take j]) = ends moves := by
    rw [ends_concat]
    exact List.append_nil _
  have hroom : c.lost + c.running.length < size := by
    rw [← h.size_eq]
    simpa [hasFree] using hfree
  have hmanned : breakages (starts moves) < size := calc
    breakages (starts moves) = c.lost + breakages c.running := by
      rw [← breakages_perm h.pending, breakages_append, h.lost_eq]
    _ ≤ c.lost + c.running.length := Nat.add_le_add_left (breakages_le_length _) _
    _ < size := hroom
  exact
    { size_eq := h.size_eq
      open_iff := by
        rw [show (c.take j rest).isOpen = c.isOpen from rfl, h.open_iff]
        simp
      inOrder := by
        rw [hstarts, accepted_concat, ← h.inOrder, hqueue]
        simp [Crew.take, handedIn]
      started_eq := by
        rw [hstarts, ← h.started_eq]
        rfl
      pending := by
        rw [hstarts, hends]
        have hcons := (h.pending.cons j).trans (List.perm_append_singleton _ _).symm
        exact List.perm_middle.trans hcons
      lost_eq := by
        rw [hends]
        exact h.lost_eq
      staffed := hroom
      manned := by
        intro earlier last hlast
        rw [hstarts] at hlast
        rw [← (List.append_inj' hlast rfl).1]
        exact hmanned
      alone := by
        intro hone
        have hnone : c.running = [] := List.length_eq_zero_iff.mp (by omega)
        rw [hstarts, hends, ← h.alone hone, hnone, List.append_nil]
        simp [Crew.take, hnone] }

theorem Books.finish (h : Books size moves c) {j : Job} (hrunning : j ∈ c.running) :
    Books size (moves ++ [.finish j]) (c.finish j) := by
  have hstarts : starts (moves ++ [.finish j]) = starts moves := by
    rw [starts_concat]
    exact List.append_nil _
  have hends : ends (moves ++ [.finish j]) = ends moves ++ [j] := ends_concat ..
  have hleft : (c.finish j).running = c.running.erase j := rfl
  have hlength : c.running.length = (c.running.erase j).length + 1 := by
    rw [List.length_erase_of_mem hrunning]
    have := List.length_pos_of_mem hrunning
    omega
  exact
    { size_eq := h.size_eq
      open_iff := by
        rw [show (c.finish j).isOpen = c.isOpen from rfl, h.open_iff]
        simp
      inOrder := by
        rw [hstarts, accepted_concat, ← h.inOrder]
        simp [Crew.finish, handedIn]
      started_eq := by
        rw [hstarts]
        exact h.started_eq
      pending := by
        rw [hstarts, hends, hleft, List.append_assoc]
        exact ((List.perm_cons_erase hrunning).symm.append_left _).trans h.pending
      lost_eq := by rw [finish_lost, hends, breakages_append, h.lost_eq]
      staffed := by
        have hone : breakages [j] ≤ 1 := breakages_le_length [j]
        have hstaffed := h.staffed
        rw [finish_lost, hleft]
        omega
      manned := by
        rw [hstarts]
        exact h.manned
      alone := by
        intro hone
        have hstaffed := h.staffed
        obtain ⟨only, hc⟩ := List.length_eq_one_iff.mp
          (show c.running.length = 1 by have := List.length_pos_of_mem hrunning; omega)
        obtain rfl : j = only := by simpa [hc] using hrunning
        rw [hstarts, hends, ← h.alone hone, hleft, hc]
        simp }

theorem Books.move (h : Books size moves c) {m : Move} (hm : c.move? m = some c') :
    Books size (moves ++ [m]) c' := by
  cases m with
  | submit j => exact Option.some.inj hm ▸ h.submit j
  | close => exact Option.some.inj hm ▸ h.close
  | take j =>
    obtain ⟨⟨hhead, hfree⟩, hc⟩ := Option.ite_none_right_eq_some.mp hm
    exact Option.some.inj hc ▸ h.take (List.eq_cons_of_mem_head? hhead) hfree
  | finish j =>
    obtain ⟨hrunning, hc⟩ := Option.ite_none_right_eq_some.mp hm
    exact Option.some.inj hc ▸ h.finish hrunning

/-- The books are right after every run. -/
theorem Books.play (hhire : Crew.hire size = .ok c₀) (hplay : c₀.play? moves = some c) :
    Books size moves c := by
  induction moves using List.reverseRecOn generalizing c with
  | nil =>
    rw [play?_nil] at hplay
    exact Option.some.inj hplay ▸ Books.hire hhire
  | append_singleton earlier m ih =>
    rw [play?_concat] at hplay
    obtain ⟨b, hb, hm⟩ := Option.bind_eq_some_iff.mp hplay
    exact (ih hb).move hm

/-! ### At rest -/

/-- Nothing is left for the workers to do. -/
def IsAtRest (c : Crew) : Prop := ∀ m c', m.isWork = true → c.move? m ≠ some c'

theorem isAtRest_iff : c.IsAtRest ↔ c.running = [] ∧ (c.queue = [] ∨ c.hasFree = false) := by
  constructor
  · intro hrest
    have hrunning : c.running = [] := by
      refine List.eq_nil_iff_forall_not_mem.mpr fun j hj => ?_
      exact hrest (.finish j) (c.finish j) rfl (if_pos hj)
    refine ⟨hrunning, ?_⟩
    cases hqueue : c.queue with
    | nil => exact .inl rfl
    | cons j rest =>
      refine .inr (Bool.eq_false_iff.mpr fun hfree => ?_)
      exact hrest (.take j) _ rfl (if_pos ⟨by rw [hqueue]; rfl, hfree⟩)
  · rintro ⟨hrunning, hqueue⟩ m c' hwork hm
    cases m with
    | submit j => cases hwork
    | close => cases hwork
    | take j =>
      obtain ⟨⟨hhead, hfree⟩, -⟩ := Option.ite_none_right_eq_some.mp hm
      rcases hqueue with hnone | hbusy
      · rw [hnone] at hhead
        cases hhead
      · rw [hbusy] at hfree
        cases hfree
    | finish j =>
      obtain ⟨hj, -⟩ := Option.ite_none_right_eq_some.mp hm
      rw [hrunning] at hj
      cases hj

/-- The jobs that are due from a crew of so many workers: the accepted ones up to the breakage that
costs the last worker, or all of them. -/
structure AreDue (size : Nat) (accepted jobs : List Job) : Prop where
  inOrder : jobs <+: accepted
  whole : breakages accepted < size → jobs = accepted
  cut : size ≤ breakages accepted → breakages jobs = size
  shortest : ∀ others, others <+: accepted → size ≤ breakages others → jobs <+: others

theorem Books.areDue (h : Books size moves c) (hrest : c.IsAtRest) :
    AreDue size (accepted moves) (starts moves) := by
  obtain ⟨hrunning, hqueue⟩ := isAtRest_iff.mp hrest
  have hfirst : starts moves <+: accepted moves := ⟨c.queue, h.inOrder⟩
  have hlost : c.lost = breakages (starts moves) := by
    rw [h.lost_eq, ← breakages_perm h.pending, hrunning, List.append_nil]
  have hstaffed := h.staffed
  have hall : c.queue = [] → starts moves = accepted moves := by
    intro hnone
    rw [← h.inOrder, hnone, List.append_nil]
  have hdone : c.queue = [] ∨ breakages (starts moves) = size := by
    rcases hqueue with hnone | hbusy
    · exact .inl hnone
    · refine .inr ?_
      have hsize := h.size_eq
      simp only [hasFree, decide_eq_false_iff_not, not_lt, hrunning, List.length_nil]
        at hbusy hstaffed
      omega
  refine ⟨hfirst, fun hfew => ?_, fun hmany => ?_, fun others hothers hmany => ?_⟩
  · rcases hdone with hnone | hfull
    · exact hall hnone
    · have := breakages_le_of_prefix hfirst
      omega
  · rcases hdone with hnone | hfull
    · have := hall hnone
      rw [this] at hlost ⊢
      omega
    · exact hfull
  · rcases List.prefix_or_prefix_of_prefix hfirst hothers with hshort | hlong
    · exact hshort
    · obtain ⟨more, hmore⟩ := hlong
      rcases List.eq_nil_or_concat more with rfl | ⟨init, j, rfl⟩
      · rw [List.append_nil] at hmore
        exact hmore ▸ List.prefix_rfl
      · -- The last job was started with enough breakages before it.
        rw [List.concat_eq_append, ← List.append_assoc] at hmore
        have hfew := h.manned _ j hmore.symm
        rw [breakages_append] at hfew
        omega

/-- There is only one choice of jobs that are due. -/
theorem AreDue.eq {jobs accepted others : List Job} (h : AreDue size accepted jobs)
    (hothers : AreDue size accepted others) : jobs = others := by
  by_cases hfew : breakages accepted < size
  · rw [h.whole hfew, hothers.whole hfew]
  · have hmany : size ≤ breakages accepted := not_lt.mp hfew
    have hforth := h.shortest others hothers.inOrder (hothers.cut hmany).ge
    have hback := hothers.shortest jobs h.inOrder (h.cut hmany).ge
    exact hforth.eq_of_length (le_antisymm hforth.length_le hback.length_le)

/-! ### Coming to rest -/

/-- The running jobs can all end. -/
theorem exists_idle (c : Crew) :
    ∃ work b, (∀ m ∈ work, m.isWork = true) ∧ c.play? work = some b ∧ b.running = [] := by
  induction hrunning : c.running generalizing c with
  | nil => exact ⟨[], c, by simp, rfl, hrunning⟩
  | cons j rest ih =>
    have hmove : c.move? (.finish j) = some (c.finish j) :=
      if_pos (by rw [hrunning]; exact List.mem_cons_self)
    have hleft : (c.finish j).running = rest := by
      rw [show (c.finish j).running = c.running.erase j from rfl, hrunning, List.erase_cons_head]
    obtain ⟨work, b, hwork, hplay, hidle⟩ := ih (c.finish j) hleft
    refine ⟨.finish j :: work, b, List.forall_mem_cons.mpr ⟨rfl, hwork⟩, ?_, hidle⟩
    rw [play?_cons, hmove]
    exact hplay

theorem settleQueue_isAtRest (jobs : List Job) :
    ∀ c : Crew, c.queue = jobs → c.running = [] → (settleQueue jobs c).IsAtRest ∧
      ∃ work, (∀ m ∈ work, m.isWork = true) ∧ c.play? work = some (settleQueue jobs c) := by
  induction jobs with
  | nil => exact fun c hqueue hidle => ⟨isAtRest_iff.mpr ⟨hidle, .inl hqueue⟩, [], by simp, rfl⟩
  | cons j rest ih =>
    intro c hqueue hidle
    unfold settleQueue
    split
    · next hfree =>
      have htake : c.move? (.take j) = some (c.take j rest) := by
        rw [move?, if_pos ⟨by rw [hqueue]; rfl, hfree⟩, hqueue]
        rfl
      have hfinish : (c.take j rest).move? (.finish j) = some ((c.take j rest).finish j) :=
        if_pos List.mem_cons_self
      have hleft : ((c.take j rest).finish j).running = [] := by
        show (j :: c.running).erase j = []
        rw [List.erase_cons_head, hidle]
      obtain ⟨hrest, work, hwork, hplay⟩ := ih ((c.take j rest).finish j) rfl hleft
      refine ⟨hrest, .take j :: .finish j :: work, ?_, ?_⟩
      · exact List.forall_mem_cons.mpr ⟨rfl, List.forall_mem_cons.mpr ⟨rfl, hwork⟩⟩
      · rw [play?_cons, htake, Option.bind_some, play?_cons, hfinish]
        exact hplay
    · next hbusy =>
      exact ⟨isAtRest_iff.mpr ⟨hidle, .inr (Bool.eq_false_iff.mpr hbusy)⟩, [], by simp, rfl⟩

/-- One job at a time is an order that the workers can keep to, and it leaves them nothing. -/
theorem settle_isAtRest (c : Crew) (hidle : c.running = []) : c.settle.IsAtRest ∧
    ∃ work, (∀ m ∈ work, m.isWork = true) ∧ c.play? work = some c.settle :=
  settleQueue_isAtRest c.queue c rfl hidle

theorem exists_atRest (c : Crew) :
    ∃ work b, (∀ m ∈ work, m.isWork = true) ∧ c.play? work = some b ∧ b.IsAtRest := by
  obtain ⟨ending, idle, hending, hidle, hnone⟩ := exists_idle c
  obtain ⟨hrest, work, hwork, hsettle⟩ := settle_isAtRest idle hnone
  refine ⟨ending ++ work, idle.settle, List.forall_mem_append.mpr ⟨hending, hwork⟩, ?_, hrest⟩
  rw [play?_append, hidle]
  exact hsettle

/-! ### What becomes of the jobs -/

/-- The order of the workers' moves is no matter: runs that accept the same jobs and leave nothing
to do have started the same ones. -/
theorem started_eq_of_accepted_eq {others : List Move} {b : Crew}
    (hhire : Crew.hire size = .ok c₀) (hplay : c₀.play? moves = some c)
    (hothers : c₀.play? others = some b) (hsame : accepted moves = accepted others)
    (hc : c.IsAtRest) (hb : b.IsAtRest) : c.started = b.started := by
  have hmoves := Books.play hhire hplay
  have hrun := Books.play hhire hothers
  have hdue := hmoves.areDue hc
  rw [hsame] at hdue
  rw [hmoves.started_eq, hrun.started_eq]
  exact hdue.eq (hrun.areDue hb)

/-- **Whichever worker is faster, the same jobs are done.** At every point of every run the jobs
started are the first ones accepted, in the order in which they were handed in and each of them
once; nothing handed in after the crew was closed is among them. A single worker starts a job only
when all it started before have ended. Once nothing is left for the workers to do, every job that
was started has ended, and those are the ones that were due: up to the breakage that cost the last
worker, or all. And the workers can always get there. -/
theorem jobs_done (hhire : Crew.hire size = .ok c₀) (hplay : c₀.play? moves = some c) :
    (∀ c', Step c c' ↔ ∃ m, c.move? m = some c') ∧
      c.started = starts moves ∧ starts moves <+: accepted moves ∧
      (size = 1 → ∀ before j after, moves = before ++ .take j :: after →
        ends before = starts before) ∧
      (c.IsAtRest →
        (ends moves).Perm (starts moves) ∧ AreDue size (accepted moves) (starts moves)) ∧
      ∃ work b, (∀ m ∈ work, m.isWork = true) ∧ c.play? work = some b ∧ b.IsAtRest := by
  have hbooks := Books.play hhire hplay
  refine ⟨fun c' => step_iff, hbooks.started_eq, ⟨c.queue, hbooks.inOrder⟩, ?_, ?_,
    exists_atRest c⟩
  · rintro hone before j after rfl
    obtain ⟨b, hb, hafter⟩ := Option.bind_eq_some_iff.mp (play?_append c₀ before _ ▸ hplay)
    obtain ⟨b', hmove, -⟩ := Option.bind_eq_some_iff.mp (play?_cons b _ after ▸ hafter)
    have hbefore := Books.play hhire hb
    obtain ⟨⟨-, hfree⟩, -⟩ := Option.ite_none_right_eq_some.mp hmove
    have hsize := hbefore.size_eq
    have hnone : b.running = [] := by
      simp only [hasFree, decide_eq_true_eq] at hfree
      exact List.length_eq_zero_iff.mp (by omega)
    rw [← hbefore.alone hone, hnone, List.append_nil]
  · intro hrest
    refine ⟨?_, hbooks.areDue hrest⟩
    have hpending := hbooks.pending
    rwa [(isAtRest_iff.mp hrest).1, List.append_nil] at hpending

end

/-- Two workers, and two jobs that break. The job behind them is never started, though it was in
time, and one more comes too late. -/
def shift : List Move :=
  [.submit ⟨0, false⟩, .submit ⟨1, true⟩, .take ⟨0, false⟩, .submit ⟨2, true⟩, .take ⟨1, true⟩,
    .finish ⟨1, true⟩, .submit ⟨3, false⟩, .finish ⟨0, false⟩, .close, .submit ⟨4, false⟩,
    .take ⟨2, true⟩, .finish ⟨2, true⟩]

theorem jobs_done_shift :
    ∃ c₀ c, Crew.hire 2 = .ok c₀ ∧ c₀.play? shift = some c ∧ c.IsAtRest ∧
      accepted shift = [⟨0, false⟩, ⟨1, true⟩, ⟨2, true⟩, ⟨3, false⟩] ∧
      starts shift = [⟨0, false⟩, ⟨1, true⟩, ⟨2, true⟩] ∧
      AreDue 2 (accepted shift) (starts shift) := by
  let spent : Crew :=
    ⟨2, 2, false, [⟨3, false⟩], [], [⟨0, false⟩, ⟨1, true⟩, ⟨2, true⟩]⟩
  have hhire : Crew.hire 2 = .ok {size := 2} := rfl
  have hplay : Crew.play? {size := 2} shift = some spent := by decide
  have hrest : spent.IsAtRest := isAtRest_iff.mpr ⟨rfl, .inr rfl⟩
  obtain ⟨-, -, -, -, hdue, -⟩ := jobs_done hhire hplay
  exact ⟨_, spent, hhire, hplay, hrest, rfl, rfl, (hdue hrest).2⟩

end Crew
end MailCapture
