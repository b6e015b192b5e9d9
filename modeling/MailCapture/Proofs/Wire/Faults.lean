import MailCapture.Proofs.Wire.Disturbed

/-! Faults among the bytes.

Read by their kind alone, faults are met in one of three ways: an interruption is nothing, a wait
that took too long ends the conversation quietly, any other fault ends it with a failure. `heeding`
is a conversation that goes by this policy, wherever a fault strikes. `run` does not quite: while
the rest of an overlong command is passed over, every fault is a failure. `faults_heeded` says that
this is the only difference, and what comes of it. -/
namespace MailCapture

/-! ### The policy -/

/-- The reads up to the first fault that is not an interruption, and that fault. -/
def heeded : List Arrival → List Bytes × Option StreamError
  | [] => ([], none)
  | .bytes read :: rest => (read :: (heeded rest).1, (heeded rest).2)
  | .fault e :: rest => if e.kind = .interrupted then heeded rest else ([], some e)

theorem ne_interrupted_of_heeded {arrivals : List Arrival} {e : StreamError}
    (h : (heeded arrivals).2 = some e) : e.kind ≠ .interrupted := by
  induction arrivals with
  | nil => cases h
  | cons a rest ih =>
    cases a with
    | bytes read => exact ih h
    | fault e' =>
      rw [heeded] at h
      split at h
      · exact ih h
      · next hkind =>
        obtain rfl := Option.some.inj h
        exact hkind

namespace Conversation

/-- Goes on with some reads, and then with the end of input or a fault. -/
def heed (c : Conversation) (heard : List Bytes × Option StreamError) : Conversation :=
  let c := c.receive (.bytes heard.1.flatten)
  match heard.2 with
  | none => c.close
  | some e => if c.isEnded then c else c.finish (if e.kind = .timedOut then none else some e)

/-- A conversation that meets every fault by its kind. -/
def heeding (session : Session) (arrivals : List Arrival) (outlet : Outlet) (stop : StopSignal)
    (delayed : Bool) : Conversation :=
  (start session outlet stop delayed).heed (heeded arrivals)

variable {c : Conversation}

theorem heed_bytes (read : Bytes) (rest : List Arrival) :
    c.heed (heeded (.bytes read :: rest)) = (c.receive (.bytes read)).heed (heeded rest) := by
  unfold heed
  rw [heeded, List.flatten_cons, receive_bytes_append]

theorem heed_interrupted {e : StreamError} (hkind : e.kind = .interrupted) (rest : List Arrival) :
    c.heed (heeded (.fault e :: rest)) = c.heed (heeded rest) := by
  rw [heeded, if_pos hkind]

theorem heed_fault {e : StreamError} (hkind : e.kind ≠ .interrupted) (rest : List Arrival) :
    c.heed (heeded (.fault e :: rest)) =
      if c.isEnded then c else c.finish (if e.kind = .timedOut then none else some e) := by
  rw [heeded, if_neg hkind]
  rfl

theorem close_ended (h : c.isEnded = true) : c.close = c := by
  obtain ⟨session, mode, outlet, stop, delayed, acts⟩ := c
  cases mode with
  | ended failure => rfl
  | reading | skipping => cases h

theorem heed_ended (h : c.isEnded = true) (heard : List Bytes × Option StreamError) :
    c.heed heard = c := by
  unfold heed
  rw [receive_ended h]
  simp only [close_ended h, h, if_true]
  split <;> rfl

/-! ### Keeping to it -/

/-- A fault that leaves a conversation going was an interruption. -/
theorem stumble_going {e : StreamError} (h : (c.stumble e).isEnded = false) :
    e.kind = .interrupted ∧ c.stumble e = c := by
  obtain ⟨session, mode, outlet, stop, delayed, acts⟩ := c
  obtain ⟨kind, text⟩ := e
  cases mode with
  | reading room line =>
    cases kind with
    | interrupted => exact ⟨rfl, rfl⟩
    | timedOut | broken => cases h
  | skipping | ended => cases h

theorem stumble_skipping (h : c.mode = .skipping) (e : StreamError) :
    c.stumble e = c.finish (some e) := by
  unfold stumble
  rw [h]

/-- Elsewhere faults are met by their kind. -/
theorem stumble_met {e : StreamError} (h : c.mode = .skipping → e.kind = .broken) :
    c.stumble e =
      if c.isEnded ∨ e.kind = .interrupted then c
      else c.finish (if e.kind = .timedOut then none else some e) := by
  obtain ⟨session, mode, outlet, stop, delayed, acts⟩ := c
  obtain ⟨kind, text⟩ := e
  cases mode with
  | skipping =>
    obtain rfl : kind = .broken := h rfl
    rfl
  | reading | ended => cases kind <;> rfl

/-- As long as a conversation is going on, the faults so far have been interruptions. -/
theorem heed_append {before : List Arrival} (rest : List Arrival)
    (h : (c.receiveAll before).isEnded = false) :
    c.heed (heeded (before ++ rest)) = (c.receiveAll before).heed (heeded rest) := by
  induction before generalizing c with
  | nil => rfl
  | cons a before ih =>
    rw [List.cons_append]
    cases a with
    | bytes read =>
      rw [heed_bytes]
      exact ih h
    | fault e =>
      have hgoing : (c.stumble e).isEnded = false := by
        by_contra hended
        rw [Bool.not_eq_false] at hended
        have hsame : c.receiveAll (.fault e :: before) = c.stumble e := receiveAll_ended hended before
        rw [hsame, hended] at h
        cases h
      obtain ⟨hkind, hsame⟩ := stumble_going hgoing
      rw [heed_interrupted hkind]
      show _ = ((c.stumble e).receiveAll before).heed _
      rw [hsame]
      refine ih ?_
      rw [← hsame]
      exact h

/-- What a conversation makes of some arrivals, if no fault but a failure strikes while it passes
over the rest of an overlong command. -/
theorem close_receiveAll_eq_heed {arrivals : List Arrival}
    (h : ∀ n e, arrivals[n]? = some (.fault e) →
      (c.receiveAll (arrivals.take n)).mode = .skipping → e.kind = .broken) :
    (c.receiveAll arrivals).close = c.heed (heeded arrivals) := by
  induction arrivals generalizing c with
  | nil => rfl
  | cons a rest ih =>
    have hrest : ((c.receive a).receiveAll rest).close = (c.receive a).heed (heeded rest) :=
      ih fun n e => h (n + 1) e
    show ((c.receive a).receiveAll rest).close = _
    rw [hrest]
    cases a with
    | bytes read => exact (heed_bytes read rest).symm
    | fault e =>
      show (c.stumble e).heed _ = _
      have hmet := stumble_met (c := c) (e := e) (h 0 e rfl)
      by_cases hkind : e.kind = .interrupted
      · rw [heed_interrupted hkind, hmet, if_pos (.inr hkind)]
      · rw [heed_fault hkind]
        by_cases hended : c.isEnded = true
        · rw [hmet, if_pos (.inl hended), if_pos hended, heed_ended hended]
        · rw [hmet, if_neg (not_or.mpr ⟨hended, hkind⟩), if_neg hended, heed_ended rfl]

/-! ### Departing from it -/

theorem eq_take_append_fault {arrivals : List Arrival} {n : Nat} {e : StreamError}
    (h : arrivals[n]? = some (.fault e)) :
    arrivals = arrivals.take n ++ .fault e :: arrivals.drop (n + 1) := by
  obtain ⟨hn, hget⟩ := List.getElem?_eq_some_iff.mp h
  rw [← hget, List.getElem_cons_drop hn, List.take_append_drop]

/-- A fault while the rest of an overlong command is passed over ends a conversation with a failure,
of whatever kind it is. -/
theorem close_receiveAll_of_skipping {arrivals : List Arrival} {n : Nat} {e : StreamError}
    (hfault : arrivals[n]? = some (.fault e))
    (hskip : (c.receiveAll (arrivals.take n)).mode = .skipping) :
    (c.receiveAll arrivals).close = (c.receiveAll (arrivals.take n)).finish (some e) := by
  have hrest : c.receiveAll arrivals =
      ((c.receiveAll (arrivals.take n)).stumble e).receiveAll (arrivals.drop (n + 1)) := by
    conv => lhs; rw [eq_take_append_fault hfault, receiveAll_append]
    rfl
  rw [hrest, stumble_skipping hskip, receiveAll_ended rfl]
  rfl

theorem isPrefix_receive (c : Conversation) (bytes : Bytes) :
    c.history <+: (c.receive (.bytes bytes)).history := by
  induction bytes generalizing c with
  | nil => exact List.prefix_rfl
  | cons b rest ih => exact (isPrefix_hear c b).trans (ih (c.hear b))

theorem isPrefix_heed (c : Conversation) (heard : List Bytes × Option StreamError) :
    (c.receive (.bytes heard.1.flatten)).history <+: (c.heed heard).history := by
  unfold heed
  split
  · exact isPrefix_close _
  · simp only
    split
    · exact List.prefix_rfl
    · exact List.prefix_rfl

/-- A reply is written, unless the stop signal is seen up. -/
theorem say_reply (c : Conversation) (reply : Reply) (next : Phase) :
    ∃ stop, c.say ⟨some reply, next⟩ = {c with stop}.finish none ∨
      c.say ⟨some reply, next⟩ = {c with stop}.write (Text.encode reply.line) := by
  unfold say
  simp only
  generalize (if c.delayed then c.stop.look else (false, c.stop)) = look
  obtain ⟨raised, stop⟩ := look
  cases raised with
  | true => exact ⟨stop, .inl rfl⟩
  | false => exact ⟨stop, .inr rfl⟩

/-- However a conversation goes on from a refusal, it has not ended before it with a failure. -/
theorem ne_finish_of_refuse {d : Conversation} (hgrown : c.refuse.history <+: d.history)
    (hended : c.refuse.isEnded = true → d = c.refuse) (e : StreamError) : d ≠ c.finish (some e) := by
  intro heq
  obtain ⟨stop, hstop | hwrite⟩ := say_reply c ⟨500, "Line too long".toList⟩ c.session.phase
  · have hstopped : c.refuse = {c with stop}.finish none := hstop
    have hfailure : d.failure? = none := by
      rw [hended (by rw [hstopped]; rfl), hstopped]
      rfl
    rw [heq] at hfailure
    cases hfailure
  · have hwritten : c.refuse = {c with stop}.write _ := hwrite
    have hlength := hgrown.length_le
    rw [heq, hwritten, history_write, List.length_append] at hlength
    exact absurd hlength (Nat.not_succ_le_self _)

/-- Passing over a line goes on to its newline. -/
theorem receive_passing {raw : Bytes} (hraw : 10 ∉ raw) (h : c.mode = .skipping) :
    c.receive (.bytes raw) = c := by
  induction raw with
  | nil => rfl
  | cons b rest ih =>
    rw [List.mem_cons, not_or] at hraw
    have hhear : c.hear b = c := by
      unfold hear
      rw [h]
      exact if_neg (Ne.symm hraw.1)
    show (c.hear b).receive (.bytes rest) = c
    rw [hhear]
    exact ih hraw.2

theorem isEnded_of_skipping (h : c.mode = .skipping) : c.isEnded = false := by
  unfold isEnded
  rw [h]

theorem heed_passing_newline (h : c.mode = .skipping) {reads : List Bytes} {raw rest : Bytes}
    (hraw : 10 ∉ raw) (hreads : reads.flatten = raw ++ 10 :: rest) (last : Option StreamError) :
    c.heed (reads, last) = c.refuse.heed ([rest], last) := by
  have hnewline : c.hear 10 = c.refuse := by
    unfold hear
    rw [h]
    rfl
  have hreceive : c.receive (.bytes reads.flatten) = c.refuse.receive (.bytes rest) := by
    rw [hreads, receive_bytes_append, receive_passing hraw h, ← hnewline]
    rfl
  unfold heed
  rw [hreceive, List.flatten_singleton]

theorem heed_passing_end (h : c.mode = .skipping) {reads : List Bytes} (hraw : 10 ∉ reads.flatten) :
    c.heed (reads, none) = if c.refuse.isEnded then c.refuse else c.refuse.finish none := by
  have hflush : c.flush = c.refuse := by
    unfold flush
    rw [h]
  unfold heed
  rw [receive_passing hraw h, ← hflush]
  exact close_eq c

theorem heed_passing_fault (h : c.mode = .skipping) {reads : List Bytes} (hraw : 10 ∉ reads.flatten)
    (e : StreamError) :
    c.heed (reads, some e) = c.finish (if e.kind = .timedOut then none else some e) := by
  unfold heed
  rw [receive_passing hraw h]
  simp only [isEnded_of_skipping h, Bool.false_eq_true, if_false]

/-- Nothing that comes after an interruption makes up for a failure there. -/
theorem heed_ne_finish (h : c.mode = .skipping) (arrivals : List Arrival) {e : StreamError}
    (hkind : e.kind = .interrupted) : c.heed (heeded arrivals) ≠ c.finish (some e) := by
  rcases hheard : heeded arrivals with ⟨reads, last⟩
  rcases newline_or_none reads.flatten with ⟨raw, rest, hraw, hreads⟩ | hraw
  · rw [heed_passing_newline h hraw hreads]
    exact ne_finish_of_refuse ((isPrefix_receive ..).trans (isPrefix_heed ..))
      (fun hended => heed_ended hended _) e
  · cases last with
    | none =>
      rw [heed_passing_end h hraw]
      refine ne_finish_of_refuse ?_ (fun hended => if_pos hended) e
      split
      · exact List.prefix_rfl
      · exact List.prefix_rfl
    | some e' =>
      have hkind' : e'.kind ≠ .interrupted := ne_interrupted_of_heeded (congrArg Prod.snd hheard)
      rw [heed_passing_fault h hraw]
      intro heq
      have hfailure := congrArg failure? heq
      change (if e'.kind = .timedOut then none else some e') = some e at hfailure
      split at hfailure
      · cases hfailure
      · obtain rfl := Option.some.inj hfailure
        exact hkind' hkind

/-- The policy is not kept where a fault that is no failure strikes while a line is passed over. -/
theorem heed_ne_of_skipping {arrivals : List Arrival} {n : Nat} {e : StreamError}
    (hfault : arrivals[n]? = some (.fault e))
    (hskip : (c.receiveAll (arrivals.take n)).mode = .skipping) (hkind : e.kind ≠ .broken) :
    c.heed (heeded arrivals) ≠ (c.receiveAll (arrivals.take n)).finish (some e) := by
  have hgoing := isEnded_of_skipping hskip
  have hheed : c.heed (heeded arrivals) = (c.receiveAll (arrivals.take n)).heed
      (heeded (.fault e :: arrivals.drop (n + 1))) := by
    rw [← heed_append _ hgoing, ← eq_take_append_fault hfault]
  rw [hheed]
  by_cases hagain : e.kind = .interrupted
  · rw [heed_interrupted hagain]
    exact heed_ne_finish hskip _ hagain
  · have hwait : e.kind = .timedOut := by
      obtain ⟨kind, text⟩ := e
      cases kind <;> simp_all
    rw [heed_fault hagain, hgoing, if_neg Bool.false_ne_true, if_pos hwait]
    exact fun heq => nomatch congrArg failure? heq

end Conversation

/-- **Faults and the policy.** A conversation meets every fault by its kind exactly if no
interruption and no wait too long strikes while it passes over the rest of an overlong command.
There any fault whatever ends it at once, with a failure: nothing more is heard, written or
delivered, and the command is not refused. -/
theorem faults_heeded (s : Session) (arrivals : List Arrival) (outlet : Outlet) (stop : StopSignal)
    (delayed : Bool) :
    let upTo n := (Conversation.start s outlet stop delayed).receiveAll (arrivals.take n)
    (Conversation.run s arrivals outlet stop delayed =
        Conversation.heeding s arrivals outlet stop delayed ↔
      ∀ n e, arrivals[n]? = some (.fault e) → (upTo n).mode = .skipping → e.kind = .broken) ∧
    ∀ n e, arrivals[n]? = some (.fault e) → (upTo n).mode = .skipping →
      Conversation.run s arrivals outlet stop delayed = (upTo n).finish (some e) := by
  intro upTo
  have hskipping (n : Nat) (e : StreamError) (hfault : arrivals[n]? = some (.fault e))
      (hskip : (upTo n).mode = .skipping) :
      Conversation.run s arrivals outlet stop delayed = (upTo n).finish (some e) :=
    Conversation.close_receiveAll_of_skipping hfault hskip
  refine ⟨⟨fun hrun n e hfault hskip => ?_, Conversation.close_receiveAll_eq_heed⟩, hskipping⟩
  by_contra hkind
  refine Conversation.heed_ne_of_skipping hfault hskip hkind ?_
  exact hrun.symm.trans (hskipping n e hfault hskip)

/-- An interruption that strikes while a line is passed over is a failure, and so is a wait too long:
the first costs the client its refusal, and both the quiet end that the policy gives them. -/
theorem interruption_fails_while_skipping :
    let s : Session := { hostname := "mx".toList }
    let long : Arrival := .bytes (List.replicate 600 120)
    let interrupted : List Arrival := [long, .fault ⟨.interrupted, []⟩, .bytes [13, 10]]
    let waited : List Arrival := [long, .fault ⟨.timedOut, []⟩]
    let run arrivals := Conversation.run s arrivals .sound .down false
    let heeding arrivals := Conversation.heeding s arrivals .sound .down false
    ((run interrupted).failure? = some ⟨.interrupted, []⟩ ∧
        (run interrupted).written = Text.encode "220 mx SMTP service ready\r\n".toList) ∧
      ((heeding interrupted).failure? = none ∧ (heeding interrupted).written =
        Text.encode "220 mx SMTP service ready\r\n500 Line too long\r\n".toList) ∧
      (run waited).failure? = some ⟨.timedOut, []⟩ ∧ (heeding waited).failure? = none := by
  decide +kernel

end MailCapture
