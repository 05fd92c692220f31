import DnsOverStreams.Proofs.Connection.Closing
/-!
How far the deadline of a stream bounds its operations. It is looked at by an operation that has the
connection and has to wait, but not while the operation stands in line. So when nobody can go on, an
operation whose deadline has come waits only behind one that has the connection and has more time.
-/

namespace DnsOverStreams

namespace Connection

variable {c e : Connection} {x : Happening} {log notices : List Notice} {s : Nat} {d : Time}

/-- The first in line has the connection, is not on the stream, and its deadline, if it has one, has not
come; and somebody on the stream stands behind it. -/
def HeldUp (c : Connection) (s : Nat) : Prop :=
  ∃ q rest, c.line = .operation q :: rest ∧ q.holds = true ∧ q.stream ≠ s ∧
    (∀ t ∈ q.deadline, c.now < t) ∧ ∃ p, .operation p ∈ rest ∧ p.stream = s

/-- Unless the end of an operation on a stream was noticed, one with this deadline is in line. -/
def Waits (s : Nat) (d : Time) (line : List Waiter) (log : List Notice) : Prop :=
  log.find? (·.finishes s) = none →
    ∃ p, .operation p ∈ line ∧ p.stream = s ∧ p.deadline = some d

theorem Waits.of_change {c' : Connection} (h : Waits s d c.line log)
    (change : Change c x c' notices) : Waits s d c'.line (log ++ notices) := by
  intro hnone
  rw [List.find?_append, Option.or_eq_none_iff] at hnone
  obtain ⟨hlog, hnotices⟩ := hnone
  obtain ⟨p, hp, hstream, hdeadline⟩ := h hlog
  have still {line : List Waiter} (hmem : .operation p ∈ line) :
      ∃ p, .operation p ∈ line ∧ p.stream = s ∧ p.deadline = some d := ⟨p, hmem, hstream, hdeadline⟩
  cases change with
  | aside | streamClosed | refused | arrived | collected | peerLeft => exact still hp
  | started | closing => exact still (List.mem_append_left _ hp)
  | @dropped stream busy =>
      have hne : stream ≠ s := by simpa using hnotices
      refine still (List.mem_filter.mpr ⟨hp, ?_⟩)
      simpa [hstream] using Ne.symm hne
  | @cutOff place q at_place =>
      have hne : q.stream ≠ s := by simpa using hnotices
      obtain ⟨i, hi⟩ := List.mem_iff_getElem?.mp hp
      refine still (List.mem_eraseIdx_iff_getElem?.mpr ⟨i, ?_, hi⟩)
      rintro rfl
      simp_all
  | @finished q rest o l bytes first | @expired q rest o l bytes first =>
      have hne : q.stream ≠ s := by simp_all
      rw [first] at hp
      rcases List.mem_cons.mp hp with heq | hp
      · cases heq
        exact absurd hstream hne
      · exact still hp
  | @waited q rest op l bytes first =>
      rw [first] at hp
      rcases List.mem_cons.mp hp with heq | hp
      · cases heq
        exact ⟨_, List.mem_cons_self, hstream, hdeadline⟩
      · exact still (List.mem_cons_of_mem _ hp)
  | shut first | passed first =>
      rw [first] at hp
      exact still (by simpa using hp)

theorem waits_of_started {op : Operation} (bound : c.deadline s = some d)
    (begun : c.happen x = c.start s op) : Waits s d (c.happen x).1.line (c.happen x).2 := by
  rw [begun, start]
  split
  · rintro hnone
    simp at hnone
  · exact fun _ => ⟨_, List.mem_append_right _ (List.mem_singleton_self _), rfl, bound⟩

theorem waits_after {op : Operation} (bound : c.deadline s = some d)
    (begun : c.happen x = c.start s op) (later : List Happening) :
    Waits s d (c.after (x :: later)).1.line (c.after (x :: later)).2 := by
  refine after_keeps (fun c' log => Waits s d c'.line ((c.happen x).2 ++ log)) ?_ (c.happen x).1 ?_ later
  · intro c' y e log notices h change
    rw [← List.append_assoc]
    exact h.of_change change
  · rw [List.append_nil]
    exact waits_of_started bound begun

theorem holds_of_quiet {q : Pending} {rest : List Waiter} (quiet : c.Quiet)
    (first : c.line = .operation q :: rest) (alive : c.isClosed = false) (held : c.taken = false) :
    q.holds = true ∧ ∀ t ∈ q.deadline, c.now < t := by
  have hturn := congrArg (·.1.line) (quiet 0)
  simp only [turn, first, List.getElem?_cons_zero, operationTurn, alive, held, Pending.proceed,
    Bool.false_eq_true, if_false, ne_eq, not_true_eq_false, List.tail_cons] at hturn
  rcases tried : q.operation.attempt c.link with ⟨o | op, l, bytes⟩
  · simp [tried] at hturn
  · cases late : q.deadline.any (· ≤ c.now) with
    | true => simp [tried, late] at hturn
    | false =>
        simp only [tried, late, Bool.false_eq_true, if_false, Option.map_some, Option.toList_some,
          List.cons_append, List.nil_append, List.cons.injEq, and_true] at hturn
        refine ⟨(congrArg (fun w => w.operation?.any (·.holds)) hturn).symm, fun t ht => ?_⟩
        rw [Option.mem_def.mp ht] at late
        exact Nat.not_le.mp (of_decide_eq_false late)

theorem heldUp_of_quiet {p : Pending} (honest : Honest c log) (distinct : Distinct c.line)
    (quiet : c.Quiet) (inLine : .operation p ∈ c.line) (bound : p.deadline = some d)
    (due : d ≤ c.now) : HeldUp c p.stream := by
  have alive : c.isClosed = false := by
    cases closed : c.isClosed with
    | false => rfl
    | true => simp [nobody_of_quiet closed quiet] at inLine
  have held : c.taken = false := by
    cases taken : c.taken with
    | false => rfl
    | true => cases alive.symm.trans (honest.taken taken)
  cases first : c.line with
  | nil => simp [first] at inLine
  | cons w rest =>
      cases w with
      | closing number =>
          cases alive.symm.trans (honest.inLine number (first ▸ List.mem_cons_self))
      | operation q =>
          obtain ⟨holds, early⟩ := holds_of_quiet quiet first alive held
          have hne : q.stream ≠ p.stream := by
            intro hstream
            obtain rfl := distinct.eq_of_first first (mem_queue.mpr inLine) hstream.symm
            exact absurd due (Nat.not_le.mpr (early d bound))
          refine ⟨q, rest, first, holds, hne, early, p, ?_, rfl⟩
          rw [first] at inLine
          rcases List.mem_cons.mp inLine with heq | hmem
          · cases heq
            exact absurd rfl hne
          · exact hmem

/-- Why an operation ends: it has its result, its pipe or the whole connection is closed, or it has run out
of time. -/
inductive EndsBy (c : Connection) : Outcome → Prop where
  | got (bytes : Bytes) : EndsBy c (.got bytes)
  | wrote (count : Nat) : EndsBy c (.wrote count)
  | broken (closed : c.link.outgoing.closed = true) :
      EndsBy c (.failed ⟨.brokenPipe, "broken pipe"⟩)
  | refused (closed : c.isClosed = true) :
      EndsBy c (.failed ⟨.notConnected, "connection already closed"⟩)
  | late : EndsBy c (.failed ⟨.timedOut, "stream deadline exceeded"⟩)

theorem broken_of_change {c' : Connection} (h : c.link.outgoing.closed = true)
    (change : Change c x c' notices) : c'.link.outgoing.closed = true := by
  cases change with
  | finished _ _ _ tried | expired _ _ _ tried | waited _ _ _ tried =>
      exact (Operation.outgoing_of_attempt tried).2.trans h
  | peerLeft | shut => rfl
  | _ => exact h

theorem EndsBy.of_change {c' : Connection} {o : Outcome} (h : c.EndsBy o)
    (change : Change c x c' notices) : c'.EndsBy o := by
  cases h with
  | got bytes => exact .got bytes
  | wrote count => exact .wrote count
  | broken closed => exact .broken (broken_of_change closed change)
  | refused closed => exact .refused (isClosed_of_change closed change)
  | late => exact .late

theorem endsBy_of_tried {op : Operation} {o : Outcome} {l : Link} {bytes : Bytes}
    (tried : op.attempt c.link = ⟨.inl o, l, bytes⟩) : c.EndsBy o := by
  cases Operation.tries_of_eq tried with
  | nothing | ends | takes => exact .got _
  | wrote | sends => exact .wrote _
  | breaks unsent closed => exact .broken closed

theorem endsBy_of_change {c' : Connection} {t : Nat} {o : Outcome} (honest : Honest c log)
    (change : Change c x c' notices) (h : .ended t o ∈ notices) : c'.EndsBy o := by
  refine EndsBy.of_change ?_ change
  cases change with
  | refused closed =>
      obtain ⟨rfl, rfl⟩ : t = _ ∧ o = _ := by simpa using h
      exact .refused closed
  | cutOff at_place cut =>
      obtain ⟨rfl, rfl⟩ : t = _ ∧ o = _ := by simpa using h
      exact .refused (cut.elim id honest.taken)
  | finished first alive held tried =>
      obtain ⟨rfl, rfl⟩ : t = _ ∧ o = _ := by simpa using h
      exact endsBy_of_tried tried
  | expired =>
      obtain ⟨rfl, rfl⟩ : t = _ ∧ o = _ := by simpa using h
      exact .late
  | _ => simp at h

theorem endsBy_after (capacity : Nat) (shutdown : Option IoFailure) (xs : List Happening) :
    ∀ t o, .ended t o ∈ ((opened capacity shutdown).after xs).2 →
      ((opened capacity shutdown).after xs).1.EndsBy o := by
  let Kept (c : Connection) (log : List Notice) : Prop :=
    Honest c log ∧ ∀ t o, .ended t o ∈ log → c.EndsBy o
  suffices Kept _ _ from this.2
  refine after_keeps Kept ?_ (opened capacity shutdown) ⟨⟨nofun, nofun, nofun⟩, nofun⟩ xs
  rintro c y d log notices ⟨honest, ends⟩ change
  refine ⟨honest.of_change change, fun t o hmem => ?_⟩
  rcases List.mem_append.mp hmem with hmem | hmem
  · exact (ends t o hmem).of_change change
  · exact endsBy_of_change honest change hmem

/-- When the deadline of a stream has come and nobody can go on, an operation that was started on the
stream before has ended or was dropped, unless another one has the connection and has more time. If nothing
else has ended it, it has run out of time. -/
theorem bounded_unless_heldUp {capacity : Nat} {shutdown : Option IoFailure}
    {before later : List Happening} (course : (opened capacity shutdown).after before = (c, log))
    (idle : c.isBusy s = false) (bound : c.deadline s = some d)
    (begun : (∃ room, x = .step (.read s room)) ∨ ∃ bytes, x = .step (.write s bytes))
    (continues : c.after (x :: later) = (e, notices)) (quiet : e.Quiet) (due : d ≤ e.now) :
    (∃ n, notices.find? (·.finishes s) = some n ∧ (n = .dropped s ∨
      ∃ o, n = .ended s o ∧ e.EndsBy o)) ∨ HeldUp e s := by
  have hbegun : ∃ op, c.happen x = c.start s op := by
    rcases begun with ⟨room, rfl⟩ | ⟨bytes, rfl⟩
    · exact ⟨.read room, by simp only [happen, act, unlessBusy, idle, Bool.false_eq_true, if_false]⟩
    · exact ⟨.write [] bytes, by simp only [happen, act, unlessBusy, idle, Bool.false_eq_true, if_false]⟩
  obtain ⟨op, hop⟩ := hbegun
  have hwaits := waits_after bound hop later
  have honest := honest_after capacity shutdown (before ++ x :: later)
  have distinct := distinct_after capacity shutdown (before ++ x :: later)
  have ends := endsBy_after capacity shutdown (before ++ x :: later)
  rw [continues] at hwaits
  rw [after_append, course] at honest distinct ends
  dsimp only at honest distinct ends
  rw [continues] at honest distinct ends
  cases found : notices.find? (·.finishes s) with
  | none =>
      obtain ⟨p, hp, rfl, hd⟩ := hwaits found
      exact .inr (heldUp_of_quiet honest distinct quiet hp hd due)
  | some n =>
      refine .inl ⟨n, rfl, ?_⟩
      have hmem : n ∈ log ++ notices := List.mem_append_right _ (List.mem_of_find?_eq_some found)
      have hfinishes := List.find?_some found
      cases n with
      | ended t o =>
          obtain rfl : t = s := by simpa using hfinishes
          exact .inr ⟨o, rfl, ends t o hmem⟩
      | dropped t =>
          obtain rfl : t = s := by simpa using hfinishes
          exact .inl rfl
      | _ => cases hfinishes

theorem bounded_unless_heldUp_alone :
    let reached := (opened 2 none).after [.step .openStream, .step (.setDeadline 0 (some 10))]
    let run := reached.1.after
      [.step (.read 0 4), .turn 0, .step (.advance 20), .turn 0]
    run.1.now = 20 ∧ run.2.any (·.finishes 0) = true ∧
      run.2.find? (·.finishes 0) =
        some (.ended 0 (.failed ⟨.timedOut, "stream deadline exceeded"⟩)) := by
  intro reached run
  have course : (opened 2 none).after _ = (reached.1, reached.2) := rfl
  have continues : reached.1.after _ = (run.1, run.2) := rfl
  refine ⟨rfl, ?_, rfl⟩
  rcases bounded_unless_heldUp course rfl rfl (.inl ⟨4, rfl⟩) continues (quiet_of_nobody rfl)
    (by decide) with ⟨n, found, -⟩ | ⟨q, rest, first, -⟩
  · exact List.any_eq_true.mpr ⟨n, List.mem_of_find?_eq_some found, List.find?_some found⟩
  · cases first

/-- A read whose deadline comes while it stands in line behind a read that has none waits for ever. -/
theorem waits_past_deadline :
    let reached := (opened 2 none).after [.step .openStream, .step .openStream,
      .step (.setDeadline 1 (some 10)), .step (.read 0 1), .turn 0]
    let run (ms : Nat) := reached.1.after [.step (.read 1 1), .step (.advance ms)]
    reached.1.isBusy 1 = false ∧ reached.1.deadline 1 = some 10 ∧
      ∀ ms, (run ms).1.now = ms ∧ (run ms).1.Quiet ∧ (run ms).2.find? (·.finishes 1) = none := by
  intro reached run
  refine ⟨rfl, rfl, fun ms => ⟨Nat.zero_add ms, ?_, rfl⟩⟩
  exact quiet_of_first rfl rfl rfl rfl rfl rfl

end Connection

end DnsOverStreams
