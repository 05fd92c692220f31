import DnsOverStreams.Proofs.Connection.Line
import DnsOverStreams.Proofs.Connection.Noticed
import DnsOverStreams.Proofs.Connection.Settling

namespace DnsOverStreams

def Notice.finishes (s : Nat) : Notice → Bool
  | ended t _ => t == s
  | dropped t => t == s
  | _ => false

namespace Notice

@[simp] theorem finishes_ended (s t : Nat) (o : Outcome) : (ended t o).finishes s = (t == s) := rfl

@[simp] theorem finishes_dropped (s t : Nat) : (dropped t).finishes s = (t == s) := rfl

@[simp] theorem finishes_started (s t : Nat) (op : Operation) :
    (started t op).finishes s = false := rfl

end Notice

namespace Connection

variable {c d : Connection} {x : Happening} {log notices : List Notice}

theorem isClosed_close (c : Connection) : c.close.isClosed = true := by
  simp [close, isClosed]

@[simp] theorem link_close (c : Connection) : c.close.link = c.link := rfl

theorem isClosed_of_change (h : c.isClosed = true) (change : Change c x d notices) :
    d.isClosed = true := by
  cases change with
  | closing => exact isClosed_close c
  | _ => exact h

/-- A closed connection sends nothing, and operations end only with the news that it is closed. -/
structure Refusing (log : List Notice) : Prop where
  ends : ∀ s o, .ended s o ∈ log → o = .failed .notConnected
  sends : ∀ s bytes, .pushed s bytes ∉ log

theorem Refusing.append (h : Refusing log) (later : Refusing notices) :
    Refusing (log ++ notices) := by
  constructor
  · intro s o hmem
    rcases List.mem_append.mp hmem with hmem | hmem
    · exact h.ends s o hmem
    · exact later.ends s o hmem
  · intro s bytes hmem
    rcases List.mem_append.mp hmem with hmem | hmem
    · exact h.sends s bytes hmem
    · exact later.sends s bytes hmem

theorem refusing_of_change (closed : c.isClosed = true) (change : Change c x d notices) :
    Refusing notices := by
  cases change with
  | finished _ alive | expired _ alive | waited _ alive | started alive => simp [closed] at alive
  | _ => constructor <;> simp_all

theorem pushed_of_refusing (h : Refusing log) : log.flatMap Notice.pushedBytes = [] := by
  refine List.flatMap_eq_nil_iff.mpr fun notice hnotice => ?_
  cases notice with
  | pushed s bytes => exact absurd hnotice (h.sends s bytes)
  | _ => rfl

/-- An operation that was in line when a closing began waits unchanged, or its end was noticed. -/
inductive Awaits (p : Pending) (line : List Waiter) (log : List Notice) : Prop where
  | waits (inLine : .operation p ∈ line) (unfinished : log.find? (·.finishes p.stream) = none)
  | refused (found : log.find? (·.finishes p.stream) =
      some (.ended p.stream (.failed .notConnected)))
  | dropped (found : log.find? (·.finishes p.stream) = some (.dropped p.stream))

namespace Awaits

variable {p : Pending}

theorem still {line : List Waiter} (inLine : .operation p ∈ line)
    (unfinished : log.find? (·.finishes p.stream) = none)
    (unnoticed : notices.find? (·.finishes p.stream) = none) : Awaits p line (log ++ notices) :=
  .waits inLine (by simp [List.find?_append, unfinished, unnoticed])

theorem of_change (h : Awaits p c.line log) (closed : c.isClosed = true)
    (change : Change c x d notices) : Awaits p d.line (log ++ notices) := by
  cases h with
  | refused found => exact .refused (by simp [List.find?_append, found])
  | dropped found => exact .dropped (by simp [List.find?_append, found])
  | waits inLine unfinished =>
      cases change with
      | finished _ alive | expired _ alive | waited _ alive | started alive =>
          simp [closed] at alive
      | aside | streamClosed | arrived | collected | peerLeft => exact still inLine unfinished rfl
      | closing => exact still (List.mem_append_left _ inLine) unfinished rfl
      | shut first | passed first =>
          rw [first] at inLine
          exact still (by simpa using inLine) unfinished rfl
      | @refused stream op _ idle =>
          -- the stream of whoever waits is busy, so nobody else is refused on it
          have hne : stream ≠ p.stream := by
            rintro rfl
            rw [isBusy_eq] at idle
            simpa using List.any_eq_false.mp idle _ inLine
          exact still inLine unfinished (by simp [hne])
      | @dropped stream busy =>
          by_cases hstream : stream = p.stream
          · exact .dropped (by simp [List.find?_append, unfinished, hstream])
          · refine still ?_ unfinished (by simp [hstream])
            exact List.mem_filter.mpr ⟨inLine, by simpa using Ne.symm hstream⟩
      | @cutOff place q at_place =>
          by_cases hstream : q.stream = p.stream
          · exact .refused (by simp [List.find?_append, unfinished, hstream])
          · refine still ?_ unfinished (by simp [hstream])
            obtain ⟨i, hi⟩ := List.mem_iff_getElem?.mp inLine
            refine List.mem_eraseIdx_iff_getElem?.mpr ⟨i, ?_, hi⟩
            rintro rfl
            simp_all

theorem found {line : List Waiter} (h : Awaits p line log) (nobody : line = []) :
    log.find? (·.finishes p.stream) = some (.ended p.stream (.failed .notConnected)) ∨
      log.find? (·.finishes p.stream) = some (.dropped p.stream) := by
  cases h with
  | waits inLine => simp [nobody] at inLine
  | refused found => exact .inl found
  | dropped found => exact .inr found

end Awaits

theorem nobody_of_quiet (closed : c.isClosed = true) (quiet : c.Quiet) : c.line = [] := by
  have hfirst := quiet 0
  cases first : c.line with
  | nil => rfl
  | cons w rest =>
      cases w with
      | operation p => simp [turn, first, operationTurn, closed] at hfirst
      | closing number =>
          cases taken : c.taken <;> simp [turn, first, closingTurn, taken] at hfirst

theorem shortens_of_closed (closed : c.isClosed = true) (place : Nat) :
    c.turn place = (c, []) ∨ (c.turn place).1.line.length < c.line.length := by
  unfold turn
  split
  next p h =>
    right
    have hplace := (List.getElem?_eq_some_iff.mp h).1
    have hlength : (c.line.eraseIdx place).length < c.line.length := by
      rw [List.length_eraseIdx_of_lt hplace]
      omega
    simpa [operationTurn, closed, leave] using hlength
  next number h =>
    cases place with
    | zero =>
        obtain ⟨rest, first⟩ := line_of_first h
        exact .inr (closingTurn_first first)
    | succ place => exact .inl rfl
  next => exact .inl rfl

/-- Where somebody is to close the connection, or has, or an operation was told so, it counts as
closed. -/
structure Honest (c : Connection) (log : List Notice) : Prop where
  inLine : ∀ number, .closing number ∈ c.line → c.isClosed = true
  taken : c.taken = true → c.isClosed = true
  told : ∀ s, .ended s (.failed .notConnected) ∈ log → c.isClosed = true

namespace Honest

theorem inLine_of_change (h : Honest c log) (change : Change c x d notices) (number : Nat)
    (hmem : .closing number ∈ d.line) : d.isClosed = true := by
  cases change with
  | started alive idle unsent => exact h.inLine number (by simpa using hmem)
  | dropped busy => exact h.inLine number (List.mem_filter.mp hmem).1
  | closing => exact isClosed_close c
  | cutOff at_place cut => exact h.inLine number (List.mem_of_mem_eraseIdx hmem)
  | finished first | expired first | shut first | passed first =>
      exact h.inLine number (first ▸ List.mem_cons_of_mem _ hmem)
  | waited first => exact h.inLine number (first ▸ by simpa using hmem)
  | _ => exact h.inLine number hmem

theorem taken_of_change (h : Honest c log) (change : Change c x d notices)
    (taken : d.taken = true) : d.isClosed = true := by
  cases change with
  | closing => exact isClosed_close c
  | shut first held => exact h.inLine _ (first ▸ List.mem_cons_self)
  | _ => exact h.taken taken

theorem told_of_change (h : Honest c log) (change : Change c x d notices) {s : Nat}
    (hmem : .ended s (.failed .notConnected) ∈ notices) : c.isClosed = true := by
  cases change with
  | refused closed idle => exact closed
  | cutOff at_place cut => exact cut.elim id h.taken
  | finished first alive held tried =>
      have := Operation.connected_of_ends tried
      simp_all
  | expired first alive held tried => simp [IoFailure.notConnected, IoFailure.deadline] at hmem
  | _ => simp at hmem

theorem of_change (h : Honest c log) (change : Change c x d notices) :
    Honest d (log ++ notices) := by
  refine ⟨h.inLine_of_change change, h.taken_of_change change, fun s hmem => ?_⟩
  apply isClosed_of_change ?_ change
  rcases List.mem_append.mp hmem with hmem | hmem
  · exact h.told s hmem
  · exact h.told_of_change change hmem

end Honest

theorem honest_after (capacity : Nat) (shutdown : Option IoFailure) (xs : List Happening) :
    Honest ((opened capacity shutdown).after xs).1 ((opened capacity shutdown).after xs).2 :=
  after_keeps Honest (fun h change => h.of_change change) (opened capacity shutdown)
    ⟨nofun, nofun, nofun⟩ xs

theorem closes_of_change (change : Change c x d notices) (h : x ≠ .step .close) :
    d.closes = c.closes := by
  cases change with
  | closing begun => exact absurd begun h
  | _ => rfl

theorem mem_of_isClosed {xs : List Happening} (alive : c.isClosed = false)
    (closed : (c.after xs).1.isClosed = true) : .step .close ∈ xs := by
  induction xs generalizing c with
  | nil => simp [after, alive] at closed
  | cons x xs ih =>
      by_cases hx : x = .step .close
      · exact hx ▸ List.mem_cons_self
      · have halive : (c.happen x).1.isClosed = false := by
          rwa [isClosed, closes_of_change (.happen x) hx]
        exact List.mem_cons_of_mem _ (ih halive closed)

/-- What has come of a closed connection, of which some operations were in line: they wait unchanged
or have ended, and nothing was sent. -/
structure Ending (waiting : List Pending) (c : Connection) (log : List Notice) : Prop where
  closed : c.isClosed = true
  refusing : Refusing log
  awaits : ∀ p ∈ waiting, Awaits p c.line log

theorem Ending.of_change {waiting : List Pending} (h : Ending waiting c log)
    (change : Change c x d notices) : Ending waiting d (log ++ notices) where
  closed := isClosed_of_change h.closed change
  refusing := h.refusing.append (refusing_of_change h.closed change)
  awaits p hp := (h.awaits p hp).of_change h.closed change

theorem ending_after_close (c : Connection) (xs : List Happening) :
    Ending c.queue (c.close.after xs).1 (c.close.after xs).2 := by
  refine after_keeps (Ending c.queue) (fun h change => h.of_change change) c.close ?_ xs
  refine ⟨isClosed_close c, ⟨nofun, nofun⟩, fun p hp => .waits ?_ rfl⟩
  exact List.mem_append_left _ (mem_queue.mp hp)

theorem act_of_closed {s : Nat} (closed : c.isClosed = true) (idle : c.isBusy s = false) :
    (∀ room, c.act (.read s room) =
        (.nothing, c, [.started s (.read room), .ended s (.failed .notConnected)])) ∧
      ∀ bytes, c.act (.write s bytes) =
        (.nothing, c, [.started s (.write [] bytes), .ended s (.failed .notConnected)]) := by
  constructor
  · intro room
    simp [act, unlessBusy, idle, start, closed]
  · intro bytes
    simp [act, unlessBusy, idle, start, closed]

/-- Once a closing has begun, turns of those in line come to an end, and when nobody can go on,
nobody is in line: each operation that was there has ended or was dropped. None of them sends
anything, and none ends but with the news that the connection is closed. So do all operations that
are started later, at once. That news comes only after a closing has begun. -/
theorem closing_ends_all {capacity : Nat} {shutdown : Option IoFailure}
    {before later : List Happening} {c e : Connection} {log notices : List Notice}
    (course : (opened capacity shutdown).after before = (c, log))
    (closing : (c.happen (.step .close)).1.after later = (e, notices)) :
    let refused : Outcome := .failed ⟨.notConnected, "connection already closed"⟩
    (e.Quiet → e.line = [] ∧
      ∀ p ∈ c.queue,
        notices.find? (·.finishes p.stream) = some (.ended p.stream refused) ∨
          notices.find? (·.finishes p.stream) = some (.dropped p.stream)) ∧
      ((∀ place, e.turn place = (e, []) ∨ (e.turn place).1.line.length < e.line.length) ∧
        ∃ n, (e.after (List.replicate n (.turn 0))).1.Quiet) ∧
      (∀ s o, .ended s o ∈ notices → o = refused) ∧
      ((∀ s bytes, .pushed s bytes ∉ notices) ∧
        notices.flatMap Notice.collectedBytes ++ e.link.outgoing.content = c.link.outgoing.content) ∧
      (∀ s, e.isBusy s = false →
        (∀ room, e.act (.read s room) =
          (.nothing, e, [.started s (.read room), .ended s refused])) ∧
        ∀ bytes, e.act (.write s bytes) =
          (.nothing, e, [.started s (.write [] bytes), .ended s refused])) ∧
      ∀ s, .ended s refused ∈ log → .step .close ∈ before := by
  intro refused
  have ending := ending_after_close c later
  have balance := balanced_after outgoing_of_change c.close later
  have honest := honest_after capacity shutdown before
  rw [show (c.happen (.step .close)).1 = c.close from rfl] at closing
  rw [closing] at ending balance
  rw [course] at honest
  refine ⟨fun quiet => ?_, ⟨shortens_of_closed ending.closed, ?_⟩, ending.refusing.ends,
    ⟨ending.refusing.sends, ?_⟩, fun s idle => act_of_closed ending.closed idle, fun s hmem => ?_⟩
  · have nobody := nobody_of_quiet ending.closed quiet
    exact ⟨nobody, fun p hp => (ending.awaits p hp).found nobody⟩
  · obtain ⟨n, hn⟩ := settle_eq_after e
    exact ⟨n, hn ▸ quiet_settle e⟩
  · simpa [pushed_of_refusing ending.refusing] using balance
  · have closed := honest.told s hmem
    exact mem_of_isClosed (c := opened capacity shutdown) rfl (course ▸ closed)

theorem closing_ends_all_of_two :
    let reached := (opened 2 none).after [.step .openStream, .step .openStream,
      .step (.write 0 [1, 2, 3]), .turn 0, .step (.read 1 4)]
    let closed := (reached.1.happen (.step .close)).1.after [.turn 1, .turn 0, .turn 0]
    let refused : Outcome := .failed ⟨.notConnected, "connection already closed"⟩
    reached.1.queue.map (·.stream) = [0, 1] ∧ closed.1.line = [] ∧
      ∀ p ∈ reached.1.queue,
        closed.2.find? (·.finishes p.stream) = some (.ended p.stream refused) ∨
          closed.2.find? (·.finishes p.stream) = some (.dropped p.stream) := by
  intro reached closed refused
  have course : (opened 2 none).after _ = (reached.1, reached.2) := rfl
  have closing : (reached.1.happen (.step .close)).1.after _ = (closed.1, closed.2) := rfl
  exact ⟨rfl, (closing_ends_all course closing).1 (quiet_of_nobody rfl)⟩

end Connection

end DnsOverStreams
