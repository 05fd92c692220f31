import DnsOverStreams.Connection.Session
import DnsOverStreams.Proofs.Connection.Attempt
/-!
All that can come of one thing that happens to a shared connection, a step from outside or a turn of
somebody in line, said once. What is kept by every such change is kept by a whole course of them.
-/

namespace DnsOverStreams

namespace Connection

/-- What can come of one thing that happens to a connection, with what is noticed of it. -/
inductive Change (c : Connection) (x : Happening) : Connection → List Notice → Prop where
  | aside (now : Time) (deadlines : List (Option Time)) :
      Change c x { c with now := now, deadlines := deadlines } []
  | streamClosed (stream : Nat) : Change c x c [.streamClosed stream]
  | refused {stream op} (closed : c.isClosed = true) (idle : c.isBusy stream = false) :
      Change c x c [.started stream op, .ended stream (.failed .notConnected)]
  | started {stream op} (alive : c.isClosed = false) (idle : c.isBusy stream = false)
      (unsent : op.sent = []) :
      Change c x { c with line := c.line ++ [.operation ⟨stream, op, c.deadline stream, false⟩] }
        [.started stream op]
  | dropped {stream} (busy : c.isBusy stream = true) :
      Change c x (c.abort stream).1 [.dropped stream]
  | closing (begun : x = .step .close) : Change c x c.close []
  | arrived (bytes : Bytes) (here : c.peerGone = false) :
      Change c x { c with link := { c.link with incoming := c.link.incoming.push bytes } }
        [.arrived bytes]
  | collected (room : Nat) (here : c.peerGone = false) :
      Change c x { c with link := { c.link with outgoing := c.link.outgoing.drop room } }
        [.collected (c.link.outgoing.content.take room)]
  | peerLeft (here : c.peerGone = false) : Change c x c.peerClose []
  | cutOff {place p} (at_place : c.line[place]? = some (.operation p))
      (cut : c.isClosed = true ∨ c.taken = true) :
      Change c x (c.leave place) [.ended p.stream (.failed .notConnected)]
  | finished {p rest o l bytes} (first : c.line = .operation p :: rest)
      (alive : c.isClosed = false) (held : c.taken = false)
      (tried : p.operation.attempt c.link = ⟨.inl o, l, bytes⟩) :
      Change c x { c with link := l, line := rest } (p.marks bytes ++ [.ended p.stream o])
  | expired {p rest op l bytes} (first : c.line = .operation p :: rest)
      (alive : c.isClosed = false) (held : c.taken = false)
      (tried : p.operation.attempt c.link = ⟨.inr op, l, bytes⟩) :
      Change c x { c with link := l, line := rest }
        (p.marks bytes ++ [.ended p.stream (.failed .deadline)])
  | waited {p rest op l bytes} (first : c.line = .operation p :: rest)
      (alive : c.isClosed = false) (held : c.taken = false)
      (tried : p.operation.attempt c.link = ⟨.inr op, l, bytes⟩) :
      Change c x
        { c with link := l, line := .operation { p with operation := op, holds := true } :: rest }
        (p.marks bytes)
  | shut {number rest} (first : c.line = .closing number :: rest) (held : c.taken = false) :
      Change c x { c with line := rest, link := c.link.close, taken := true }
        [.closed number c.shutdownResult]
  | passed {number rest} (first : c.line = .closing number :: rest) (taken : c.taken = true) :
      Change c x { c with line := rest } [.closed number (.ok ())]

variable {c : Connection} {x : Happening}

theorem line_of_first {w : Waiter} (h : c.line[0]? = some w) : ∃ rest, c.line = w :: rest := by
  rw [← List.head?_eq_getElem?] at h
  exact List.head?_eq_some_iff.mp h

namespace Change

theorem unchanged : Change c x c [] :=
  .aside c.now c.deadlines

theorem unlessBusy {stream : Nat} {next : Shown × Connection × List Notice}
    (h : c.isBusy stream = false → Change c x next.2.1 next.2.2) :
    Change c x (c.unlessBusy stream next).2.1 (c.unlessBusy stream next).2.2 := by
  unfold Connection.unlessBusy
  split
  next => exact .unchanged
  next idle => exact h (by simpa using idle)

theorem unlessGone {next : Shown × Connection × List Notice}
    (h : c.peerGone = false → Change c x next.2.1 next.2.2) :
    Change c x (c.unlessGone next).2.1 (c.unlessGone next).2.2 := by
  unfold Connection.unlessGone
  split
  next => exact .unchanged
  next here => exact h (by simpa using here)

theorem start {stream : Nat} {op : Operation} (idle : c.isBusy stream = false)
    (unsent : op.sent = []) : Change c x (c.start stream op).1 (c.start stream op).2 := by
  unfold Connection.start
  split
  next closed => exact .refused closed idle
  next alive => exact .started (by simpa using alive) idle unsent

theorem peerWrite (bytes : Bytes) (here : c.peerGone = false) :
    Change c x (c.peerWrite bytes).2.1 (c.peerWrite bytes).2.2 := by
  rcases h : (Operation.write [] bytes).attempt c.link.flip with ⟨r, l, pushed⟩
  have hlink := Operation.link_of_write h
  have hafter : (c.peerWrite bytes).2 =
      ({ c with link := l.flip }, [.arrived pushed]) := by
    simp only [Connection.peerWrite, h]
    split <;> rfl
  rw [hafter, hlink]
  exact .arrived pushed here

theorem peerRead (room : Nat) (here : c.peerGone = false) :
    Change c x (c.peerRead room).2.1 (c.peerRead room).2.2 := by
  rcases h : (Operation.read room).attempt c.link.flip with ⟨o | op, l, pushed⟩
  · obtain ⟨rfl, hl⟩ := Operation.read_of_ends h
    simp only [Connection.peerRead, h, hl]
    exact .collected room here
  · obtain rfl := Operation.read_of_waits h
    simp only [Connection.peerRead, h, Link.flip_flip]
    exact .unchanged

theorem act (s : ConnectionStep) : Change c (.step s) (c.act s).2.1 (c.act s).2.2 := by
  cases s with
  | openStream => exact .aside _ _
  | setDeadline stream deadline => exact unlessBusy fun _ => .aside _ _
  | read stream room => exact unlessBusy fun idle => .start idle rfl
  | write stream bytes => exact unlessBusy fun idle => .start idle rfl
  | closeStream stream => exact unlessBusy fun _ => .streamClosed stream
  | close => exact .closing rfl
  | abort stream =>
      simp only [Connection.act]
      split
      next busy => exact .dropped busy
      next => exact .unchanged
  | peerWrite bytes =>
      refine unlessGone fun here => ?_
      have h := peerWrite (x := .step (.peerWrite bytes)) bytes here
      split <;> simp_all
  | peerRead room =>
      refine unlessGone fun here => ?_
      have h := peerRead (x := .step (.peerRead room)) room here
      split <;> simp_all
  | peerClose =>
      simp only [Connection.act]
      split
      next => exact .unchanged
      next here => exact .peerLeft (by simpa using here)
  | advance ms => exact .aside _ _

theorem operationTurn {place : Nat} {p : Pending} (h : c.line[place]? = some (.operation p)) :
    Change c x (c.operationTurn place p).1 (c.operationTurn place p).2 := by
  unfold Connection.operationTurn
  split
  next closed => exact .cutOff h (.inl closed)
  next alive =>
    split
    next => exact .unchanged
    next front =>
      split
      next taken => exact .cutOff h (.inr taken)
      next held =>
        obtain rfl : place = 0 := by simpa using front
        obtain ⟨rest, first⟩ := line_of_first h
        have alive : c.isClosed = false := by simpa using alive
        have held : c.taken = false := by simpa using held
        -- it ends, or has to wait; its deadline counts only then
        rcases tried : p.operation.attempt c.link with ⟨o | op, l, pushed⟩
        · simpa [Pending.proceed, tried, first] using Change.finished first alive held tried
        · by_cases late : p.deadline.any (· ≤ c.now)
          · simpa [Pending.proceed, tried, first, late] using
              Change.expired first alive held tried
          · simpa [Pending.proceed, tried, first, late] using
              Change.waited first alive held tried

theorem closingTurn {place number : Nat} (h : c.line[place]? = some (.closing number)) :
    Change c x (c.closingTurn place number).1 (c.closingTurn place number).2 := by
  unfold Connection.closingTurn
  split
  next => exact .unchanged
  next front =>
    obtain rfl : place = 0 := by simpa using front
    obtain ⟨rest, first⟩ := line_of_first h
    split
    next taken => simpa [Connection.leave, first] using Change.passed first taken
    next held =>
      have held : c.taken = false := by simpa using held
      simpa [Connection.leave, first] using Change.shut first held

theorem turn (place : Nat) : Change c x (c.turn place).1 (c.turn place).2 := by
  unfold Connection.turn
  split
  next p h => exact operationTurn h
  next number h => exact closingTurn h
  next => exact .unchanged

theorem happen (x : Happening) : Change c x (c.happen x).1 (c.happen x).2 := by
  cases x with
  | step s => exact act s
  | turn place => exact turn place

end Change

theorem after_append (c : Connection) (xs ys : List Happening) :
    c.after (xs ++ ys) =
      (((c.after xs).1.after ys).1, (c.after xs).2 ++ ((c.after xs).1.after ys).2) := by
  induction xs generalizing c with
  | nil => rfl
  | cons x xs ih => simp only [List.cons_append, after, ih, List.append_assoc]

/-- What every change keeps, with all that was noticed so far, is kept by a whole course. -/
theorem after_keeps (Kept : Connection → List Notice → Prop)
    (keeps : ∀ {c x d log notices}, Kept c log → Change c x d notices → Kept d (log ++ notices))
    (c : Connection) (h : Kept c []) (xs : List Happening) :
    Kept (c.after xs).1 (c.after xs).2 := by
  suffices ∀ (c : Connection) (log : List Notice), Kept c log →
      Kept (c.after xs).1 (log ++ (c.after xs).2) by simpa using this c [] h
  clear h
  induction xs with
  | nil => intro c log h; simpa only [after, List.append_nil] using h
  | cons x xs ih =>
      intro c log h
      simpa only [after, List.append_assoc] using ih _ _ (keeps h (.happen x))

end Connection

end DnsOverStreams
