import DnsOverStreams.Connection.Contact
import DnsOverStreams.Proofs.Connection.Line
import DnsOverStreams.Proofs.Connection.Noticed
/-!
An operation that is alone on a shared connection. While the other end does what it likes and time passes,
the operation gets turns until it ends; it then has sent all of its buffer if it is a write that succeeded,
and has taken what it delivers, and nobody is in line any more.
-/

namespace DnsOverStreams

def Happening.Beside : Happening → Prop
  | turn _ => True
  | step (.peerWrite _) => True
  | step (.peerRead _) => True
  | step .peerClose => True
  | step (.advance _) => True
  | _ => False

namespace Notice

theorem outcome?_append (xs ys : List Notice) :
    Contact.outcome? (xs ++ ys) = (Contact.outcome? xs).or (Contact.outcome? ys) :=
  List.findSome?_append

theorem outcome?_marks (p : Pending) (bytes : Bytes) : Contact.outcome? (p.marks bytes) = none := by
  refine List.findSome?_eq_none_iff.mpr fun notice h => ?_
  rcases p.mem_marks bytes h with rfl | rfl <;> rfl

end Notice

namespace Operation

theorem delivered_le {room : Nat} {l l' : Link} {o : Outcome} {bytes : Bytes}
    (h : (read room).attempt l = ⟨.inl o, l', bytes⟩) : o.delivered.length ≤ room := by
  cases tries_of_eq h with
  | nothing => exact Nat.zero_le _
  | ends asked empty closed => exact Nat.zero_le _
  | takes asked filled => exact List.length_take_le room l.incoming.content

theorem read_waits {room : Nat} {l l' : Link} {op : Operation} {bytes : Bytes}
    (h : (read room).attempt l = ⟨.inr op, l', bytes⟩) : op = .read room := by
  cases tries_of_eq h
  rfl

end Operation

namespace Connection

variable {c d e : Connection} {log notices later : List Notice} {x : Happening} {s : Nat}
variable {op : Operation} {p : Pending}

/-- Our end still has the connection to itself. -/
structure Ours (c : Connection) : Prop where
  alive : c.isClosed = false
  held : c.taken = false

/-- Nothing has changed at our end, and nothing has passed through it. -/
structure Aside (c d : Connection) (notices : List Notice) : Prop where
  line : d.line = c.line
  closes : d.closes = c.closes
  taken : d.taken = c.taken
  pushed : notices.flatMap Notice.pushedBytes = []
  delivered : notices.flatMap Notice.deliveredBytes = []
  outcome : Contact.outcome? notices = none

namespace Aside

theorem refl (c : Connection) : Aside c c [] :=
  ⟨rfl, rfl, rfl, rfl, rfl, rfl⟩

theorem trans (h : Aside c d notices) (h' : Aside d e later) : Aside c e (notices ++ later) where
  line := h'.line.trans h.line
  closes := h'.closes.trans h.closes
  taken := h'.taken.trans h.taken
  pushed := by rw [List.flatMap_append, h.pushed, h'.pushed, List.append_nil]
  delivered := by rw [List.flatMap_append, h.delivered, h'.delivered, List.append_nil]
  outcome := by rw [Notice.outcome?_append, h.outcome, h'.outcome]; rfl

theorem ours (h : Aside c d notices) (hc : c.Ours) : d.Ours where
  alive := by rw [← hc.alive, isClosed, isClosed, h.closes]
  held := h.taken.trans hc.held

end Aside

theorem act_peerWrite (c : Connection) (bytes : Bytes) :
    let a := (Operation.write [] bytes).attempt c.link.flip
    (c.act (.peerWrite bytes)).2 =
      if c.peerGone then (c, []) else ({ c with link := a.link.flip }, [.arrived a.pushed]) := by
  intro a
  simp only [act, unlessGone, peerWrite, a]
  split
  · rfl
  · rcases (Operation.write [] bytes).attempt c.link.flip with ⟨o | op, l, pushed⟩
    · cases o <;> rfl
    · rfl

theorem act_peerRead (c : Connection) (room : Nat) :
    (c.act (.peerRead room)).2 = (c, []) ∧ (c.peerGone = true ∨ c.link.outgoing.content = []) ∨
      (c.act (.peerRead room)).2 =
        ({ c with link := { c.link with outgoing := c.link.outgoing.drop room } },
          [.collected (c.link.outgoing.content.take room)]) := by
  simp only [act, unlessGone]
  split
  next gone => exact .inl ⟨rfl, .inl gone⟩
  next here =>
    rcases tried : (Operation.read room).attempt c.link.flip with ⟨o | op, l, pushed⟩
    · obtain ⟨rfl, hlink⟩ := Operation.read_of_ends tried
      right
      simp only [peerRead, tried, hlink]
    · obtain rfl := Operation.read_of_waits tried
      cases Operation.tries_of_eq tried with
      | waits asked empty alive =>
          refine .inl ⟨?_, .inr empty⟩
          simp only [peerRead, tried, Link.flip_flip]

theorem aside_peerWrite (bytes : Bytes) :
    Aside c (c.act (.peerWrite bytes)).2.1 (c.act (.peerWrite bytes)).2.2 := by
  rw [act_peerWrite]
  split
  · exact .refl c
  · exact ⟨rfl, rfl, rfl, rfl, rfl, rfl⟩

theorem aside_peerRead (room : Nat) :
    Aside c (c.act (.peerRead room)).2.1 (c.act (.peerRead room)).2.2 := by
  rcases c.act_peerRead room with ⟨h, -⟩ | h
  · rw [h]
    exact .refl c
  · rw [h]
    exact ⟨rfl, rfl, rfl, rfl, rfl, rfl⟩

theorem aside_peerClose : Aside c (c.act .peerClose).2.1 (c.act .peerClose).2.2 := by
  change Aside c (if c.peerGone then _ else _ : Shown × Connection × List Notice).2.1
    (if c.peerGone then _ else _ : Shown × Connection × List Notice).2.2
  split
  · exact .refl c
  · exact ⟨rfl, rfl, rfl, rfl, rfl, rfl⟩

theorem aside_openStream : Aside c (c.act .openStream).2.1 (c.act .openStream).2.2 :=
  ⟨rfl, rfl, rfl, rfl, rfl, rfl⟩

theorem aside_setDeadline (deadline : Option Time) :
    Aside c (c.act (.setDeadline s deadline)).2.1 (c.act (.setDeadline s deadline)).2.2 := by
  unfold act unlessBusy
  dsimp only
  split
  · exact .refl c
  · exact ⟨rfl, rfl, rfl, rfl, rfl, rfl⟩

theorem aside_closeStream : Aside c (c.act (.closeStream s)).2.1 (c.act (.closeStream s)).2.2 := by
  unfold act unlessBusy
  dsimp only
  split
  · exact .refl c
  · exact ⟨rfl, rfl, rfl, rfl, rfl, rfl⟩

theorem aside_step {step : ConnectionStep} (h : (Happening.step step).Beside) :
    Aside c (c.happen (.step step)).1 (c.happen (.step step)).2 := by
  cases step with
  | peerWrite bytes => exact aside_peerWrite bytes
  | peerRead room => exact aside_peerRead room
  | peerClose => exact aside_peerClose
  | advance ms => exact ⟨rfl, rfl, rfl, rfl, rfl, rfl⟩
  | _ => exact h.elim

theorem turn_of_nobody (h : c.line = []) (place : Nat) : c.turn place = (c, []) := by
  simp only [turn, h, List.getElem?_nil]

theorem aside_of_nobody (h : c.line = []) (hx : x.Beside) : Aside c (c.happen x).1 (c.happen x).2 := by
  cases x with
  | step step => exact aside_step hx
  | turn place =>
      rw [happen, turn_of_nobody h]
      exact .refl c

theorem aside_after (h : c.line = []) {xs : List Happening} (hxs : ∀ x ∈ xs, x.Beside) :
    Aside c (c.after xs).1 (c.after xs).2 := by
  induction xs generalizing c with
  | nil => exact .refl c
  | cons x xs ih =>
      obtain ⟨hx, hxs⟩ := List.forall_mem_cons.mp hxs
      have hfirst := aside_of_nobody h hx
      exact hfirst.trans (ih (hfirst.line.trans h) hxs)

theorem turn_of_alone (hc : c.Ours) (h : c.line = [.operation p]) :
    (∃ o l bytes, p.operation.attempt c.link = ⟨.inl o, l, bytes⟩ ∧
      c.turn 0 = ({ c with link := l, line := [] }, p.marks bytes ++ [.ended p.stream o])) ∨
    ∃ op l bytes, p.operation.attempt c.link = ⟨.inr op, l, bytes⟩ ∧
      (c.turn 0 = ({ c with link := l, line := [] },
          p.marks bytes ++ [.ended p.stream (.failed .deadline)]) ∨
        c.turn 0 = ({ c with
            link := l, line := [.operation { p with operation := op, holds := true }] },
          p.marks bytes)) := by
  have hturn : c.turn 0 = c.operationTurn 0 p := by simp [turn, h]
  rcases tried : p.operation.attempt c.link with ⟨o | op, l, bytes⟩
  · refine .inl ⟨o, l, bytes, rfl, ?_⟩
    simp [hturn, operationTurn, hc.alive, hc.held, Pending.proceed, tried, h]
  · refine .inr ⟨op, l, bytes, rfl, ?_⟩
    cases late : p.deadline.any (· ≤ c.now) with
    | true =>
        left
        simp [hturn, operationTurn, hc.alive, hc.held, Pending.proceed, tried, late, h]
    | false =>
        right
        simp [hturn, operationTurn, hc.alive, hc.held, Pending.proceed, tried, late, h]

/-- An operation that was started when nobody was in line: it is the only one in line, or it has ended. -/
inductive Operating (op : Operation) (c : Connection) (log : List Notice) : Prop where
  | waits (p : Pending) (line : c.line = [.operation p]) (buffer : p.operation.buffer = op.buffer)
      (read : ∀ room, op = .read room → p.operation = .read room)
      (pushed : log.flatMap Notice.pushedBytes = p.operation.sent)
      (delivered : log.flatMap Notice.deliveredBytes = []) (outcome : Contact.outcome? log = none)
  | ended (o : Outcome) (line : c.line = []) (outcome : Contact.outcome? log = some o)
      (delivered : log.flatMap Notice.deliveredBytes = o.delivered)
      (read : ∀ room, op = .read room → o.delivered.length ≤ room)
      (front : log.flatMap Notice.pushedBytes <+: op.buffer)
      (wrote : ∀ n, o = .wrote n → log.flatMap Notice.pushedBytes = op.buffer)

namespace Operating

theorem aside (h : Operating op c log) (hd : Aside c d notices) : Operating op d (log ++ notices) := by
  cases h with
  | waits p line buffer read pushed delivered outcome =>
      refine .waits p (hd.line.trans line) buffer read ?_ ?_ ?_
      · rw [List.flatMap_append, hd.pushed, List.append_nil, pushed]
      · rw [List.flatMap_append, hd.delivered, delivered, List.append_nil]
      · rw [Notice.outcome?_append, outcome, hd.outcome]; rfl
  | ended o line outcome delivered read front wrote =>
      refine .ended o (hd.line.trans line) ?_ ?_ read ?_ ?_
      · rw [Notice.outcome?_append, outcome]; rfl
      · rw [List.flatMap_append, hd.delivered, delivered, List.append_nil]
      · rwa [List.flatMap_append, hd.pushed, List.append_nil]
      · rwa [List.flatMap_append, hd.pushed, List.append_nil]

theorem turn (h : Operating op c log) (hc : c.Ours) (place : Nat) :
    (c.turn place).1.Ours ∧ Operating op (c.turn place).1 (log ++ (c.turn place).2) := by
  cases h with
  | ended o line outcome delivered read front wrote =>
      rw [turn_of_nobody line, List.append_nil]
      exact ⟨hc, .ended o line outcome delivered read front wrote⟩
  | waits p line buffer read pushed delivered outcome =>
      cases place with
      | succ place =>
          have hturn : c.turn (place + 1) = (c, []) := by simp [Connection.turn, line]
          rw [hturn, List.append_nil]
          exact ⟨hc, .waits p line buffer read pushed delivered outcome⟩
      | zero =>
          rcases turn_of_alone hc line with ⟨o, l, bytes, tried, hturn⟩ |
            ⟨op', l, bytes, tried, hturn | hturn⟩
          all_goals rw [hturn]
          · -- it ends by itself
            obtain ⟨hfront, hwhole⟩ := Operation.sent_of_ends tried
            refine ⟨⟨hc.alive, hc.held⟩,
              .ended o rfl ?_ ?_ (fun room hroom => ?_) ?_ (fun n hn => ?_)⟩
            · rw [Notice.outcome?_append, Notice.outcome?_append, outcome, Notice.outcome?_marks]
              rfl
            · simp [delivered, Notice.deliveredBytes]
            · rw [read room hroom] at tried
              exact Operation.delivered_le tried
            · simpa [pushed, Notice.pushedBytes, ← buffer] using hfront
            · simp [pushed, Notice.pushedBytes, (hwhole n hn).1, buffer]
          · -- its deadline has come
            obtain ⟨hsent, hbuffer⟩ := Operation.sent_of_waits tried
            have hfront := op'.sent_prefix_buffer
            rw [hsent, hbuffer, buffer] at hfront
            refine ⟨⟨hc.alive, hc.held⟩,
              .ended (.failed .deadline) rfl ?_ ?_ (fun room _ => ?_) ?_ (fun n hn => by cases hn)⟩
            · rw [Notice.outcome?_append, Notice.outcome?_append, outcome, Notice.outcome?_marks]
              rfl
            · simp [delivered, Notice.deliveredBytes]
            · exact Nat.zero_le room
            · simpa [pushed, Notice.pushedBytes] using hfront
          · -- it goes on waiting with what is left of it
            obtain ⟨hsent, hbuffer⟩ := Operation.sent_of_waits tried
            refine ⟨⟨hc.alive, hc.held⟩,
              .waits { p with operation := op', holds := true } rfl (hbuffer.trans buffer)
                (fun room hroom => ?_) ?_ ?_ ?_⟩
            · rw [read room hroom] at tried
              exact Operation.read_waits tried
            · simp [pushed, hsent]
            · simp [delivered]
            · simp [Notice.outcome?_append, outcome, Notice.outcome?_marks]

theorem after (h : Operating op c log) (hc : c.Ours) {xs : List Happening}
    (hxs : ∀ x ∈ xs, x.Beside) :
    (c.after xs).1.Ours ∧ Operating op (c.after xs).1 (log ++ (c.after xs).2) := by
  induction xs generalizing c log with
  | nil => exact ⟨hc, by simpa [Connection.after] using h⟩
  | cons x xs ih =>
      obtain ⟨hx, hxs⟩ := List.forall_mem_cons.mp hxs
      have hnext : (c.happen x).1.Ours ∧ Operating op (c.happen x).1 (log ++ (c.happen x).2) := by
        cases x with
        | step step => exact ⟨(aside_step hx).ours hc, h.aside (aside_step hx)⟩
        | turn place => exact h.turn hc place
      have hlater := ih hnext.2 hnext.1 hxs
      rw [List.append_assoc] at hlater
      exact hlater

end Operating

theorem operating_start (hc : c.Ours) (h : c.line = []) (s : Nat) (hop : op.sent = []) :
    (c.start s op).1.Ours ∧ Operating op (c.start s op).1 (c.start s op).2 := by
  have hstart : c.start s op =
      ({ c with line := [.operation ⟨s, op, c.deadline s, false⟩] }, [.started s op]) := by
    simp [start, hc.alive, h]
  rw [hstart]
  exact ⟨⟨hc.alive, hc.held⟩, .waits ⟨s, op, c.deadline s, false⟩ rfl rfl (fun _ h => h)
    hop.symm rfl rfl⟩

end Connection

end DnsOverStreams
