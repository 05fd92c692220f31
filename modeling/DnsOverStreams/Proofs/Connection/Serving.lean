import DnsOverStreams.Proofs.Connection.Engaged
/-!
A connection to a scripted peer that takes one query and answers it. Our end uses it alone and sets no
deadlines. Then whatever the capacities of the pipes, and however the answer is cut and delayed, the query
is written to its end, and each read gives a piece of what is owed, as long as anything is.
-/

namespace DnsOverStreams

namespace Connection

variable {c : Connection} {op op' : Operation} {l : Link} {o : Outcome} {bytes : Bytes}

/-- Nobody stands in line but one operation, which may take as long as it likes. -/
def Runs (op : Operation) (c : Connection) : Prop :=
  ∃ s holds, c.line = [.operation ⟨s, op, none, holds⟩]

theorem settle_of_nobody (h : c.line = []) : c.settle = (c, []) := by
  rw [settle]
  simp only [turn_of_nobody h, Nat.lt_irrefl, dif_neg, not_false_eq_true]

theorem settle_of_ends (hc : c.Ours) (h : c.Runs op)
    (tried : op.attempt c.link = ⟨.inl o, l, bytes⟩) :
    c.settle.1 = { c with link := l, line := [] } ∧ Contact.outcome? c.settle.2 = some o := by
  obtain ⟨s, holds, hline⟩ := h
  rcases turn_of_alone hc hline with ⟨o', l', bytes', tried', hturn⟩ | ⟨op', l', bytes', tried', -⟩
  · cases tried.symm.trans tried'
    rw [settle]
    simp only [hturn, hline, List.length_nil, List.length_singleton, Nat.zero_lt_one, dif_pos,
      settle_of_nobody, List.append_nil, Notice.outcome?_append, Notice.outcome?_marks]
    exact ⟨trivial, rfl⟩
  · cases tried.symm.trans tried'

theorem settle_of_waits (hc : c.Ours) (h : c.Runs op)
    (tried : op.attempt c.link = ⟨.inr op', l, bytes⟩) :
    ∃ s, c.settle.1 = { c with link := l, line := [.operation ⟨s, op', none, true⟩] } ∧
      Contact.outcome? c.settle.2 = none := by
  obtain ⟨s, holds, hline⟩ := h
  have hturn : c.turn 0 = ({ c with link := l, line := [.operation ⟨s, op', none, true⟩] },
      Pending.marks ⟨s, op, none, holds⟩ bytes) := by
    simp [turn, operationTurn, hline, hc.alive, hc.held, Pending.proceed, tried]
  refine ⟨s, ?_⟩
  rw [settle]
  simp only [hturn, hline, List.length_singleton, Nat.lt_irrefl, dif_neg, not_false_eq_true,
    Notice.outcome?_marks, and_self]

theorem Runs.unwritten (h : c.Runs op) : c.unwritten = op.unwritten := by
  obtain ⟨s, holds, hline⟩ := h
  simp [Connection.unwritten, queue, hline, Waiter.operation?]

theorem Runs.due (h : c.Runs op) : c.due = none := by
  obtain ⟨s, holds, hline⟩ := h
  simp [Connection.due, queue, hline, Waiter.operation?]

end Connection

namespace Contact

variable {query unsent owed : Bytes} {steps : List PeerStep} {x y : Contact}

/-- A peer that takes the query and goes through these steps is at the other end of a connection that is
ours alone, with so much of the query's frame not written and so much owed to us. -/
structure Serving (query : Bytes) (steps : List PeerStep) (unsent owed : Bytes) (x : Contact) : Prop where
  present : x.peer.gone = false
  engaged : Peer.Engaged query steps unsent owed x.peer.script x.peer.moves x.connection.link.flip
    x.peer.intake
  ours : x.connection.Ours
  unbounded : ∀ d ∈ x.connection.deadlines, d = none

/-- What an operation is for: to send so many bytes in all, or to fetch some, for which there is so much
room. -/
inductive Aim where
  | send (count : Nat)
  | fetch (room : Nat)

inductive Underway (query : Bytes) (steps : List PeerStep) : Aim → Bytes → Contact → Prop where
  | send {done rest owed : Bytes} {n : Nat} {x : Contact} (count : done.length + rest.length = n)
      (serving : Serving query steps rest owed x) (runs : x.connection.Runs (.write done rest)) :
      Underway query steps (.send n) owed x
  | fetch {owed : Bytes} {room : Nat} {x : Contact} (some : owed ≠ []) (asked : 0 < room)
      (serving : Serving query steps [] owed x) (runs : x.connection.Runs (.read room)) :
      Underway query steps (.fetch room) owed x

inductive Succeeds (query : Bytes) (steps : List PeerStep) : Aim → Bytes → Outcome → Contact → Prop where
  | sent {owed : Bytes} {n : Nat} {y : Contact} (serving : Serving query steps [] owed y)
      (idle : y.connection.line = []) : Succeeds query steps (.send n) owed (.wrote n) y
  | fetched {piece rest : Bytes} {room : Nat} {y : Contact} (some : piece ≠ [])
      (fits : piece.length ≤ room) (serving : Serving query steps [] rest y)
      (idle : y.connection.line = []) :
      Succeeds query steps (.fetch room) (piece ++ rest) (.got piece) y

def Sleeping (x : Contact) : Prop :=
  ∃ time later, x.peer.moves = .sleepUntil time :: later

/-- What a peer that cannot go on leaves to our end: room to write in, or something to read unless it waits
for its clock. -/
def LeavesTo : Aim → Contact → Prop
  | .send _, x => x.connection.link.outgoing.content = []
  | .fetch _, x => x.connection.link.incoming.content ≠ [] ∨ x.Sleeping

/-- What has come of an operation when our end has done what it can: it has ended, or it waits. When the peer
could not go on, it waits with less to write or for the clock of the peer. -/
inductive Settled (query : Bytes) (steps : List PeerStep) (aim : Aim) (owed : Bytes) (x : Contact) :
    Prop where
  | ends (o : Outcome) (outcome : outcome? x.connection.settle.2 = some o)
      (succeeds : Succeeds query steps aim owed o ⟨x.connection.settle.1, x.peer⟩)
  | waits (outcome : outcome? x.connection.settle.2 = none)
      (underway : Underway query steps aim owed ⟨x.connection.settle.1, x.peer⟩)
      (less : x.LeavesTo aim →
        x.connection.settle.1.unwritten < x.connection.unwritten ∨ x.Sleeping)

namespace Serving

theorem peerTurn (hsteps : ∀ s ∈ steps, s.answers = true) (hquery : query.length ≤ Frame.maxBody)
    (h : Serving query steps unsent owed x) :
    Serving query steps unsent owed x.peerTurn ∧ x.peerTurn.connection.line = x.connection.line ∧
      (¬ x.peerTurn.peerBusy → Peer.Stays unsent owed x.peerTurn.connection.link.flip
        x.peerTurn.peer.moves) := by
  obtain ⟨hengaged, hpresent, hstays⟩ :=
    h.engaged.proceeds hsteps hquery x.connection.now x.peer.allowance
  obtain ⟨alarm, hact⟩ := Peer.act_of_here h.present x.connection.now x.connection.link.flip
  unfold Contact.peerBusy Contact.peerTurn
  rw [hact]
  refine ⟨⟨hpresent, hengaged, ⟨h.ours.alive, h.ours.held⟩, h.unbounded⟩, rfl, fun hbusy => hstays ?_⟩
  exact fun h => hbusy (beq_iff_eq.mpr h)

theorem wake {time : Time} {later : List Move} (h : Serving query steps unsent owed x)
    (hmoves : x.peer.moves = .sleepUntil time :: later) :
    Serving query steps unsent owed (x.wake time) := by
  refine ⟨rfl, ?_, ⟨h.ours.alive, h.ours.held⟩, h.unbounded⟩
  have hengaged := h.engaged
  rw [hmoves] at hengaged
  have htail : (x.wake time).peer.moves = later := by
    rw [Contact.wake, Peer.roused, hmoves, List.tail_cons]
  rw [htail]
  exact hengaged.wakes

theorem settle_write {done rest : Bytes} (h : Serving query steps rest owed x)
    (runs : x.connection.Runs (.write done rest)) :
    Settled query steps (.send (done.length + rest.length)) owed x := by
  obtain ⟨present, ⟨incoming, outgoing, asked, owes⟩, ours, unbounded⟩ := h
  rcases tried : (Operation.write done rest).attempt x.connection.link with ⟨o | op, l, bytes⟩
  · obtain ⟨hsettle, houtcome⟩ := Connection.settle_of_ends ours runs tried
    refine .ends o houtcome ?_
    rw [hsettle]
    cases Operation.tries_of_eq tried with
    | wrote => exact .sent ⟨present, ⟨incoming, outgoing, asked, owes⟩, ⟨ours.alive, ours.held⟩, unbounded⟩ rfl
    | breaks unsent closed => exact absurd (incoming.alive.symm.trans closed) Bool.false_ne_true
    | sends unsent alive fits =>
        rw [List.length_append]
        refine .sent ⟨present, ⟨⟨incoming.alive, incoming.spacious⟩, outgoing, ?_, owes⟩,
          ⟨ours.alive, ours.held⟩, unbounded⟩ rfl
        rw [List.append_nil]
        exact asked
  · obtain ⟨s, hsettle, houtcome⟩ := Connection.settle_of_waits ours runs tried
    cases Operation.tries_of_eq tried with
    | fills alive short =>
        have hruns : x.connection.settle.1.Runs (.write
            (done ++ rest.take x.connection.link.outgoing.room)
            (rest.drop x.connection.link.outgoing.room)) := ⟨s, true, by rw [hsettle]⟩
        refine .waits houtcome (.send ?_ ?_ hruns) fun hempty => .inl ?_
        · rw [← List.length_append, ← List.length_append, List.append_assoc, List.take_append_drop]
        · rw [hsettle]
          refine ⟨present, ⟨⟨incoming.alive, incoming.spacious⟩, outgoing, ?_, owes⟩,
            ⟨ours.alive, ours.held⟩, unbounded⟩
          change _ ++ ((_ ++ _) ++ _) = _
          rw [List.append_assoc, List.take_append_drop]
          exact asked
        · -- all that the pipe holds was taken out of it, so something fits in
          have hroom : 0 < x.connection.link.outgoing.room := by
            rw [Pipe.room, hempty]
            exact incoming.spacious
          rw [hruns.unwritten, runs.unwritten, Operation.unwritten, Operation.unwritten,
            List.length_drop]
          omega

theorem settle_read {room : Nat} (some : owed ≠ []) (asked : 0 < room)
    (h : Serving query steps [] owed x) (runs : x.connection.Runs (.read room)) :
    Settled query steps (.fetch room) owed x := by
  obtain ⟨present, ⟨incoming, outgoing, hasked, due, hdue, howed⟩, ours, unbounded⟩ := h
  rcases tried : (Operation.read room).attempt x.connection.link with ⟨o | op, l, bytes⟩
  · obtain ⟨hsettle, houtcome⟩ := Connection.settle_of_ends ours runs tried
    refine .ends o houtcome ?_
    rw [hsettle]
    cases Operation.tries_of_eq tried with
    | nothing => exact absurd asked (Nat.lt_irrefl 0)
    | ends _ empty closed => exact absurd (outgoing.alive.symm.trans closed) Bool.false_ne_true
    | takes _ filled =>
        subst howed
        have hsplit : x.connection.link.incoming.content ++ due =
            x.connection.link.incoming.content.take room ++
              (x.connection.link.incoming.content.drop room ++ due) := by
          rw [← List.append_assoc, List.take_append_drop]
        change Succeeds query steps _ (x.connection.link.incoming.content ++ due) _ _
        rw [hsplit]
        refine .fetched ?_ (List.length_take_le _ _) ⟨present, ⟨incoming,
          ⟨outgoing.alive, outgoing.spacious⟩, hasked, due, hdue, rfl⟩, ⟨ours.alive, ours.held⟩,
          unbounded⟩ rfl
        simpa [Nat.ne_of_gt asked] using filled
  · obtain ⟨s, hsettle, houtcome⟩ := Connection.settle_of_waits ours runs tried
    cases Operation.tries_of_eq tried with
    | waits _ empty alive =>
        have hruns : x.connection.settle.1.Runs (.read room) := ⟨s, true, by rw [hsettle]⟩
        refine .waits houtcome (.fetch some asked ?_ hruns) fun hleft => .inr ?_
        · rw [hsettle]
          exact ⟨present, ⟨incoming, outgoing, hasked, due, hdue, howed⟩, ⟨ours.alive, ours.held⟩,
            unbounded⟩
        · exact hleft.resolve_left fun hne => hne empty

end Serving

namespace Underway

variable {aim : Aim} {o : Outcome}

theorem peerTurn (hsteps : ∀ s ∈ steps, s.answers = true) (hquery : query.length ≤ Frame.maxBody)
    (h : Underway query steps aim owed x) :
    Underway query steps aim owed x.peerTurn ∧ (¬ x.peerTurn.peerBusy → x.peerTurn.LeavesTo aim) := by
  cases h with
  | send count serving runs =>
      obtain ⟨hserving, hline, hstays⟩ := serving.peerTurn hsteps hquery
      rw [Connection.Runs, ← hline] at runs
      exact ⟨.send count hserving runs, fun hbusy => (hstays hbusy).emptied⟩
  | fetch some asked serving runs =>
      obtain ⟨hserving, hline, hstays⟩ := serving.peerTurn hsteps hquery
      rw [Connection.Runs, ← hline] at runs
      exact ⟨.fetch some asked hserving runs, fun hbusy => (hstays hbusy).held rfl some⟩

theorem settle (h : Underway query steps aim owed x) : Settled query steps aim owed x := by
  cases h with
  | send count serving runs => exact count ▸ serving.settle_write runs
  | fetch some asked serving runs => exact serving.settle_read some asked runs

theorem takeTurns (hsteps : ∀ s ∈ steps, s.answers = true) (hquery : query.length ≤ Frame.maxBody)
    (h : Underway query steps aim owed x) :
    (∃ o y, x.takeTurns = (y, some o) ∧ Succeeds query steps aim owed o y) ∨
      ∃ y, x.takeTurns = (y, none) ∧ Underway query steps aim owed y ∧ y.Sleeping := by
  fun_induction Contact.takeTurns x with
  | case1 x y settled o houtcome =>
      obtain ⟨hunderway, -⟩ := h.peerTurn hsteps hquery
      cases hunderway.settle with
      | ends o' houtcome' succeeds =>
          cases houtcome.symm.trans houtcome'
          exact .inl ⟨o, _, rfl, succeeds⟩
      | waits houtcome' => cases houtcome.symm.trans houtcome'
  | case2 x y settled houtcome hmore ih =>
      obtain ⟨hunderway, -⟩ := h.peerTurn hsteps hquery
      cases hunderway.settle with
      | ends o' houtcome' => cases houtcome.symm.trans houtcome'
      | waits _ underway => exact ih underway
  | case3 x y settled houtcome hmore =>
      obtain ⟨hunderway, hleaves⟩ := h.peerTurn hsteps hquery
      cases hunderway.settle with
      | ends o' houtcome' => cases houtcome.symm.trans houtcome'
      | waits _ underway less =>
          refine .inr ⟨_, rfl, underway, ?_⟩
          rcases less (hleaves fun hbusy => hmore (.inl hbusy)) with hless | hsleeping
          · exact absurd (.inr hless) hmore
          · exact hsleeping

theorem wake {time : Time} {later : List Move} (h : Underway query steps aim owed x)
    (hmoves : x.peer.moves = .sleepUntil time :: later) :
    Underway query steps aim owed (x.wake time) := by
  cases h with
  | send count serving runs => exact .send count (serving.wake hmoves) runs
  | fetch some asked serving runs => exact .fetch some asked (serving.wake hmoves) runs

theorem next (h : Underway query steps aim owed x) {time : Time} {later : List Move}
    (hmoves : x.peer.moves = .sleepUntil time :: later) : x.next? = some (.wake time) := by
  have hdue : x.connection.due = none := by
    cases h with
    | send count serving runs => exact runs.due
    | fetch some asked serving runs => exact runs.due
  unfold Contact.next? Peer.alarm
  rw [hdue, hmoves]

theorem next_of_takeTurns (hsteps : ∀ s ∈ steps, s.answers = true)
    (hquery : query.length ≤ Frame.maxBody) (h : Underway query steps aim owed x)
    (hx : x.takeTurns = (y, none)) :
    ∃ time, y.next? = some (.wake time) ∧ Underway query steps aim owed (y.wake time) := by
  rcases h.takeTurns hsteps hquery with ⟨o, y', hy, -⟩ | ⟨y', hy, hunderway, time, later, hmoves⟩
  · cases hx.symm.trans hy
  · cases hx.symm.trans hy
    exact ⟨time, hunderway.next hmoves, hunderway.wake hmoves⟩

theorem wait (hsteps : ∀ s ∈ steps, s.answers = true) (hquery : query.length ≤ Frame.maxBody)
    (h : Underway query steps aim owed x) :
    ∃ o y, x.wait none = (y, some o) ∧ Succeeds query steps aim owed o y := by
  generalize hlimit : (none : Option Time) = limit
  fun_induction Contact.wait limit x with
  | case1 x y o hx =>
      rcases h.takeTurns hsteps hquery with ⟨o', y', hy, hsucceeds⟩ | ⟨y', hy, -⟩
      · cases hx.symm.trans hy
        exact ⟨o, y, rfl, hsucceeds⟩
      · cases hx.symm.trans hy
  | case2 x y hx hn =>
      obtain ⟨time, hnext, -⟩ := h.next_of_takeTurns hsteps hquery hx
      cases hn.symm.trans hnext
  | case3 x y hx due hn hlater =>
      obtain ⟨time, hnext, -⟩ := h.next_of_takeTurns hsteps hquery hx
      cases hn.symm.trans hnext
  | case4 x y hx due hn hlater =>
      obtain ⟨time, hnext, -⟩ := h.next_of_takeTurns hsteps hquery hx
      cases hn.symm.trans hnext
  | case5 x y hx alarm hn hlater =>
      subst hlimit
      cases hlater
  | case6 x y hx alarm hn hlater ih =>
      obtain ⟨time, hnext, hunderway⟩ := h.next_of_takeTurns hsteps hquery hx
      cases hn.symm.trans hnext
      exact ih hunderway

end Underway

namespace Serving

theorem takeTurns_idle (hsteps : ∀ s ∈ steps, s.answers = true) (hquery : query.length ≤ Frame.maxBody)
    (h : Serving query steps unsent owed x) (idle : x.connection.line = []) :
    ∃ y, x.takeTurns = (y, none) ∧ Serving query steps unsent owed y ∧ y.connection.line = [] := by
  fun_induction Contact.takeTurns x with
  | case1 x y settled o houtcome =>
      obtain ⟨-, hline, -⟩ := h.peerTurn hsteps hquery
      have hsettle : settled = (y.connection, []) := Connection.settle_of_nobody (hline.trans idle)
      rw [hsettle] at houtcome
      cases houtcome
  | case2 x y settled houtcome hmore ih =>
      obtain ⟨hserving, hline, -⟩ := h.peerTurn hsteps hquery
      have hsettle : settled = (y.connection, []) := Connection.settle_of_nobody (hline.trans idle)
      rw [hsettle] at ih ⊢
      exact ih hserving (hline.trans idle)
  | case3 x y settled houtcome hmore =>
      obtain ⟨hserving, hline, -⟩ := h.peerTurn hsteps hquery
      have hsettle : settled = (y.connection, []) := Connection.settle_of_nobody (hline.trans idle)
      rw [hsettle]
      exact ⟨_, rfl, hserving, hline.trans idle⟩

theorem next_idle (idle : x.connection.line = []) {next : Next} (h : x.next? = some next) :
    ∃ time later, next = .wake time ∧ x.peer.moves = .sleepUntil time :: later := by
  have hdue : x.connection.due = none := by
    simp [Connection.due, Connection.queue, idle]
  unfold Contact.next? Peer.alarm at h
  rw [hdue] at h
  split at h
  · rename_i hnone _
    cases hnone
  · rename_i hnone _
    cases hnone
  · rename_i halarm
    split at halarm
    · cases halarm
      exact ⟨_, _, (Option.some.inj h).symm, ‹_›⟩
    · cases halarm
  · cases h

theorem wait_idle (hsteps : ∀ s ∈ steps, s.answers = true) (hquery : query.length ≤ Frame.maxBody)
    (h : Serving query steps unsent owed x) (idle : x.connection.line = []) (limit : Option Time) :
    Serving query steps unsent owed (x.wait limit).1 ∧ (x.wait limit).1.connection.line = [] := by
  have turns {x y : Contact} {o : Option Outcome} (h : Serving query steps unsent owed x)
      (idle : x.connection.line = []) (hx : x.takeTurns = (y, o)) :
      o = none ∧ Serving query steps unsent owed y ∧ y.connection.line = [] := by
    obtain ⟨y', hy, hserving, hidle⟩ := h.takeTurns_idle hsteps hquery idle
    cases hx.symm.trans hy
    exact ⟨rfl, hserving, hidle⟩
  fun_induction Contact.wait limit x with
  | case1 x y o hx => cases (turns h idle hx).1
  | case2 x y hx hn => exact (turns h idle hx).2
  | case3 x y hx due hn hlater => exact (turns h idle hx).2
  | case4 x y hx due hn hlater =>
      obtain ⟨_, _, hnext, -⟩ := next_idle (turns h idle hx).2.2 hn
      cases hnext
  | case5 x y hx alarm hn hlater => exact (turns h idle hx).2
  | case6 x y hx alarm hn hlater ih =>
      obtain ⟨-, hserving, hidle⟩ := turns h idle hx
      obtain ⟨time, later, hnext, hmoves⟩ := next_idle hidle hn
      cases hnext
      exact ih (hserving.wake hmoves) hidle

theorem atTime (hsteps : ∀ s ∈ steps, s.answers = true) (hquery : query.length ≤ Frame.maxBody)
    (h : Serving query steps unsent owed x) (idle : x.connection.line = []) (time : Time) :
    Serving query steps unsent owed (x.atTime time) ∧ (x.atTime time).connection.line = [] := by
  unfold Contact.atTime
  split
  · obtain ⟨⟨present, engaged, ours, unbounded⟩, hidle⟩ :=
      h.wait_idle hsteps hquery idle (some time)
    exact ⟨⟨present, engaged, ⟨ours.alive, ours.held⟩, unbounded⟩, hidle⟩
  · exact ⟨h, idle⟩

theorem deadline (h : Serving query steps unsent owed x) (s : Nat) :
    x.connection.deadline s = none := by
  unfold Connection.deadline
  cases hd : x.connection.deadlines[s]? with
  | none => rfl
  | some d => exact h.unbounded d (List.mem_of_getElem? hd)

end Serving

end Contact

end DnsOverStreams
