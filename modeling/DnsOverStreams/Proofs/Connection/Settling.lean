import DnsOverStreams.Proofs.Connection.Change
/-!
A shared connection is quiet when nobody in line can go on. Turns of the first in line always lead
there, so that settling is one of the courses that a connection can take.
-/

namespace DnsOverStreams

namespace Connection

variable {c : Connection} {p : Pending} {rest : List Waiter}

/-- Nobody in line can go on. -/
def Quiet (c : Connection) : Prop :=
  ∀ place, c.turn place = (c, [])

theorem settle_eq_after (c : Connection) :
    ∃ n, c.settle = c.after (List.replicate n (.turn 0)) := by
  fun_induction settle c with
  | case1 c after shorter settled ih =>
      obtain ⟨n, hn⟩ := ih
      refine ⟨n + 1, ?_⟩
      simp only [List.replicate_succ, Connection.after, happen]
      rw [← hn]
  | case2 c after stays =>
      refine ⟨1, ?_⟩
      simp only [List.replicate_one, Connection.after, happen, List.append_nil]
      rfl

theorem quiet_of_nobody (h : c.line = []) : c.Quiet := by
  intro place
  simp [turn, h]

theorem quiet_of_first (first : c.line = .operation p :: rest) (alive : c.isClosed = false)
    (held : c.taken = false) (holds : p.holds = true) (early : p.deadline.any (· ≤ c.now) = false)
    (waits : p.operation.attempt c.link = ⟨.inr p.operation, c.link, []⟩) : c.Quiet := by
  -- another turn of the first one does what its last turn did: nothing
  have hp : { p with holds := true } = p := by rw [← holds]
  have hc : { c with line := .operation p :: rest } = c := by rw [← first]
  have hturn : c.operationTurn 0 p = (c, []) := by
    simpa [operationTurn, alive, held, Pending.proceed, waits, early, Pending.marks, holds, hp,
      first] using hc
  intro place
  cases place with
  | zero => simp [turn, first, hturn]
  | succ place =>
      simp only [turn]
      split
      next q h => simp [operationTurn, alive]
      next number h => simp [closingTurn]
      next => rfl

theorem operationTurn_first (first : c.line = .operation p :: rest) :
    (c.operationTurn 0 p).1.line.length < c.line.length ∨ (c.operationTurn 0 p).1.Quiet := by
  by_cases gone : c.isClosed = true ∨ c.taken = true
  · left
    rcases gone with closed | taken
    · simp [operationTurn, closed, leave, first]
    · simp [operationTurn, taken, leave, first]
  · obtain ⟨alive, held⟩ : c.isClosed = false ∧ c.taken = false := by simpa using gone
    rcases tried : p.operation.attempt c.link with ⟨o | op, l, bytes⟩
    · left
      simp [operationTurn, alive, held, Pending.proceed, tried, first]
    · cases late : p.deadline.any (· ≤ c.now) with
      | true =>
          left
          simp [operationTurn, alive, held, Pending.proceed, tried, late, first]
      | false =>
          have hturn : (c.operationTurn 0 p).1 =
              { c with
                link := l
                line := .operation { p with operation := op, holds := true } :: rest } := by
            simp [operationTurn, alive, held, Pending.proceed, tried, late, first]
          right
          rw [hturn]
          exact quiet_of_first rfl alive held rfl late (Operation.attempt_of_waits tried)

theorem closingTurn_first {number : Nat} (first : c.line = .closing number :: rest) :
    (c.closingTurn 0 number).1.line.length < c.line.length := by
  cases taken : c.taken <;> simp [closingTurn, leave, taken, first]

theorem turn_first (c : Connection) :
    (c.turn 0).1.line.length < c.line.length ∨ (c.turn 0).1.Quiet := by
  cases first : c.line with
  | nil =>
      have hturn : c.turn 0 = (c, []) := by simp [turn, first]
      exact .inr (hturn ▸ quiet_of_nobody first)
  | cons w rest =>
      cases w with
      | operation p =>
          have hturn : c.turn 0 = c.operationTurn 0 p := by simp [turn, first]
          rw [hturn, ← first]
          exact operationTurn_first first
      | closing number =>
          have hturn : c.turn 0 = c.closingTurn 0 number := by simp [turn, first]
          rw [hturn, ← first]
          exact .inl (closingTurn_first first)

theorem quiet_settle (c : Connection) : c.settle.1.Quiet := by
  fun_induction settle c with
  | case1 c after shorter settled ih => exact ih
  | case2 c after stays => exact (turn_first c).resolve_left stays

end Connection

end DnsOverStreams
