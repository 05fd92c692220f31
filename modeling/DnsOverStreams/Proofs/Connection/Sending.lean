import DnsOverStreams.Proofs.Connection.Holding
import DnsOverStreams.Proofs.Connection.Line
/-!
What is sent on a shared connection. The bytes of one write stand together, in the order in which
the writes got the connection, and each write has sent a front of its buffer, wherever it was cut
off.

The books tell who has the connection: nobody, or the operation at the end of the books, which is
then the first in line. That is kept by every change, and with it what the books say of the bytes.
-/

namespace DnsOverStreams

namespace Waiter

/-- One that did not have the connection yet. -/
def Fresh : Waiter → Prop
  | operation p => p.holds = false ∧ p.operation.sent = []
  | closing _ => True

def asking? : Waiter → Option (Nat × Operation)
  | operation p => if p.holds then none else some (p.stream, p.operation)
  | closing _ => none

end Waiter

namespace Connection

/-- The books are right about who has the connection, and about those who had it. -/
inductive Ledger : List Waiter → List Holding → Prop where
  | nobody {line past} (ended : ∀ h ∈ past, h.ending ≠ none) (sound : ∀ h ∈ past, h.Sound)
      (fresh : ∀ w ∈ line, w.Fresh) : Ledger line past
  | first {p rest past op} (ended : ∀ h ∈ past, h.ending ≠ none) (sound : ∀ h ∈ past, h.Sound)
      (holds : p.holds = true) (buffer : op.buffer = p.operation.buffer)
      (fresh : ∀ w ∈ rest, w.Fresh) :
      Ledger (.operation p :: rest) (past ++ [p.entry op])

/-- An end that is a success was earned: the operation has the connection and has sent all. -/
def Earned (line : List Waiter) (s : Nat) (e : Holding.End) : Prop :=
  ∀ n, e = .ended (.wrote n) → ∃ p rest, line = .operation p :: rest ∧ p.holds = true ∧
    p.stream = s ∧ p.operation.sent = p.operation.buffer ∧ n = p.operation.buffer.length

variable {c d : Connection} {x : Happening} {line rest : List Waiter} {books past : List Holding}
  {log notices : List Notice} {p : Pending} {s : Nat} {bytes : Bytes}

namespace Earned

theorem dropped : Earned line s .dropped :=
  fun _ h => nomatch h

theorem failed {e : IoFailure} : Earned line s (.ended (.failed e)) :=
  fun _ h => nomatch h

theorem nobody {e : Holding.End} (earned : Earned line s e) (fresh : ∀ w ∈ line, w.Fresh) :
    e.success? s = none := by
  refine Holding.End.success?_eq_none (fun n he => ?_) s
  obtain ⟨p, rest, rfl, holds, -⟩ := earned n he
  simp [(fresh (.operation p) (by simp)).1] at holds

theorem first {e : Holding.End} {n : Nat} (earned : Earned (.operation p :: rest) s e)
    (he : e = .ended (.wrote n)) :
    p.stream = s ∧ p.operation.sent = p.operation.buffer ∧ n = p.operation.buffer.length := by
  obtain ⟨q, tail, hline, -, hq⟩ := earned n he
  obtain ⟨rfl, -⟩ : p = q ∧ rest = tail := by simpa using hline
  exact hq

theorem other {e : Holding.End} (earned : Earned (.operation p :: rest) s e)
    (hs : p.stream ≠ s) : e.success? s = none := by
  refine Holding.End.success?_eq_none (fun n he => ?_) s
  exact hs (earned.first he).1

theorem sound {op : Operation} {e : Holding.End}
    (earned : Earned (.operation p :: rest) s e) (buffer : op.buffer = p.operation.buffer) :
    Holding.Sound ⟨p.stream, op, p.operation.sent, some e⟩ := by
  refine ⟨buffer ▸ p.operation.sent_prefix_buffer, fun n he => ?_⟩
  obtain ⟨-, hsent, hn⟩ := earned.first (Option.some.inj he)
  rw [buffer]
  exact ⟨hsent, hn⟩

end Earned

namespace Ledger

theorem sound (ledger : Ledger line books) : ∀ h ∈ books, h.Sound := by
  cases ledger with
  | nobody ended sound fresh => exact sound
  | first ended sound holds buffer fresh =>
      intro h hmem
      rcases List.mem_append.mp hmem with hmem | hmem
      · exact sound h hmem
      · exact List.mem_singleton.mp hmem ▸ Holding.sound_entry buffer

theorem append {w : Waiter} (ledger : Ledger line books) (fresh : w.Fresh) :
    Ledger (line ++ [w]) books := by
  have hadd : ∀ {line : List Waiter}, (∀ w ∈ line, w.Fresh) → ∀ v ∈ line ++ [w], v.Fresh := by
    intro line h v hv
    rcases List.mem_append.mp hv with hv | hv
    · exact h v hv
    · exact List.mem_singleton.mp hv ▸ fresh
  cases ledger with
  | nobody ended sound fresh => exact .nobody ended sound (hadd fresh)
  | first ended sound holds buffer fresh => exact .first ended sound holds buffer (hadd fresh)

theorem passed {number : Nat} (ledger : Ledger (.closing number :: rest) books) :
    Ledger rest books := by
  cases ledger with
  | nobody ended sound fresh =>
      exact .nobody ended sound fun w hw => fresh w (List.mem_cons_of_mem _ hw)

theorem took (ledger : Ledger (.operation p :: rest) books) (waits : p.holds = false) :
    Ledger (.operation { p with holds := true } :: rest)
      (books ++ [⟨p.stream, p.operation, [], none⟩]) := by
  cases ledger with
  | nobody ended sound fresh =>
      have hsent : p.operation.sent = [] := (fresh (.operation p) (by simp)).2
      have h : Ledger (.operation { p with holds := true } :: rest)
          (books ++ [Pending.entry { p with holds := true } p.operation]) :=
        .first ended sound rfl rfl fun w hw => fresh w (List.mem_cons_of_mem _ hw)
      rwa [Pending.entry, hsent] at h
  | first ended sound holds => simp [waits] at holds

theorem pushed {op : Operation} (ledger : Ledger (.operation p :: rest) books)
    (holds : p.holds = true) (sent : op.sent = p.operation.sent ++ bytes)
    (buffer : op.buffer = p.operation.buffer) :
    Ledger (.operation { p with operation := op } :: rest) (books.map (.push p.stream bytes)) ∧
      (books.map (.push p.stream bytes)).flatMap Holding.sent =
        books.flatMap Holding.sent ++ bytes := by
  cases ledger with
  | nobody ended sound fresh =>
      have hfresh : p.holds = false := (fresh (.operation p) (by simp)).1
      simp [holds] at hfresh
  | @first _ _ past was ended sound _ hbuffer fresh =>
      have hbooks : (past ++ [p.entry was]).map (.push p.stream bytes) =
          past ++ [Pending.entry { p with operation := op } was] := by
        rw [List.map_append, Holding.map_push_of_ended ended, List.map_singleton,
          Holding.push_entry, Pending.entry, sent]
      rw [hbooks]
      constructor
      · exact .first ended sound holds (hbuffer.trans buffer.symm) fresh
      · simp [Pending.entry, sent]

theorem finish {e : Holding.End} (ledger : Ledger line books) (earned : Earned line s e) :
    Ledger (line.filter fun w => !w.isOn s) (books.map (.finish s e)) ∧
      (books.map (.finish s e)).filterMap Holding.success? =
        books.filterMap Holding.success? ++ (e.success? s).toList := by
  cases ledger with
  | nobody ended sound fresh =>
      rw [Holding.map_finish_of_ended ended, earned.nobody fresh]
      constructor
      · exact .nobody ended sound fun w hw => fresh w (List.mem_filter.mp hw).1
      · simp
  | @first p rest past op ended sound holds buffer fresh =>
      have hrest : ∀ w ∈ rest.filter (fun w => !w.isOn s), w.Fresh :=
        fun w hw => fresh w (List.mem_filter.mp hw).1
      rw [List.map_append, Holding.map_finish_of_ended ended, List.map_singleton]
      -- whoever leaves has the connection only if it is on the stream of the last entry
      by_cases hs : p.stream = s
      · subst hs
        have hline : (Waiter.operation p :: rest).filter (fun w => !w.isOn p.stream) =
            rest.filter fun w => !w.isOn p.stream := List.filter_cons_of_neg (by simp)
        rw [hline, Holding.finish_entry]
        constructor
        · refine .nobody ?_ ?_ hrest
          · simpa [or_imp, forall_and] using ended
          · simpa [or_imp, forall_and] using ⟨sound, earned.sound buffer⟩
        · simp only [List.filterMap_append, List.filterMap_cons, List.filterMap_nil,
            Holding.success?_entry, Holding.success?_ended]
          cases e.success? p.stream <;> simp
      · have hline : (Waiter.operation p :: rest).filter (fun w => !w.isOn s) =
            Waiter.operation p :: rest.filter (fun w => !w.isOn s) :=
          List.filter_cons_of_pos (by simpa using hs)
        rw [hline, Holding.finish_entry_of_ne hs, earned.other hs]
        constructor
        · exact .first ended sound holds buffer hrest
        · simp

end Ledger

/-- The books are right, and they have all pushes and all successes that were noticed. -/
structure Books (line : List Waiter) (log : List Notice) : Prop where
  ledger : Ledger line (holdings log)
  pushes : log.flatMap Notice.pushedBytes = (holdings log).flatMap Holding.sent
  successes : log.filterMap Notice.success? = (holdings log).filterMap Holding.success?

namespace Books

theorem aside {notice : Notice} (books : Books line log)
    (unnoted : ∀ past, Holding.note past notice = past) (silent : notice.pushedBytes = [])
    (unsuccessful : notice.success? = none) : Books line (log ++ [notice]) := by
  constructor
  · simpa [holdings_snoc, unnoted] using books.ledger
  · simpa [holdings_snoc, unnoted, silent] using books.pushes
  · simpa [holdings_snoc, unnoted, unsuccessful] using books.successes

theorem joined {w : Waiter} (books : Books line log) (fresh : w.Fresh) : Books (line ++ [w]) log :=
  { books with ledger := books.ledger.append fresh }

theorem passed {number : Nat} (books : Books (.closing number :: rest) log) : Books rest log :=
  { books with ledger := books.ledger.passed }

theorem ended {e : Holding.End} (books : Books line log) (earned : Earned line s e) :
    Books (line.filter fun w => !w.isOn s) (log ++ [e.notice s]) := by
  obtain ⟨ledger, successes⟩ := books.ledger.finish earned
  have hnoted : holdings (log ++ [e.notice s]) = (holdings log).map (.finish s e) := by
    rw [holdings_snoc, Holding.note_notice]
  constructor
  · rwa [hnoted]
  · simpa [hnoted, Holding.flatMap_sent_finish] using books.pushes
  · rw [hnoted, successes, ← books.successes, List.filterMap_append, List.filterMap_cons,
      List.filterMap_nil, Holding.End.success?_notice]
    cases e.success? s <;> rfl

theorem took (books : Books (.operation p :: rest) log) (waits : p.holds = false) :
    Books (.operation { p with holds := true } :: rest) (log ++ [.took p.stream p.operation]) := by
  constructor
  · simpa [holdings_snoc, Holding.note] using books.ledger.took waits
  · simpa [holdings_snoc, Holding.note, Notice.pushedBytes] using books.pushes
  · simpa [holdings_snoc, Holding.note, Notice.success?, Holding.success?,
      List.filterMap_cons] using books.successes

theorem pushed {op : Operation} (books : Books (.operation p :: rest) log)
    (holds : p.holds = true) (sent : op.sent = p.operation.sent ++ bytes)
    (buffer : op.buffer = p.operation.buffer) :
    Books (.operation { p with operation := op } :: rest) (log ++ [.pushed p.stream bytes]) := by
  obtain ⟨ledger, pushes⟩ := books.ledger.pushed holds sent buffer
  have hnoted : holdings (log ++ [.pushed p.stream bytes]) =
      (holdings log).map (.push p.stream bytes) := holdings_snoc _ _
  constructor
  · rwa [hnoted]
  · simpa [hnoted, Notice.pushedBytes, pushes] using books.pushes
  · simpa [hnoted, Notice.success?, List.filterMap_cons] using books.successes

theorem changed {op : Operation} (books : Books (.operation p :: rest) log)
    (holds : p.holds = true) (sent : op.sent = p.operation.sent)
    (buffer : op.buffer = p.operation.buffer) :
    Books (.operation { p with operation := op } :: rest) log := by
  have hsent : op.sent = p.operation.sent ++ [] := by simpa using sent
  obtain ⟨ledger, -⟩ := books.ledger.pushed holds hsent buffer
  refine { books with ledger := ?_ }
  simpa [Holding.push_nil] using ledger

theorem marked {op : Operation} (books : Books (.operation p :: rest) log)
    (sent : op.sent = p.operation.sent ++ bytes) (buffer : op.buffer = p.operation.buffer) :
    Books (.operation { p with operation := op, holds := true } :: rest)
      (log ++ p.marks bytes) := by
  have taken : Books (.operation { p with holds := true } :: rest)
      (log ++ if p.holds then [] else [.took p.stream p.operation]) := by
    cases holds : p.holds with
    | true =>
        have hp : { p with holds := true } = p := by rw [← holds]
        simpa [hp] using books
    | false => simpa using books.took holds
  rw [Pending.marks, ← List.append_assoc]
  -- a turn that sends nothing is not noticed as a push
  by_cases hbytes : bytes = []
  · rw [if_pos hbytes, List.append_nil]
    exact taken.changed rfl (by simpa [hbytes] using sent) buffer
  · rw [if_neg hbytes]
    exact taken.pushed rfl sent buffer

theorem of_change (books : Books c.line log) (distinct : Distinct c.line)
    (change : Change c x d notices) : Books d.line (log ++ notices) := by
  cases change with
  | aside now deadlines => simpa using books
  | streamClosed stream => exact books.aside (fun _ => rfl) rfl rfl
  | @refused stream op closed idle =>
      have started : Books c.line (log ++ [.started stream op]) :=
        books.aside (fun _ => rfl) rfl rfl
      have ended := started.ended (e := .ended (.failed .notConnected)) (s := stream) .failed
      rw [filter_of_idle idle] at ended
      simpa [Holding.End.notice] using ended
  | started alive idle unsent =>
      refine Books.aside (books.joined ?_) (fun _ => rfl) rfl rfl
      exact ⟨rfl, unsent⟩
  | @dropped stream busy =>
      exact books.ended (e := .dropped) .dropped
  | closing => simpa [close] using books.joined (w := .closing c.closes) trivial
  | arrived bytes here => exact books.aside (fun _ => rfl) rfl rfl
  | collected room here => exact books.aside (fun _ => rfl) rfl rfl
  | peerLeft here => simpa [peerClose] using books
  | @cutOff place p at_place cut =>
      -- it may have had the connection or not; to leave is the same for both
      have ended := books.ended (e := .ended (.failed .notConnected)) (s := p.stream) .failed
      rw [← distinct.eraseIdx_eq_filter at_place] at ended
      exact ended
  | @finished p rest o l bytes first alive held tried =>
      obtain ⟨⟨unsent, hbuffer⟩, hwhole⟩ := Operation.sent_of_ends tried
      rw [first] at books distinct
      -- nothing is left of an operation that ends; its last state is put together from its buffer
      have marked : Books (.operation { p with
          operation := .write (p.operation.sent ++ bytes) unsent, holds := true } :: rest)
          (log ++ p.marks bytes) := books.marked rfl hbuffer
      have ended := marked.ended (e := .ended o) (s := p.stream) fun n he => by
        obtain ⟨hall, hn⟩ := hwhole n (by simpa using he)
        exact ⟨_, _, rfl, rfl, rfl, hall.trans hbuffer.symm,
          hn.trans (congrArg List.length hbuffer.symm)⟩
      rw [distinct.filter_rest (by rfl)] at ended
      simpa [Holding.End.notice] using ended
  | @expired p rest op l bytes first alive held tried =>
      obtain ⟨hsent, hbuffer⟩ := Operation.sent_of_waits tried
      rw [first] at books distinct
      have marked := books.marked hsent hbuffer
      have ended := marked.ended (e := .ended (.failed .deadline)) (s := p.stream) .failed
      rw [distinct.filter_rest (by rfl)] at ended
      simpa [Holding.End.notice] using ended
  | waited first alive held tried =>
      obtain ⟨hsent, hbuffer⟩ := Operation.sent_of_waits tried
      rw [first] at books
      exact books.marked hsent hbuffer
  | shut first held =>
      rw [first] at books
      exact books.passed.aside (fun _ => rfl) rfl rfl
  | passed first taken =>
      rw [first] at books
      exact books.passed.aside (fun _ => rfl) rfl rfl

end Books

theorem books_after (capacity : Nat) (shutdown : Option IoFailure) (xs : List Happening) :
    Books ((opened capacity shutdown).after xs).1.line ((opened capacity shutdown).after xs).2 := by
  have hopened : Books (opened capacity shutdown).line [] :=
    ⟨.nobody nofun nofun nofun, rfl, rfl⟩
  exact (after_keeps (fun c log => Distinct c.line ∧ Books c.line log)
    (fun h change => ⟨h.1.of_change change, h.2.of_change h.1 change⟩)
    (opened capacity shutdown) ⟨List.Pairwise.nil, hopened⟩ xs).2

/-- Those who got the connection, and then those in line who did not yet, were started in that
order. -/
def InTurn (line : List Waiter) (log : List Notice) : Prop :=
  (log.filterMap Notice.got? ++ line.filterMap Waiter.asking?).Sublist (log.filterMap Notice.asked?)

namespace InTurn

theorem of_sublist {fewer : List Waiter} (h : InTurn line log) (sublist : fewer.Sublist line)
    (untaken : notices.filterMap Notice.got? = []) : InTurn fewer (log ++ notices) := by
  unfold InTurn at h ⊢
  rw [List.filterMap_append, List.filterMap_append, untaken, List.append_nil]
  calc (log.filterMap Notice.got? ++ fewer.filterMap Waiter.asking?).Sublist
        (log.filterMap Notice.got? ++ line.filterMap Waiter.asking?) :=
        (sublist.filterMap _).append_left _
    _ |>.Sublist (log.filterMap Notice.asked?) := h
    _ |>.Sublist _ := List.sublist_append_left _ _

theorem marked (h : InTurn (.operation p :: rest) log) : InTurn rest (log ++ p.marks bytes) := by
  unfold InTurn at h ⊢
  rw [List.filterMap_append, List.filterMap_append, Pending.got_marks, Pending.asked_marks]
  cases holds : p.holds <;>
    simpa [List.filterMap_cons, Waiter.asking?, holds] using h

theorem ended (h : InTurn (.operation p :: rest) log) (o : Outcome) :
    InTurn rest (log ++ (p.marks bytes ++ [.ended p.stream o])) := by
  rw [← List.append_assoc]
  exact h.marked.of_sublist (List.Sublist.refl _) rfl

theorem of_change (h : InTurn c.line log) (change : Change c x d notices) :
    InTurn d.line (log ++ notices) := by
  cases change with
  | @started stream op alive idle unsent =>
      unfold InTurn at h ⊢
      simpa [List.filterMap_cons, Waiter.asking?, Notice.got?, Notice.asked?] using
        h.append_right [(stream, op)]
  | finished first alive held tried | expired first alive held tried =>
      rw [first] at h
      exact h.ended _
  | @waited p rest op l bytes first alive held tried =>
      rw [first] at h
      have h : InTurn rest (log ++ p.marks bytes) := h.marked
      unfold InTurn at h ⊢
      simpa [List.filterMap_cons, Waiter.asking?] using h
  | closing =>
      unfold InTurn at h ⊢
      simpa [close, List.filterMap_cons, Waiter.asking?] using h
  | dropped busy => exact h.of_sublist List.filter_sublist rfl
  | cutOff at_place cut => exact h.of_sublist (List.eraseIdx_sublist _ _) rfl
  | shut first held | passed first taken =>
      refine h.of_sublist ?_ rfl
      rw [first]
      exact List.sublist_cons_self _ _
  | _ => exact h.of_sublist (List.Sublist.refl _) rfl

end InTurn

theorem inTurn_after (capacity : Nat) (shutdown : Option IoFailure) (xs : List Happening) :
    InTurn ((opened capacity shutdown).after xs).1.line ((opened capacity shutdown).after xs).2 :=
  after_keeps (fun c log => InTurn c.line log) (fun h change => h.of_change change)
    (opened capacity shutdown) (List.Sublist.refl _) xs

/-- The bytes that were sent are what the operations sent that got the connection, one after another
in the order in which they got it, which is the order in which they were started. Each has sent a
front of its buffer, and all of it if it is a write that succeeded. -/
theorem outgoing_bytes_are_writes_in_turn {capacity : Nat} {shutdown : Option IoFailure}
    {xs : List Happening} {c : Connection} {log : List Notice}
    (course : (opened capacity shutdown).after xs = (c, log)) :
    log.flatMap Notice.collectedBytes ++ c.link.outgoing.content =
        log.flatMap Notice.pushedBytes ∧
      log.flatMap Notice.pushedBytes = (holdings log).flatMap Holding.sent ∧
      (∀ h ∈ holdings log, h.sent <+: h.operation.buffer ∧
        ∀ n, h.ending = some (.ended (.wrote n)) →
          h.sent = h.operation.buffer ∧ n = h.operation.buffer.length) ∧
      log.filterMap Notice.success? = (holdings log).filterMap Holding.success? ∧
      (holdings log).map Holding.asked = log.filterMap Notice.got? ∧
      (log.filterMap Notice.got?).Sublist (log.filterMap Notice.asked?) := by
  have balance := balanced_after outgoing_of_change (opened capacity shutdown) xs
  have books := books_after capacity shutdown xs
  have inTurn := inTurn_after capacity shutdown xs
  rw [course] at balance books inTurn
  refine ⟨balance, books.pushes, books.ledger.sound, books.successes, asked_holdings log, ?_⟩
  exact (List.sublist_append_left _ _).trans inTurn

theorem outgoing_bytes_are_writes_in_turn_of_two :
    let reached := (opened 3 none).after [.step .openStream, .step .openStream,
      .step (.write 0 [1, 2, 3, 4, 5, 9]), .turn 0, .step (.write 1 [6, 7]), .step (.peerRead 2),
      .turn 0, .step (.abort 0), .step (.peerRead 2), .turn 0]
    holdings reached.2 = [⟨0, .write [] [1, 2, 3, 4, 5, 9], [1, 2, 3, 4, 5], some .dropped⟩,
        ⟨1, .write [] [6, 7], [6, 7], some (.ended (.wrote 2))⟩] ∧
      reached.2.flatMap Notice.pushedBytes = [1, 2, 3, 4, 5, 6, 7] := by
  intro reached
  have course : (opened 3 none).after _ = (reached.1, reached.2) := rfl
  exact ⟨rfl, (outgoing_bytes_are_writes_in_turn course).2.1⟩

end Connection

end DnsOverStreams
