import DnsOverStreams.Proofs.Connection.Closing
/-!
Closings of a shared connection, however many are begun and whatever else goes on. They end in the
order in which they were begun. The first of them takes the pipe away and shuts it down, which is
done once; what that gives is its result, and all others succeed. The other end can then read what
was sent, and nothing after it.
-/

namespace DnsOverStreams

def Notice.closing? : Notice → Option (Nat × Except Failure Unit)
  | closed number result => some (number, result)
  | _ => none

def Waiter.closing? : Waiter → Option Nat
  | operation _ => none
  | closing number => some number

@[simp] theorem Waiter.closing?_operation (p : Pending) : (operation p).closing? = none := rfl

@[simp] theorem Waiter.closing?_closing (number : Nat) :
    (closing number).closing? = some number := rfl

@[simp] theorem Pending.closing_marks (p : Pending) (bytes : Bytes) :
    (p.marks bytes).filterMap Notice.closing? = [] := by
  refine List.filterMap_eq_nil_iff.mpr fun notice h => ?_
  rcases p.mem_marks bytes h with rfl | rfl <;> rfl

namespace Connection

variable {c d e : Connection} {x : Happening} {log notices : List Notice}

/-- Whether it is the turn of a closing that takes the pipe away and shuts it down. -/
def shutsDown (c : Connection) : Happening → Bool
  | .turn 0 => !c.taken && c.line.head?.any (·.closing?.isSome)
  | _ => false

def shutdowns (c : Connection) : List Happening → Nat
  | [] => 0
  | x :: xs => (c.shutsDown x).toNat + (c.happen x).1.shutdowns xs

/-- What a closing gives: the first one what came of shutting down, all others nothing but success.
-/
def closingResult (shutdown : Option IoFailure) : Nat → Except Failure Unit
  | 0 =>
      match shutdown with
      | some e => .error (if e.kind = .timedOut then .timeout else .io e)
      | none => .ok ()
  | _ + 1 => .ok ()

theorem taken_operationTurn (c : Connection) (place : Nat) (p : Pending) :
    (c.operationTurn place p).1.taken = c.taken := by
  unfold operationTurn
  split
  · rfl
  · split
    · rfl
    · split <;> rfl

theorem taken_start (c : Connection) (stream : Nat) (op : Operation) :
    (c.start stream op).1.taken = c.taken := by
  unfold start
  split <;> rfl

theorem taken_unlessBusy {stream : Nat} {next : Shown × Connection × List Notice}
    (h : next.2.1.taken = c.taken) : (c.unlessBusy stream next).2.1.taken = c.taken := by
  unfold unlessBusy
  split
  · rfl
  · exact h

theorem taken_unlessGone {next : Shown × Connection × List Notice}
    (h : next.2.1.taken = c.taken) : (c.unlessGone next).2.1.taken = c.taken := by
  unfold unlessGone
  split
  · rfl
  · exact h

theorem taken_act (c : Connection) (s : ConnectionStep) : (c.act s).2.1.taken = c.taken := by
  cases s with
  | openStream | close | advance => rfl
  | setDeadline | closeStream => exact taken_unlessBusy rfl
  | read | write => exact taken_unlessBusy (taken_start c _ _)
  | abort => rw [act]; split <;> rfl
  | peerWrite bytes =>
      apply taken_unlessGone
      unfold peerWrite
      dsimp only
      cases ((Operation.write [] bytes).attempt c.link.flip).result with
      | inl o => cases o <;> rfl
      | inr op => rfl
  | peerRead room =>
      apply taken_unlessGone
      unfold peerRead
      dsimp only
      cases ((Operation.read room).attempt c.link.flip).result with
      | inl o => cases o <;> rfl
      | inr op => rfl
  | peerClose => rw [act]; split <;> rfl

theorem taken_turn (c : Connection) (place : Nat) :
    (c.turn place).1.taken = (c.taken || c.shutsDown (.turn place)) := by
  unfold turn
  split
  next p h =>
    rw [taken_operationTurn]
    cases place with
    | zero => simp [shutsDown, List.head?_eq_getElem?, h]
    | succ place => simp [shutsDown]
  next number h =>
    cases place with
    | zero =>
        cases held : c.taken <;>
          simp [closingTurn, shutsDown, List.head?_eq_getElem?, h, held, leave]
    | succ place => simp [closingTurn, shutsDown]
  next h =>
    cases place with
    | zero => simp [shutsDown, List.head?_eq_getElem?, h]
    | succ place => simp [shutsDown]

theorem taken_happen (c : Connection) (x : Happening) :
    (c.happen x).1.taken = (c.taken || c.shutsDown x) := by
  cases x with
  | step s => exact (taken_act c s).trans (Bool.or_false _).symm
  | turn place => exact taken_turn c place

theorem shutsDown_of_taken (taken : c.taken = true) (x : Happening) : c.shutsDown x = false := by
  unfold shutsDown
  split
  · rw [taken]
    rfl
  · rfl

theorem taken_add_shutdowns (c : Connection) (xs : List Happening) :
    c.taken.toNat + c.shutdowns xs = (c.after xs).1.taken.toNat := by
  induction xs generalizing c with
  | nil => rfl
  | cons x xs ih =>
      have hstep : c.taken.toNat + (c.shutsDown x).toNat = (c.happen x).1.taken.toNat := by
        rw [taken_happen]
        cases taken : c.taken with
        | false => exact Nat.zero_add _
        | true => rw [shutsDown_of_taken taken]; rfl
      rw [after, ← ih, ← hstep, shutdowns, Nat.add_assoc]

theorem closings_filter (line : List Waiter) (s : Nat) :
    (line.filter fun w => !w.isOn s).filterMap Waiter.closing? =
      line.filterMap Waiter.closing? := by
  rw [List.filterMap_filter]
  congr 1
  funext w
  cases w with
  | operation p => exact ite_self _
  | closing number => rfl

theorem closings_eraseIdx {ws : List Waiter} {place : Nat} {p : Pending}
    (at_place : ws[place]? = some (.operation p)) :
    (ws.eraseIdx place).filterMap Waiter.closing? = ws.filterMap Waiter.closing? := by
  induction ws generalizing place with
  | nil => rfl
  | cons w rest ih =>
      cases place with
      | zero =>
          obtain rfl : w = .operation p := by simpa using at_place
          rfl
      | succ place =>
          have hp : rest[place]? = some (.operation p) := by simpa using at_place
          rw [List.eraseIdx_cons_succ, List.filterMap_cons, List.filterMap_cons, ih hp]

/-- Of the closings that were begun, the first have ended, each with its result, and the others stand
in line, all in the order in which they were begun. -/
structure Accounted (shutdown : Option IoFailure) (ended waiting : Nat) (c : Connection)
    (log : List Notice) : Prop where
  same : c.shutdown = shutdown
  begun : c.closes = ended + waiting
  results : log.filterMap Notice.closing? =
    (List.range ended).map fun n => (n, closingResult shutdown n)
  inLine : c.line.filterMap Waiter.closing? = List.range' ended waiting
  taken : c.taken = true ↔ 0 < ended
  dropped : c.taken = true → c.link.outgoing.closed = true ∧ c.link.incoming.closed = true

namespace Accounted

variable {shutdown : Option IoFailure} {ended waiting : Nat}

theorem keep (h : Accounted shutdown ended waiting c log) (same : d.shutdown = c.shutdown)
    (begun : d.closes = c.closes) (taken : d.taken = c.taken)
    (inLine : d.line.filterMap Waiter.closing? = c.line.filterMap Waiter.closing?)
    (silent : notices.filterMap Notice.closing? = [])
    (dropped : c.taken = true → c.link.outgoing.closed = true → c.link.incoming.closed = true →
      d.link.outgoing.closed = true ∧ d.link.incoming.closed = true) :
    Accounted shutdown ended waiting d (log ++ notices) where
  same := same.trans h.same
  begun := begun.trans h.begun
  results := by rw [List.filterMap_append, silent, List.append_nil, h.results]
  inLine := inLine.trans h.inLine
  taken := by rw [taken, h.taken]
  dropped htaken := by
    rw [taken] at htaken
    obtain ⟨hout, hin⟩ := h.dropped htaken
    exact dropped htaken hout hin

theorem begin (h : Accounted shutdown ended waiting c log) :
    Accounted shutdown ended (waiting + 1) c.close log where
  same := h.same
  begun := congrArg (· + 1) h.begun
  results := h.results
  inLine := by
    change (c.line ++ [Waiter.closing c.closes]).filterMap Waiter.closing? = _
    rw [List.filterMap_append, h.inLine, h.begun, List.range'_concat, Nat.one_mul]
    rfl
  taken := h.taken
  dropped := h.dropped

theorem finish (h : Accounted shutdown ended waiting c log) {number : Nat} {rest : List Waiter}
    {result : Except Failure Unit} {link : Link} (first : c.line = .closing number :: rest)
    (hresult : result = closingResult shutdown ended)
    (hlink : link.outgoing.closed = true ∧ link.incoming.closed = true) :
    ∃ left, Accounted shutdown (ended + 1) left { c with line := rest, link := link, taken := true }
      (log ++ [.closed number result]) := by
  have hline := h.inLine
  rw [first, List.filterMap_cons] at hline
  cases waiting with
  | zero => cases hline
  | succ left =>
      rw [List.range'_succ] at hline
      obtain ⟨rfl, hrest⟩ := List.cons.inj hline
      refine ⟨left, h.same, ?_, ?_, hrest, ?_, fun _ => hlink⟩
      · rw [h.begun, Nat.add_right_comm, Nat.add_assoc]
      · rw [List.filterMap_append, h.results, hresult, List.range_succ, List.map_append]
        rfl
      · exact ⟨fun _ => Nat.succ_pos _, fun _ => rfl⟩

theorem of_change (h : Accounted shutdown ended waiting c log) (change : Change c x d notices) :
    ∃ ended waiting, Accounted shutdown ended waiting d (log ++ notices) := by
  cases change with
  | aside | streamClosed | refused | arrived | collected =>
      exact ⟨_, _, h.keep rfl rfl rfl rfl rfl fun _ hout hin => ⟨hout, hin⟩⟩
  | started alive idle unsent =>
      refine ⟨_, _, h.keep rfl rfl rfl ?_ rfl fun _ hout hin => ⟨hout, hin⟩⟩
      rw [List.filterMap_append]
      exact List.append_nil _
  | dropped busy =>
      exact ⟨_, _, h.keep rfl rfl rfl (closings_filter _ _) rfl fun _ hout hin => ⟨hout, hin⟩⟩
  | closing begun => exact ⟨_, _, (List.append_nil log).symm ▸ h.begin⟩
  | peerLeft here => exact ⟨_, _, h.keep rfl rfl rfl rfl rfl fun _ _ _ => ⟨rfl, rfl⟩⟩
  | cutOff at_place cut =>
      exact ⟨_, _, h.keep rfl rfl rfl (closings_eraseIdx at_place) rfl
        fun _ hout hin => ⟨hout, hin⟩⟩
  | finished first alive held tried | expired first alive held tried =>
      refine ⟨_, _, h.keep rfl rfl rfl ?_ ?_ fun taken => ?_⟩
      · rw [first]
        rfl
      · simp [Notice.closing?]
      · simp [held] at taken
  | waited first alive held tried =>
      refine ⟨_, _, h.keep rfl rfl rfl ?_ ?_ fun taken => ?_⟩
      · rw [first]
        rfl
      · simp
      · simp [held] at taken
  | shut first held =>
      have hnone : ended = 0 := by
        apply Nat.eq_zero_of_not_pos
        rw [← h.taken, held]
        decide
      refine ⟨_, h.finish first ?_ ⟨rfl, rfl⟩⟩
      rw [hnone, shutdownResult, h.same]
      cases shutdown with
      | none => rfl
      | some e => rfl
  | passed first taken =>
      obtain ⟨before, rfl⟩ := Nat.exists_eq_add_one.mpr (h.taken.mp taken)
      obtain ⟨left, hleft⟩ := h.finish first rfl (h.dropped taken)
      rw [← taken] at hleft
      exact ⟨_, _, hleft⟩

end Accounted

theorem accounted_after (capacity : Nat) (shutdown : Option IoFailure) (xs : List Happening) :
    ∃ ended waiting, Accounted shutdown ended waiting ((opened capacity shutdown).after xs).1
      ((opened capacity shutdown).after xs).2 := by
  refine after_keeps (fun c log => ∃ ended waiting, Accounted shutdown ended waiting c log) ?_
    (opened capacity shutdown) ?_ xs
  · rintro c x d log notices ⟨ended, waiting, h⟩ change
    exact h.of_change change
  · refine ⟨0, 0, rfl, rfl, rfl, rfl, ?_, ?_⟩
    · exact ⟨fun taken => absurd taken Bool.false_ne_true, fun pos => absurd pos (Nat.lt_irrefl 0)⟩
    · exact fun taken => absurd taken Bool.false_ne_true

theorem closes_happen (c : Connection) (x : Happening) :
    (c.happen x).1.closes = c.closes + [x].count (.step .close) := by
  by_cases h : x = .step .close
  · rw [h]
    rfl
  · rw [closes_of_change (.happen x) h, List.count_singleton, beq_false_of_ne h]
    rfl

theorem closes_after (c : Connection) (xs : List Happening) :
    (c.after xs).1.closes = c.closes + xs.count (.step .close) := by
  induction xs generalizing c with
  | nil => rfl
  | cons x xs ih =>
      rw [after, ih, closes_happen, Nat.add_assoc, ← List.count_append]
      rfl

theorem line_of_closed (closed : c.isClosed = true) (change : Change c x d notices) :
    d.line.Sublist c.line ∨ d.line = c.line ++ [.closing c.closes] := by
  cases change with
  | finished _ alive | expired _ alive | waited _ alive | started alive => simp [closed] at alive
  | closing begun => exact .inr rfl
  | dropped busy => exact .inl List.filter_sublist
  | cutOff at_place cut => exact .inl (List.eraseIdx_sublist _ _)
  | shut first | passed first =>
      rw [first]
      exact .inl (List.sublist_cons_self _ _)
  | _ => exact .inl (List.Sublist.refl _)

theorem turn_of_closed (closed : c.isClosed = true) : (c.turn 0).1.line = c.line.tail := by
  cases first : c.line with
  | nil => simp [turn, first]
  | cons w rest =>
      cases w with
      | operation p => simp [turn, first, operationTurn, closed, leave]
      | closing number => cases taken : c.taken <;> simp [turn, first, closingTurn, taken, leave]

/-- The closings that are not among the first so many in line have at least this number. -/
def Behind (number places : Nat) (line : List Waiter) : Prop :=
  ∀ n, .closing n ∈ line.drop places → number ≤ n

theorem behind_of_sublist {number places : Nat} {line line' : List Waiter}
    (h : Behind number places line) (hsub : line'.Sublist line) : Behind number places line' :=
  fun n hn => h n ((hsub.drop places).mem hn)

theorem behind_append {number places n : Nat} {line : List Waiter}
    (h : Behind number places line) (hn : number ≤ n) :
    Behind number places (line ++ [.closing n]) := by
  intro m hm
  rw [List.drop_append] at hm
  rcases List.mem_append.mp hm with hm | hm
  · exact h m hm
  · cases List.mem_singleton.mp (List.mem_of_mem_drop hm)
    exact hn

theorem behind_happen {number places : Nat} (closed : c.isClosed = true)
    (hnumber : number ≤ c.closes) (h : Behind number places c.line) :
    Behind number (places - [x].count (.turn 0)) (c.happen x).1.line := by
  by_cases hx : x = .turn 0
  · rw [hx]
    change Behind number (places - 1) (c.turn 0).1.line
    rw [turn_of_closed closed]
    intro n hn
    cases places with
    | zero => exact h n (List.mem_of_mem_tail hn)
    | succ places =>
        rw [Nat.add_sub_cancel, List.drop_tail] at hn
        exact h n hn
  · rw [List.count_singleton, beq_false_of_ne hx]
    rcases line_of_closed closed (.happen x) with hsub | hline
    · exact behind_of_sublist h hsub
    · rw [hline]
      exact behind_append h hnumber

theorem behind_after {number places : Nat} (closed : c.isClosed = true)
    (hnumber : number ≤ c.closes) (h : Behind number places c.line) (xs : List Happening) :
    Behind number (places - xs.count (.turn 0)) (c.after xs).1.line := by
  induction xs generalizing c places with
  | nil => exact h
  | cons x xs ih =>
      have hlater := ih (isClosed_of_change closed (.happen x))
        (by rw [closes_happen]; exact Nat.le_add_right_of_le hnumber)
        (behind_happen (x := x) closed hnumber h)
      rw [Nat.sub_sub, ← List.count_append] at hlater
      exact hlater

theorem Accounted.min_ended {shutdown : Option IoFailure} {ended waiting : Nat}
    (h : Accounted shutdown ended waiting c log) : min ended 1 = c.taken.toNat := by
  cases taken : c.taken with
  | false =>
      have hnone : ¬ 0 < ended := by rw [← h.taken, taken]; exact Bool.false_ne_true
      rw [Nat.eq_zero_of_not_pos hnone]
      rfl
  | true => exact Nat.min_eq_right (h.taken.mp taken)

theorem Accounted.mem {shutdown : Option IoFailure} {ended waiting n : Nat}
    (h : Accounted shutdown ended waiting c log) (hn : n < ended) :
    .closed n (closingResult shutdown n) ∈ log := by
  have hmem : (n, closingResult shutdown n) ∈ log.filterMap Notice.closing? := by
    rw [h.results]
    exact List.mem_map_of_mem (List.mem_range.mpr hn)
  obtain ⟨notice, hnotice, heq⟩ := List.mem_filterMap.mp hmem
  cases notice with
  | closed number result =>
      cases heq
      exact hnotice
  | _ => cases heq

theorem Accounted.le_ended {shutdown : Option IoFailure} {ended waiting number : Nat}
    (h : Accounted shutdown ended waiting c log) (hnumber : number ≤ c.closes)
    (behind : Behind number 0 c.line) : number ≤ ended := by
  cases waiting with
  | zero => exact Nat.le_trans hnumber (Nat.le_of_eq h.begun)
  | succ waiting =>
      have hmem : ended ∈ c.line.filterMap Waiter.closing? := by
        rw [h.inLine]
        exact List.mem_cons_self
      obtain ⟨w, hw, heq⟩ := List.mem_filterMap.mp hmem
      cases w with
      | operation p => cases heq
      | closing n =>
          cases heq
          exact behind _ hw

theorem ended_after {capacity : Nat} {shutdown : Option IoFailure} {xs : List Happening}
    (course : (opened capacity shutdown).after xs = (c, log)) (later : List Happening)
    (turns : c.line.length ≤ later.count (.turn 0)) :
    ∀ n < c.closes, .closed n (closingResult shutdown n) ∈ log ++ (c.after later).2 := by
  intro n hn
  obtain ⟨ended, waiting, h⟩ := accounted_after capacity shutdown (xs ++ later)
  rw [after_append, course] at h
  have closed : c.isClosed = true := decide_eq_true (Nat.zero_lt_of_lt hn)
  have behind : Behind c.closes c.line.length c.line := by
    intro m hm
    rw [List.drop_length] at hm
    cases hm
  have hlater := behind_after closed (Nat.le_refl _) behind later
  rw [Nat.sub_eq_zero_of_le turns] at hlater
  have hcloses : c.closes ≤ (c.after later).1.closes := by
    rw [closes_after]
    exact Nat.le_add_right _ _
  exact h.mem (Nat.lt_of_lt_of_le hn (h.le_ended hcloses hlater))

theorem refusing_after (closed : c.isClosed = true) (xs : List Happening) :
    Refusing (c.after xs).2 := by
  refine (after_keeps (fun d log => d.isClosed = true ∧ Refusing log) ?_ c ⟨closed, ?_⟩ xs).2
  · rintro d x e log notices ⟨hclosed, h⟩ change
    exact ⟨isClosed_of_change hclosed change, h.append (refusing_of_change hclosed change)⟩
  · exact ⟨fun s o h => absurd h List.not_mem_nil, fun s bytes => List.not_mem_nil⟩

theorem peerRead_of_shut {room : Nat} (here : c.peerGone = false)
    (shut : c.link.outgoing.closed = true) (hroom : room ≠ 0) :
    c.act (.peerRead room) = (.bytes (c.link.outgoing.content.take room),
      { c with link := { c.link with outgoing := c.link.outgoing.drop room } },
      [.collected (c.link.outgoing.content.take room)]) := by
  by_cases hempty : c.link.outgoing.content = []
  · have htried : (Operation.read room).attempt c.link.flip = ⟨.inl (.got []), c.link.flip, []⟩ := by
      simp [Operation.attempt, hroom, Link.flip, hempty, shut]
    have hdrop : c.link.outgoing.drop room = c.link.outgoing := by
      rw [Pipe.drop, hempty, List.drop_nil, ← hempty]
    simp [act, unlessGone, here, peerRead, htried, hempty, hdrop, Link.flip_flip]
  · have htried : (Operation.read room).attempt c.link.flip =
        ⟨.inl (.got (c.link.outgoing.content.take room)),
          { c.link.flip with incoming := c.link.outgoing.drop room }, []⟩ := by
      simp [Operation.attempt, hroom, Link.flip, hempty]
    simp only [act, unlessGone, here, peerRead, htried, Bool.false_eq_true, if_false]
    rfl

theorem drained {room n : Nat} (here : c.peerGone = false) (shut : c.link.outgoing.closed = true)
    (hroom : room ≠ 0) (hn : c.link.outgoing.content.length ≤ n * room) :
    let reads := c.after (List.replicate n (.step (.peerRead room)))
    reads.2.flatMap Notice.collectedBytes = c.link.outgoing.content ∧
      (reads.1.act (.peerRead room)).1 = .bytes [] := by
  intro reads
  have hread := peerRead_of_shut here shut hroom
  induction n generalizing c with
  | zero =>
      have hempty : c.link.outgoing.content = [] := by
        apply List.eq_nil_of_length_eq_zero
        omega
      refine ⟨hempty.symm, ?_⟩
      change (c.act (.peerRead room)).1 = _
      rw [hread, hempty, List.take_nil]
  | succ n ih =>
      have hlength : (c.link.outgoing.content.drop room).length ≤ n * room := by
        rw [List.length_drop]
        rw [Nat.succ_mul] at hn
        omega
      have hstep : c.happen (.step (.peerRead room)) =
          ({ c with link := { c.link with outgoing := c.link.outgoing.drop room } },
            [.collected (c.link.outgoing.content.take room)]) := congrArg Prod.snd hread
      obtain ⟨hrest, hend⟩ := ih (c := (c.happen (.step (.peerRead room))).1)
        (by rw [hstep]; exact here) (by rw [hstep]; exact shut) (by rw [hstep]; exact hlength)
        (peerRead_of_shut (by rw [hstep]; exact here) (by rw [hstep]; exact shut) hroom)
      refine ⟨?_, hend⟩
      change ((c.happen (.step (.peerRead room))).2 ++ _).flatMap _ = _
      rw [List.flatMap_append]
      refine (congrArg (_ ++ ·) hrest).trans ?_
      rw [hstep]
      change c.link.outgoing.content.take room ++ [] ++ c.link.outgoing.content.drop room = _
      rw [List.append_nil, List.take_append_drop]

/-- Of all closings that were begun, some have ended, in the order in which they were begun, and all
have once nobody can go on, or the first in line got turns enough. The pipe was shut down once if a
closing has ended, and else never. What that gave is the result of the first closing, and no other
fails. From then on the pipe is gone: nothing more is sent, and the other end reads what was sent
and then the end of it. -/
theorem closes_once {capacity : Nat} {shutdown : Option IoFailure} {xs : List Happening}
    (course : (opened capacity shutdown).after xs = (c, log)) :
    ∃ ended, ended ≤ c.closes ∧ c.closes = xs.count (.step .close) ∧
      (opened capacity shutdown).shutdowns xs = min ended 1 ∧
      log.filterMap Notice.closing? =
        (List.range ended).map (fun n => (n, closingResult shutdown n)) ∧
      (c.Quiet → ended = c.closes) ∧
      (∀ later, c.line.length ≤ later.count (.turn 0) →
        ∀ n < c.closes, .closed n (closingResult shutdown n) ∈ log ++ (c.after later).2) ∧
      (0 < ended →
        c.taken = true ∧ c.link.outgoing.closed = true ∧ c.link.incoming.closed = true ∧
        (∀ later s bytes, .pushed s bytes ∉ (c.after later).2) ∧
        (c.peerGone = false → ∀ room ≠ 0, ∀ n, c.link.outgoing.content.length ≤ n * room →
          let reads := c.after (List.replicate n (.step (.peerRead room)))
          (log ++ reads.2).flatMap Notice.collectedBytes = log.flatMap Notice.pushedBytes ∧
            (reads.1.act (.peerRead room)).1 = .bytes [])) := by
  obtain ⟨ended, waiting, h⟩ := accounted_after capacity shutdown xs
  have hshutdowns := taken_add_shutdowns (opened capacity shutdown) xs
  have hcloses := closes_after (opened capacity shutdown) xs
  have balance := balanced_after outgoing_of_change (opened capacity shutdown) xs
  rw [course] at h hshutdowns hcloses balance
  refine ⟨ended, ?_, ?_, ?_, h.results, ?_, ended_after course, fun some => ?_⟩
  · rw [h.begun]
    exact Nat.le_add_right _ _
  · exact hcloses.trans (Nat.zero_add _)
  · rw [h.min_ended]
    exact (Nat.zero_add _).symm.trans hshutdowns
  · intro quiet
    cases closed : c.isClosed with
    | false =>
        have hnone : c.closes = 0 := Nat.eq_zero_of_not_pos (of_decide_eq_false closed)
        rw [h.begun] at hnone ⊢
        omega
    | true =>
        have hline := h.inLine
        rw [nobody_of_quiet closed quiet] at hline
        have hnone : waiting = 0 := by simpa using congrArg List.length hline.symm
        rw [h.begun, hnone, Nat.add_zero]
  · have taken := h.taken.mpr some
    obtain ⟨hout, hin⟩ := h.dropped taken
    have closed : c.isClosed = true := by
      apply decide_eq_true
      rw [h.begun]
      exact Nat.add_pos_left some _
    refine ⟨taken, hout, hin, fun later => (refusing_after closed later).sends, ?_⟩
    intro here room hroom n hn reads
    obtain ⟨hcollected, hend⟩ := drained here hout hroom hn
    refine ⟨?_, hend⟩
    rw [List.flatMap_append, hcollected]
    exact balance

theorem closes_once_of_two :
    let failure : IoFailure := ⟨.connectionReset, "gone"⟩
    let xs : List Happening := [.step .openStream, .step (.write 0 [1, 2, 3]), .turn 0, .step .close,
      .step .close, .turn 0, .turn 0, .turn 0]
    let reached := (opened 2 (some failure)).after xs
    (opened 2 (some failure)).shutdowns xs = 1 ∧
      reached.2.filterMap Notice.closing? = [(0, .error (.io failure)), (1, .ok ())] ∧
      (reached.1.act (.peerRead 4)).1 = .bytes [1, 2] := by
  intro failure xs reached
  have course : reached = (reached.1, reached.2) := by
    clear_value reached
    rfl
  have nobody : reached.1.line = [] := by decide +kernel
  have begun : reached.1.closes = 2 := by decide +kernel
  have read : (reached.1.act (.peerRead 4)).1 = .bytes [1, 2] := by decide +kernel
  obtain ⟨ended, -, -, hshutdowns, hresults, hquiet, -⟩ := closes_once course
  have hended : ended = 2 := (hquiet (quiet_of_nobody nobody)).trans begun
  rw [hended] at hshutdowns hresults
  exact ⟨hshutdowns, hresults, read⟩

end Connection

end DnsOverStreams
