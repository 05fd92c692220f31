import DnsOverStreams.Proofs.Connection.Answering
import DnsOverStreams.Proofs.Connection.Elapsing
/-!
A scripted peer that takes one query and answers it, as long as nobody closes the connection. Nothing that
was written to it is lost, and what it owes is in the pipe or is still to be put in. It stops only when it
has read all there is, and after a whole query only for want of room or to wait for its clock.
-/

namespace DnsOverStreams

structure Pipe.Usable (p : Pipe) : Prop where
  alive : p.closed = false
  spacious : 0 < p.capacity

theorem Pipe.Usable.filled {p : Pipe} (h : p.Usable) {bytes : Bytes}
    (short : p.room < bytes.length) : (p.push (bytes.take p.room)).content ≠ [] := by
  intro hnil
  have hfull := p.room_push_take short
  rw [Pipe.room, hnil] at hfull
  exact absurd hfull (Nat.ne_of_gt h.spacious)

namespace Move

variable {l l' : Link} {i j : Intake} {moved : Moved}

theorem read_gathers {length : Nat} {whole : Intake → Intake} {self : Move}
    (usable : l.incoming.Usable) (short : i.part.length ≤ length)
    (h : read l i length whole self = (l', j, moved)) :
    ∃ part, part ++ l'.incoming.content = i.part ++ l.incoming.content ∧
      l'.outgoing = l.outgoing ∧ l'.incoming.Usable ∧
      ((moved = .completed ∧ j = whole { i with part := part } ∧ part.length = length) ∨
        (moved = .waiting self ∧ j = { i with part := part } ∧ part.length < length ∧
          l'.incoming.content = [])) := by
  unfold read Intake.gather at h
  dsimp only at h
  generalize hfront : l.incoming.content.take (length - i.part.length) = front at h
  have hsplit : front ++ l.incoming.content.drop front.length = l.incoming.content :=
    List.prefix_iff_eq_append.mp (hfront ▸ List.take_prefix _ _)
  have hkept : (i.part ++ front) ++ l.incoming.content.drop front.length =
      i.part ++ l.incoming.content := by
    rw [List.append_assoc, hsplit]
  have hlength : front.length = min (length - i.part.length) l.incoming.content.length := by
    rw [← hfront, List.length_take]
  split at h
  · rename_i hwhole
    cases h
    exact ⟨i.part ++ front, hkept, rfl, ⟨usable.alive, usable.spacious⟩, .inl ⟨rfl, rfl, hwhole⟩⟩
  · rename_i hpart
    rw [List.length_append] at hpart
    rw [if_neg (by simp [usable.alive])] at h
    cases h
    refine ⟨i.part ++ front, hkept, rfl, ⟨usable.alive, usable.spacious⟩, .inr ⟨rfl, rfl, ?_, ?_⟩⟩
    · rw [List.length_append]
      omega
    · exact List.drop_eq_nil_of_le (by omega)

end Move

namespace Peer

/-- How far a peer has got that takes one query and then goes through the given steps, and what it is
still to put in. -/
inductive Due (query : Bytes) (steps : List PeerStep) :
    List PeerStep → List Move → Intake → Bytes → Prop where
  | coming : Due query steps (.takeQuery :: steps) [] .empty (steps.flatMap (·.puts query))
  | header {i : Intake} (received : i.received = []) (short : i.part.length ≤ Frame.headerLength) :
      Due query steps steps [.takeHeader, .takeBody] i (steps.flatMap (·.puts query))
  | body {i : Intake} (received : i.received.length = Frame.headerLength)
      (announced : i.announced = Frame.announced i.received) (short : i.part.length ≤ i.announced) :
      Due query steps steps [.takeBody] i (steps.flatMap (·.puts query))
  | answer {ss : List PeerStep} {ms : List Move} {i : Intake} (script : ∀ s ∈ ss, s.answers = true)
      (moves : ∀ m ∈ ms, m.answers = true) (asked : i.query = query)
      (received : i.received = Frame.of query) (part : i.part = []) :
      Due query steps ss ms i (ms.flatMap Move.bytes ++ ss.flatMap (·.puts query))

/-- The peer and the pipes, as it sees them, when so much of a query's frame is not written and so much is
owed to our end. -/
structure Engaged (query : Bytes) (steps : List PeerStep) (unsent owed : Bytes) (ss : List PeerStep)
    (ms : List Move) (l : Link) (i : Intake) : Prop where
  incoming : l.incoming.Usable
  outgoing : l.outgoing.Usable
  asked : i.taken ++ (l.incoming.content ++ unsent) = Frame.of query
  owes : ∃ due, Due query steps ss ms i due ∧ l.outgoing.content ++ due = owed

/-- Why the peer does not go on: it has read all there is, and if the query was written and something is
owed, there is something in the pipe or it waits for its clock. -/
structure Stays (unsent owed : Bytes) (l : Link) (ms : List Move) : Prop where
  emptied : l.incoming.content = []
  held : unsent = [] → owed ≠ [] →
    l.outgoing.content ≠ [] ∨ ∃ time later, ms = .sleepUntil time :: later

namespace Engaged

variable {query unsent owed due : Bytes} {steps ss : List PeerStep} {ms : List Move} {m : Move}
variable {l l' : Link} {i j : Intake} {moved : Moved} {now : Time}

theorem whole (h : Engaged query steps unsent owed ss ms l i) (received : i.received = Frame.of query)
    (part : i.part = []) : l.incoming.content = [] ∧ unsent = [] := by
  have hasked := h.asked
  rw [Intake.taken, received, part, List.append_nil] at hasked
  exact List.append_eq_nil_iff.mp (List.append_right_eq_self.mp hasked)

theorem begins (hsteps : ∀ s ∈ steps, s.answers = true) {s : PeerStep}
    (h : Engaged query steps unsent owed (s :: ss) [] l i) :
    Engaged query steps unsent owed ss (s.moves i.query) l i := by
  obtain ⟨incoming, outgoing, asked, _, hdue, howed⟩ := h
  refine ⟨incoming, outgoing, asked, ?_⟩
  cases hdue with
  | coming => exact ⟨_, .header rfl (Nat.zero_le _), howed⟩
  | answer script moves hquery received part =>
      obtain ⟨hs, hscript⟩ := List.forall_mem_cons.mp script
      obtain ⟨hmoves, hbytes⟩ := PeerStep.moves_answers hs i.query
      refine ⟨_, .answer hscript hmoves hquery received part, ?_⟩
      rw [hbytes, hquery]
      simpa using howed

theorem wakes {time : Time} (h : Engaged query steps unsent owed ss (.sleepUntil time :: ms) l i) :
    Engaged query steps unsent owed ss ms l i := by
  obtain ⟨incoming, outgoing, asked, _, hdue, howed⟩ := h
  cases hdue with
  | answer script moves hquery received part =>
      exact ⟨incoming, outgoing, asked, _,
        .answer script (List.forall_mem_cons.mp moves).2 hquery received part, howed⟩

theorem takesHeader (h : Engaged query steps unsent owed ss (.takeHeader :: ms) l i)
    (ha : Move.takeHeader.attempt now l i = (l', j, moved)) :
    (moved = .completed ∧ Engaged query steps unsent owed ss ms l' j) ∨
      moved = .waiting .takeHeader ∧ Engaged query steps unsent owed ss (.takeHeader :: ms) l' j ∧
        Stays unsent owed l' (.takeHeader :: ms) := by
  obtain ⟨incoming, outgoing, asked, _, hdue, howed⟩ := h
  cases hdue with
  | answer script moves => exact absurd (moves _ List.mem_cons_self) Bool.false_ne_true
  | header received short =>
      rw [Intake.taken, received, List.nil_append] at asked
      obtain ⟨part, hkept, hsame, husable, ⟨rfl, rfl, hlength⟩ | ⟨rfl, rfl, hlength, hempty⟩⟩ :=
        Move.read_gathers incoming short ha
      all_goals rw [← List.append_assoc, ← hkept, List.append_assoc] at asked
      · refine .inl ⟨rfl, husable, hsame ▸ outgoing, ?_, _, .body ?_ ?_ (Nat.zero_le _), hsame ▸ howed⟩
        · simpa [Intake.taken, Intake.takeHeader, received] using asked
        · simpa [Intake.takeHeader, received] using hlength
        · simp [Intake.takeHeader, received]
      · refine .inr ⟨rfl, ⟨husable, hsame ▸ outgoing, ?_, _, .header received ?_, hsame ▸ howed⟩, hempty, ?_⟩
        · simpa [Intake.taken, received] using asked
        · exact Nat.le_of_lt hlength
        · -- a frame that was written has its header
          rintro rfl -
          rw [hempty, List.append_nil, List.append_nil] at asked
          rw [asked, Frame.length_of] at hlength
          exact absurd hlength (Nat.not_lt.mpr (Nat.le_add_right _ _))

theorem takesBody (hsteps : ∀ s ∈ steps, s.answers = true) (hquery : query.length ≤ Frame.maxBody)
    (h : Engaged query steps unsent owed ss (.takeBody :: ms) l i)
    (ha : Move.takeBody.attempt now l i = (l', j, moved)) :
    (moved = .completed ∧ Engaged query steps unsent owed ss ms l' j) ∨
      moved = .waiting .takeBody ∧ Engaged query steps unsent owed ss (.takeBody :: ms) l' j ∧
        Stays unsent owed l' (.takeBody :: ms) := by
  obtain ⟨incoming, outgoing, asked, _, hdue, howed⟩ := h
  cases hdue with
  | answer script moves => exact absurd (moves _ List.mem_cons_self) Bool.false_ne_true
  | body received announced short =>
      rw [Intake.taken] at asked
      obtain ⟨part, hkept, hsame, husable, ⟨rfl, rfl, hlength⟩ | ⟨rfl, rfl, hlength, hempty⟩⟩ :=
        Move.read_gathers incoming short ha
      all_goals rw [List.append_assoc, ← List.append_assoc i.part, ← hkept, List.append_assoc] at asked
      · have hframe := Frame.of_announced received (hlength.trans announced)
        have hpart : part.length ≤ Frame.maxBody := hlength ▸ announced ▸ Frame.announced_lt _
        obtain ⟨rfl, -⟩ : part = query ∧ _ = [] := by
          refine Frame.of_append_inj (x := l'.incoming.content ++ unsent) hpart hquery ?_
          rw [List.append_nil, ← asked, ← hframe, List.append_assoc]
        refine .inl ⟨rfl, husable, hsame ▸ outgoing, ?_, _, .answer hsteps (List.forall_mem_nil _) rfl
          hframe rfl, hsame ▸ howed⟩
        simpa [Intake.taken, Intake.takeBody] using asked
      · refine .inr ⟨rfl, ⟨husable, hsame ▸ outgoing, ?_, _, .body received announced ?_, hsame ▸ howed⟩,
          hempty, ?_⟩
        · simpa [Intake.taken] using asked
        · exact Nat.le_of_lt hlength
        · -- a frame that was written has as long a body as its header announces
          rintro rfl -
          rw [hempty, List.append_nil, List.append_nil] at asked
          obtain ⟨hheader, hbody⟩ := List.append_inj asked received
          rw [announced, hheader, hbody, Frame.announced_ofWord hquery] at hlength
          exact absurd hlength (Nat.lt_irrefl _)

theorem answers (script : ∀ s ∈ ss, s.answers = true) (moves : ∀ m' ∈ m :: ms, m'.answers = true)
    (hquery : i.query = query) (received : i.received = Frame.of query) (part : i.part = [])
    (howed : l.outgoing.content ++ ((m :: ms).flatMap Move.bytes ++ ss.flatMap (·.puts query)) = owed)
    (h : Engaged query steps unsent owed ss (m :: ms) l i)
    (ha : m.attempt now l i = (l', j, moved)) :
    (moved = .completed ∧ Engaged query steps unsent owed ss ms l' j) ∨
      ∃ m', moved = .waiting m' ∧ Engaged query steps unsent owed ss (m' :: ms) l' j ∧
        Stays unsent owed l' (m' :: ms) := by
  obtain ⟨hm, hmoves⟩ := List.forall_mem_cons.mp moves
  obtain ⟨hempty, rfl⟩ := h.whole received part
  have asleep (time : Time) (howed : l.outgoing.content ++
        (ms.flatMap Move.bytes ++ ss.flatMap (·.puts query)) = owed) :
      Engaged query steps [] owed ss (.sleepUntil time :: ms) l i ∧
        Stays [] owed l (.sleepUntil time :: ms) :=
    ⟨⟨h.incoming, h.outgoing, h.asked, _,
        .answer script (List.forall_mem_cons.mpr ⟨rfl, hmoves⟩) hquery received part, howed⟩,
      hempty, fun _ _ => .inr ⟨time, ms, rfl⟩⟩
  have awake (howed : l.outgoing.content ++
        (ms.flatMap Move.bytes ++ ss.flatMap (·.puts query)) = owed) :
      Engaged query steps [] owed ss ms l i :=
    ⟨h.incoming, h.outgoing, h.asked, _, .answer script hmoves hquery received part, howed⟩
  cases m with
  | takeHeader => cases hm
  | takeBody => cases hm
  | leave => cases hm
  | pause ms =>
      simp only [Move.attempt] at ha
      split at ha
      · cases ha
        exact .inl ⟨rfl, awake howed⟩
      · cases ha
        exact .inr ⟨_, rfl, asleep _ howed⟩
  | sleepUntil time =>
      simp only [Move.attempt] at ha
      split at ha
      · cases ha
        exact .inl ⟨rfl, awake howed⟩
      · cases ha
        exact .inr ⟨_, rfl, asleep _ howed⟩
  | put bytes =>
      rcases tried : (Operation.write [] bytes).attempt l with ⟨r, link, pushed⟩
      simp only [Move.attempt, tried] at ha
      rw [List.flatMap_cons, Move.bytes] at howed
      cases Operation.tries_of_eq tried with
      | wrote =>
          cases ha
          exact .inl ⟨rfl, awake howed⟩
      | breaks unsent closed => exact absurd (h.outgoing.alive.symm.trans closed) Bool.false_ne_true
      | sends unsent alive fits =>
          cases ha
          refine .inl ⟨rfl, h.incoming, ⟨h.outgoing.alive, h.outgoing.spacious⟩, h.asked, _,
            .answer script hmoves hquery received part, ?_⟩
          simpa using howed
      | fills alive short =>
          cases ha
          refine .inr ⟨_, rfl, ⟨h.incoming, ⟨h.outgoing.alive, h.outgoing.spacious⟩, h.asked, _,
            .answer script (List.forall_mem_cons.mpr ⟨rfl, hmoves⟩) hquery received part, ?_⟩,
            hempty, fun _ _ => .inl (h.outgoing.filled short)⟩
          rw [← howed, List.flatMap_cons, Move.bytes, Pipe.content_push, List.append_assoc,
            List.append_assoc, List.append_assoc, ← List.append_assoc (List.take _ _),
            List.take_append_drop]

theorem attempts (hsteps : ∀ s ∈ steps, s.answers = true) (hquery : query.length ≤ Frame.maxBody)
    (h : Engaged query steps unsent owed ss (m :: ms) l i)
    (ha : m.attempt now l i = (l', j, moved)) :
    (moved = .completed ∧ Engaged query steps unsent owed ss ms l' j) ∨
      ∃ m', moved = .waiting m' ∧ Engaged query steps unsent owed ss (m' :: ms) l' j ∧
        Stays unsent owed l' (m' :: ms) := by
  obtain ⟨_, hdue, howed⟩ := h.owes
  generalize hmoves : m :: ms = moves at hdue
  cases hdue with
  | coming => cases hmoves
  | header received short =>
      cases hmoves
      exact (h.takesHeader ha).imp id fun hwaits => ⟨_, hwaits⟩
  | body received announced short =>
      cases hmoves
      exact (h.takesBody hsteps hquery ha).imp id fun hwaits => ⟨_, hwaits⟩
  | answer script moves asked received part =>
      cases hmoves
      exact h.answers script moves asked received part howed ha

theorem finishes (h : Engaged query steps unsent owed [] [] l i) :
    ∃ j, finish l i = (l, ⟨[], [], j, .waiting, none⟩) ∧ Engaged query steps unsent owed [] [] l j ∧
      Stays unsent owed l [] := by
  obtain ⟨_, hdue, howed⟩ := h.owes
  generalize hmoves : ([] : List Move) = moves at hdue
  cases hdue with
  | header => cases hmoves
  | body => cases hmoves
  | answer script moves asked received part =>
      cases hmoves
      obtain ⟨hempty, rfl⟩ := h.whole received part
      have hdrain : i.drain l = (l, i) := by
        simp [Intake.drain, hempty]
      refine ⟨i, ?_, h, hempty, fun _ hne => .inl ?_⟩
      · unfold finish
        rw [hdrain]
        dsimp only
        rw [if_neg (by simp [h.incoming.alive])]
      · rwa [← howed, List.flatMap_nil, List.flatMap_nil, List.append_nil, List.append_nil] at hne

theorem proceeds (hsteps : ∀ s ∈ steps, s.answers = true) (hquery : query.length ≤ Frame.maxBody)
    (h : Engaged query steps unsent owed ss ms l i) (now : Time) (allowed : Nat) :
    let (l', p) := proceed now allowed ss ms l i
    Engaged query steps unsent owed p.script p.moves l' p.intake ∧ p.gone = false ∧
      (p.presence ≠ .busy → Stays unsent owed l' p.moves) := by
  fun_induction proceed now allowed ss ms l i with
  | case1 allowed l i =>
      obtain ⟨j, hfinish, hengaged, hstays⟩ := h.finishes
      rw [hfinish]
      exact ⟨hengaged, rfl, fun _ => hstays⟩
  | case2 allowed s ss l i ih => exact ih (h.begins hsteps)
  | case3 allowed ss m ms l i hcost l' j hattempt ih =>
      rcases h.attempts hsteps hquery hattempt with ⟨-, hnext⟩ | ⟨m', hwaits, -⟩
      · exact ih hnext
      · cases hwaits
  | case4 allowed ss m ms l i hcost l' j m' hattempt =>
      rcases h.attempts hsteps hquery hattempt with ⟨hdone, -⟩ | ⟨m'', hwaits, hnext, hstays⟩
      · cases hdone
      · cases hwaits
        exact ⟨hnext, rfl, fun _ => hstays⟩
  | case5 allowed ss m ms l i hcost l' j hattempt =>
      rcases h.attempts hsteps hquery hattempt with ⟨hdone, -⟩ | ⟨m', hwaits, -⟩
      · cases hdone
      · cases hwaits
  | case6 allowed ss m ms l i hcost => exact ⟨h, rfl, fun hbusy => absurd rfl hbusy⟩

end Engaged

end Peer

end DnsOverStreams
