import DnsOverStreams.Proofs.Connection.Scripted
import DnsOverStreams.Proofs.Exchange.Framing
/-!
Scripted peers that answer: they take one query after the other, and after each of them they put in one
frame, in any pieces and with any pauses. Whenever the peer is looked at, it has put in the beginning of so
many frames as it has taken out.
-/

namespace DnsOverStreams

namespace PeerStep

def answers : PeerStep → Bool
  | takeQuery => false
  | leave => false
  | _ => true

def puts (query : Bytes) : PeerStep → Bytes
  | reply frame _ _ => frame.bytes query
  | send bytes => bytes
  | _ => []

end PeerStep

namespace Move

def answers : Move → Bool
  | put _ => true
  | pause _ => true
  | sleepUntil _ => true
  | _ => false

def bytes : Move → Bytes
  | put bytes => bytes
  | _ => []

variable {m : Move} {now : Time} {l l' : Link} {i j : Intake} {moved : Moved}

theorem read_cases {length : Nat} {whole : Intake → Intake} {self : Move}
    (h : read l i length whole self = (l', j, moved)) :
    ∃ front, (moved = .completed ∧ j = whole { i with part := i.part ++ front } ∧
        (i.part ++ front).length = length) ∨
      (moved = .over ∨ moved = .waiting self) ∧ j = { i with part := i.part ++ front } := by
  unfold read at h
  dsimp only at h
  refine ⟨l.incoming.content.take (length - i.part.length), ?_⟩
  split at h
  · rename_i hwhole
    cases h
    exact .inl ⟨rfl, rfl, hwhole⟩
  · split at h
    · cases h
      exact .inr ⟨.inl rfl, rfl⟩
    · cases h
      exact .inr ⟨.inr rfl, rfl⟩

theorem answers_attempt (hm : m.answers = true) (h : m.attempt now l i = (l', j, moved)) :
    j = i ∧ m.puts l <+: m.bytes ∧ (moved = .completed → m.puts l = m.bytes) ∧
      ∀ m', moved = .waiting m' → m'.answers = true ∧ m.puts l ++ m'.bytes = m.bytes := by
  cases m with
  | takeHeader => cases hm
  | takeBody => cases hm
  | leave => cases hm
  | pause ms =>
      simp only [attempt] at h
      split at h <;> cases h <;> simp [puts, bytes, answers]
  | sleepUntil time =>
      simp only [attempt] at h
      split at h <;> cases h <;> simp [puts, bytes, answers]
  | put bytes =>
      rcases tried : (Operation.write [] bytes).attempt l with ⟨r, link, pushed⟩
      simp only [attempt, tried] at h
      simp only [puts, Move.bytes, tried]
      cases Operation.tries_of_eq tried with
      | wrote => cases h; simp
      | breaks unsent closed => cases h; simp
      | sends unsent alive fits => cases h; simp
      | fills alive short =>
          cases h
          refine ⟨rfl, List.take_prefix _ _, fun hm => ?_, fun m' hm' => ?_⟩
          · cases hm
          · cases hm'
            exact ⟨rfl, List.take_append_drop _ _⟩

end Move

namespace PeerStep

theorem moves_answers {s : PeerStep} (h : s.answers = true) (query : Bytes) :
    (∀ m ∈ s.moves query, m.answers = true) ∧ (s.moves query).flatMap Move.bytes = s.puts query := by
  cases s with
  | takeQuery => cases h
  | leave => cases h
  | send bytes => simp [moves, puts, Move.answers, Move.bytes]
  | sleep ms => simp [moves, puts, Move.answers, Move.bytes]
  | reply frame chunk ms =>
      cases chunk with
      | none => simp [moves, puts, Move.answers, Move.bytes]
      | some size =>
          constructor
          · intro m hm
            obtain ⟨piece, -, hm⟩ := List.mem_flatMap.mp hm
            rcases List.mem_cons.mp hm with rfl | hm
            · rfl
            · rw [List.mem_singleton.mp hm]
              rfl
          · have hpieces (ps : List Bytes) :
                (ps.flatMap fun piece => [Move.put piece, .pause ms]).flatMap Move.bytes = ps.flatten := by
              induction ps with
              | nil => rfl
              | cons piece ps ih => simp [Move.bytes, ih]
            exact (hpieces _).trans (flatten_pieces size (frame.bytes query))

end PeerStep

namespace Peer

def AnswerWith (steps : List PeerStep) : Prop :=
  (∀ s ∈ steps, s.answers = true) ∧ ∀ query, ∃ body : Bytes,
    body.length ≤ Frame.maxBody ∧ steps.flatMap (·.puts query) = Frame.of body

inductive Answers : List PeerStep → Prop where
  | nil : Answers []
  | round {steps later : List PeerStep} (answer : AnswerWith steps) (rest : Answers later) :
      Answers (.takeQuery :: (steps ++ later))

structure Rounds (queries replies : List Bytes) : Prop where
  count : replies.length = queries.length
  queries : ∀ b ∈ queries, b.length ≤ Frame.maxBody
  replies : ∀ b ∈ replies, b.length ≤ Frame.maxBody

theorem Rounds.more {queries replies : List Bytes} {query reply : Bytes} (h : Rounds queries replies)
    (hquery : query.length ≤ Frame.maxBody) (hreply : reply.length ≤ Frame.maxBody) :
    Rounds (queries ++ [query]) (replies ++ [reply]) where
  count := by rw [List.length_append, List.length_append, h.count]; rfl
  queries := List.forall_mem_append.mpr ⟨h.queries, List.forall_mem_singleton.mpr hquery⟩
  replies := List.forall_mem_append.mpr ⟨h.replies, List.forall_mem_singleton.mpr hreply⟩

/-- How far a peer that answers has got: it puts in the rest of an answer, it takes the length of a query or
its body, or it takes what still comes when it has answered all. -/
inductive Midway (ss : List PeerStep) (ms : List Move) (i : Intake) (sent : Bytes) : Prop where
  | answer {queries replies : List Bytes} {front later : List PeerStep} (rounds : Rounds queries replies)
      (script : ss = front ++ later) (steps : ∀ s ∈ front, s.answers = true) (rest : Answers later)
      (moves : ∀ m ∈ ms, m.answers = true) (part : i.part = [])
      (received : i.received = queries.flatMap Frame.of)
      (puts : sent ++ (ms.flatMap Move.bytes ++ front.flatMap (·.puts i.query)) =
        replies.flatMap Frame.of)
  | header {queries replies : List Bytes} {steps later : List PeerStep} (rounds : Rounds queries replies)
      (script : ss = steps ++ later) (answer : AnswerWith steps) (rest : Answers later)
      (moves : ms = [.takeHeader, .takeBody]) (received : i.received = queries.flatMap Frame.of)
      (puts : sent = replies.flatMap Frame.of)
  | body {queries replies : List Bytes} {steps later : List PeerStep} {header : Bytes}
      (rounds : Rounds queries replies) (script : ss = steps ++ later) (answer : AnswerWith steps)
      (rest : Answers later) (moves : ms = [.takeBody]) (length : header.length = Frame.headerLength)
      (announced : i.announced = Frame.announced header)
      (received : i.received = queries.flatMap Frame.of ++ header)
      (puts : sent = replies.flatMap Frame.of)
  | ended (script : ss = []) (moves : ms = []) (part : i.part = [])
      (answered : Frame.Answered i.received sent)

variable {ss : List PeerStep} {ms : List Move} {i : Intake} {sent : Bytes}

theorem Midway.answered (h : Midway ss ms i sent) : Frame.Answered i.taken sent := by
  cases h with
  | @answer queries replies front later rounds script steps rest moves part received puts =>
      refine ⟨queries, replies, Nat.le_of_eq rounds.count, rounds.queries, rounds.replies, ?_, ⟨_, puts⟩⟩
      simp only [Intake.taken, part, List.append_nil, received, List.prefix_rfl]
  | @header queries replies steps later rounds script answer rest moves received puts =>
      refine ⟨queries, replies, Nat.le_of_eq rounds.count, rounds.queries, rounds.replies, ?_, ?_⟩
      · exact ⟨i.part, by rw [Intake.taken, received]⟩
      · exact puts ▸ List.prefix_rfl
  | @body queries replies steps later header rounds script answer rest moves length announced received
      puts =>
      refine ⟨queries, replies, Nat.le_of_eq rounds.count, rounds.queries, rounds.replies, ?_, ?_⟩
      · exact ⟨header ++ i.part, by rw [Intake.taken, received, List.append_assoc]⟩
      · exact puts ▸ List.prefix_rfl
  | ended script moves part answered => rwa [Intake.taken, part, List.append_nil]

theorem Midway.begins {s : PeerStep} (h : Midway (s :: ss) [] i sent) :
    Midway ss (s.moves i.query) i sent := by
  cases h with
  | @answer queries replies front later rounds script steps rest moves part received puts =>
      cases front with
      | cons f front =>
          cases script
          obtain ⟨hs, hfront⟩ := List.forall_mem_cons.mp steps
          obtain ⟨hmoves, hbytes⟩ := PeerStep.moves_answers hs i.query
          refine .answer rounds rfl hfront rest hmoves part received ?_
          rw [hbytes]
          simpa using puts
      | nil =>
          cases rest with
          | nil => cases script
          | round answer rest =>
              cases script
              exact .header rounds rfl answer rest rfl received (by simpa using puts)
  | header rounds script answer rest moves received puts => cases moves
  | body rounds script answer rest moves length announced received puts => cases moves
  | ended script moves part answered => cases script

variable {m m' : Move} {now : Time} {l l' : Link} {j : Intake}

theorem Midway.completes (h : Midway ss (m :: ms) i sent)
    (ha : m.attempt now l i = (l', j, .completed)) : Midway ss ms j (sent ++ m.puts l) := by
  cases h with
  | @answer queries replies front later rounds script steps rest moves part received puts =>
      obtain ⟨hm, hmoves⟩ := List.forall_mem_cons.mp moves
      obtain ⟨rfl, -, hput, -⟩ := Move.answers_attempt hm ha
      refine .answer rounds script steps rest hmoves part received ?_
      rw [hput rfl]
      simpa using puts
  | @header queries replies steps later rounds script answer rest moves received puts =>
      cases moves
      obtain ⟨front, ⟨-, rfl, hlength⟩ | ⟨h | h, -⟩⟩ := Move.read_cases ha
      · refine .body rounds script answer rest rfl hlength rfl ?_ ?_
        · simp [Intake.takeHeader, received]
        · simpa [Move.puts] using puts
      · cases h
      · cases h
  | @body queries replies steps later header rounds script answer rest moves length announced received
      puts =>
      cases moves
      obtain ⟨front, ⟨-, rfl, hlength⟩ | ⟨h | h, -⟩⟩ := Move.read_cases ha
      · -- with its body the query is taken, and the steps that come next answer it
        obtain ⟨hsteps, hanswer⟩ := answer
        obtain ⟨reply, hreply, hputs⟩ := hanswer (i.part ++ front)
        have hbody := hlength.trans announced
        have hframe := Frame.of_announced length hbody
        have hrounds := rounds.more (hbody ▸ Frame.announced_lt header) hreply
        refine .answer hrounds script hsteps rest (List.forall_mem_nil _) rfl ?_ ?_
        · simp [Intake.takeBody, received, List.append_assoc, hframe]
        · rw [List.flatMap_append, List.flatMap_singleton, ← hputs, puts]
          simp [Move.puts, Intake.takeBody]
      · cases h
      · cases h
  | ended script moves part answered => cases moves

theorem Midway.waits (h : Midway ss (m :: ms) i sent)
    (ha : m.attempt now l i = (l', j, .waiting m')) : Midway ss (m' :: ms) j (sent ++ m.puts l) := by
  cases h with
  | @answer queries replies front later rounds script steps rest moves part received puts =>
      obtain ⟨hm, hmoves⟩ := List.forall_mem_cons.mp moves
      obtain ⟨rfl, -, -, hleft⟩ := Move.answers_attempt hm ha
      obtain ⟨hm', hbytes⟩ := hleft m' rfl
      refine .answer rounds script steps rest (List.forall_mem_cons.mpr ⟨hm', hmoves⟩) part received ?_
      rw [List.flatMap_cons, ← hbytes] at puts
      simpa using puts
  | @header queries replies steps later rounds script answer rest moves received puts =>
      cases moves
      obtain ⟨front, ⟨h, -⟩ | ⟨h | h, rfl⟩⟩ := Move.read_cases ha
      · cases h
      · cases h
      · cases h
        exact .header rounds script answer rest rfl received (by simpa [Move.puts] using puts)
  | @body queries replies steps later header rounds script answer rest moves length announced received
      puts =>
      cases moves
      obtain ⟨front, ⟨h, -⟩ | ⟨h | h, rfl⟩⟩ := Move.read_cases ha
      · cases h
      · cases h
      · cases h
        exact .body rounds script answer rest rfl length announced received
          (by simpa [Move.puts] using puts)
  | ended script moves part answered => cases moves

theorem Midway.leaves (h : Midway ss (m :: ms) i sent)
    (ha : m.attempt now l i = (l', j, .over)) : Frame.Answered j.taken (sent ++ m.puts l) := by
  have hanswered := h.answered
  cases h with
  | @answer queries replies front later rounds script steps rest moves part received puts =>
      obtain ⟨hm, -⟩ := List.forall_mem_cons.mp moves
      obtain ⟨rfl, ⟨unsent, hbytes⟩, -⟩ := Move.answers_attempt hm ha
      refine ⟨queries, replies, Nat.le_of_eq rounds.count, rounds.queries, rounds.replies, ?_, ?_⟩
      · simp only [Intake.taken, part, List.append_nil, received, List.prefix_rfl]
      · rw [← puts, List.flatMap_cons, ← hbytes]
        simp only [List.append_assoc, List.prefix_append_right_inj, List.prefix_append]
  | header rounds script answer rest moves received puts =>
      cases moves
      obtain ⟨front, ⟨h, -⟩ | ⟨-, rfl⟩⟩ := Move.read_cases ha
      · cases h
      · simpa [Intake.taken, Move.puts] using hanswered.receives front
  | body rounds script answer rest moves length announced received puts =>
      cases moves
      obtain ⟨front, ⟨h, -⟩ | ⟨-, rfl⟩⟩ := Move.read_cases ha
      · cases h
      · simpa [Intake.taken, Move.puts] using hanswered.receives front
  | ended script moves part answered => cases moves

theorem Midway.drains (h : Midway [] [] i sent) (l : Link) :
    i.part = [] ∧ Midway [] [] (i.drain l).2 sent ∧ Frame.Answered (i.drain l).2.taken sent := by
  have hpart : i.part = [] := by
    cases h with
    | answer rounds script steps rest moves part received puts => exact part
    | header rounds script answer rest moves received puts => cases moves
    | body rounds script answer rest moves length announced received puts => cases moves
    | ended script moves part answered => exact part
  have hafter := h.answered.receives l.incoming.content
  rw [Intake.taken, hpart, List.append_nil] at hafter
  have hmidway : Midway [] [] (i.drain l).2 sent := .ended rfl rfl hpart hafter
  exact ⟨hpart, hmidway, hmidway.answered⟩

theorem Midway.wakes {time : Time} (h : Midway ss (.sleepUntil time :: ms) i sent) :
    Midway ss ms i sent := by
  cases h with
  | answer rounds script steps rest moves part received puts =>
      exact .answer rounds script steps rest (List.forall_mem_cons.mp moves).2 part received puts
  | header rounds script answer rest moves received puts => cases moves
  | body rounds script answer rest moves length announced received puts => cases moves
  | ended script moves part answered => cases moves

theorem keeps_midway : Keeps Midway fun i sent => Frame.Answered i.taken sent where
  begins h := h.begins
  completes h ha := h.completes ha
  waits h ha := h.waits ha
  leaves h ha := h.leaves ha
  drains h := h.drains _
  wakes h := h.wakes

end Peer

end DnsOverStreams
