import DnsOverStreams.Proofs.Connection.Site
/-!
A peer that goes by a script does nothing to a connection but what any peer can do. What every move of it
keeps, of its script and of what it has taken out and put in, is kept in all its turns.
-/

namespace DnsOverStreams

namespace Connection

theorem moved_proceed (now : Time) (l : Link) (p : Pending) :
    (p.proceed now l).notices.flatMap Notice.collectedBytes = [] ∧
      (p.proceed now l).notices.flatMap Notice.arrivedBytes = [] := by
  unfold Pending.proceed
  dsimp only
  split
  · simp [Notice.collectedBytes, Notice.arrivedBytes]
  · split <;> simp [Notice.collectedBytes, Notice.arrivedBytes]

theorem turn_within (c : Connection) (place : Nat) :
    (∃ link line taken, (c.turn place).1 = { c with link := link, line := line, taken := taken }) ∧
      (c.turn place).2.flatMap Notice.collectedBytes = [] ∧
      (c.turn place).2.flatMap Notice.arrivedBytes = [] := by
  unfold turn
  split
  · unfold operationTurn
    split
    · exact ⟨⟨_, _, _, rfl⟩, rfl, rfl⟩
    · split
      · exact ⟨⟨_, _, _, rfl⟩, rfl, rfl⟩
      · split
        · exact ⟨⟨_, _, _, rfl⟩, rfl, rfl⟩
        · exact ⟨⟨_, _, _, rfl⟩, moved_proceed _ _ _⟩
  · unfold closingTurn
    split
    · exact ⟨⟨_, _, _, rfl⟩, rfl, rfl⟩
    · split <;> exact ⟨⟨_, _, _, rfl⟩, rfl, rfl⟩
  · exact ⟨⟨_, _, _, rfl⟩, rfl, rfl⟩

end Connection

namespace Site

variable {st : Site}

theorem Passes.stays {o : Option Outcome} {l : Link} {received sent : Bytes}
    (here : st.connection.peerGone = false)
    (h : st.Passes o ⟨{ st.connection with link := l }, received, sent⟩) :
    st.Passes o ⟨{ st.connection with link := l, peerGone := false }, received, sent⟩ := by
  have hsame : ({ st.connection with link := l, peerGone := false } : Connection) =
      { st.connection with link := l } := by rw [← here]
  rwa [hsame]

theorem passes_happen (st : Site) {x : Happening} (hx : x.Beside) :
    st.Passes (Contact.outcome? (st.connection.happen x).2) ⟨(st.connection.happen x).1,
      st.received ++ (st.connection.happen x).2.flatMap Notice.collectedBytes,
      st.sent ++ (st.connection.happen x).2.flatMap Notice.arrivedBytes⟩ := by
  refine ⟨[x], List.forall_mem_singleton.mpr hx, ?_, ?_⟩
  · simp [after, Connection.after]
  · simp [Connection.after]

theorem passes_turn (st : Site) :
    st.Passes (Contact.outcome? (st.connection.turn 0).2)
      { st with connection := (st.connection.turn 0).1 } := by
  have hturn := st.passes_happen (x := .turn 0) trivial
  obtain ⟨-, hcollected, harrived⟩ := Connection.turn_within st.connection 0
  simpa only [Connection.happen, hcollected, harrived, List.append_nil] using hturn

section

variable (here : st.connection.peerGone = false)

include here

theorem passes_leave :
    st.Passes none { st with connection := st.connection.peerClose } := by
  have h := st.passes_happen (x := .step .peerClose) trivial
  simpa [Connection.happen, Connection.act, here, Contact.outcome?] using h

theorem passes_put (bytes : Bytes) :
    let a := (Operation.write [] bytes).attempt st.connection.link.flip
    st.Passes none ⟨{ st.connection with link := a.link.flip }, st.received, st.sent ++ a.pushed⟩ := by
  intro a
  have h := st.passes_happen (x := .step (.peerWrite bytes)) trivial
  have hact : (st.connection.act (.peerWrite bytes)).2 =
      ({ st.connection with link := a.link.flip }, [.arrived a.pushed]) := by
    rw [Connection.act_peerWrite]
    exact if_neg (Bool.eq_false_iff.mp here)
  rw [Connection.happen, hact] at h
  simpa [Contact.outcome?, Notice.collectedBytes, Notice.arrivedBytes] using h

theorem passes_collect (room : Nat) :
    st.Passes none
      ⟨{ st.connection with link :=
          { st.connection.link with outgoing := st.connection.link.outgoing.drop room } },
        st.received ++ st.connection.link.outgoing.content.take room, st.sent⟩ := by
  have h := st.passes_happen (x := .step (.peerRead room)) trivial
  rcases Connection.act_peerRead st.connection room with ⟨-, gone | empty⟩ | hact
  · rw [here] at gone
    cases gone
  · rw [Pipe.drop_of_empty empty, empty, List.take_nil, List.append_nil]
    exact .refl st
  · rw [Connection.happen, hact] at h
    simpa [Contact.outcome?, Notice.collectedBytes, Notice.arrivedBytes] using h

end

end Site

def Intake.taken (i : Intake) : Bytes :=
  i.received ++ i.part

def Move.puts (l : Link) : Move → Bytes
  | put bytes => ((Operation.write [] bytes).attempt l).pushed
  | _ => []

namespace Peer

def gone (p : Peer) : Bool :=
  match p.presence with
  | .left => true
  | .sawEnd => true
  | _ => false

/-- Every move of a peer keeps something of its script, of what it has taken out and of what it has put in,
or leads to what holds when it has left. -/
structure Keeps (K : List PeerStep → List Move → Intake → Bytes → Prop)
    (Left : Intake → Bytes → Prop) : Prop where
  begins : ∀ {s ss i sent}, K (s :: ss) [] i sent → K ss (s.moves i.query) i sent
  completes : ∀ {now l m ms ss i j l' sent}, K ss (m :: ms) i sent →
    m.attempt now l i = (l', j, .completed) → K ss ms j (sent ++ m.puts l)
  waits : ∀ {now l m m' ms ss i j l' sent}, K ss (m :: ms) i sent →
    m.attempt now l i = (l', j, .waiting m') → K ss (m' :: ms) j (sent ++ m.puts l)
  leaves : ∀ {now l m ms ss i j l' sent}, K ss (m :: ms) i sent →
    m.attempt now l i = (l', j, .over) → Left j (sent ++ m.puts l)
  drains : ∀ {l i sent}, K [] [] i sent →
    i.part = [] ∧ K [] [] (i.drain l).2 sent ∧ Left (i.drain l).2 sent
  wakes : ∀ {time ms ss i sent}, K ss (.sleepUntil time :: ms) i sent → K ss ms i sent

variable {K : List PeerStep → List Move → Intake → Bytes → Prop} {Left : Intake → Bytes → Prop}

inductive Stands (K : List PeerStep → List Move → Intake → Bytes → Prop) (Left : Intake → Bytes → Prop)
    (p : Peer) (sent : Bytes) : Prop where
  | present (here : p.gone = false) (kept : K p.script p.moves p.intake sent)
  | left (away : p.gone = true) (idle : p.moves = []) (kept : Left p.intake sent)

end Peer

namespace Site

variable {i : Intake} {K : List PeerStep → List Move → Intake → Bytes → Prop}
variable {Left : Intake → Bytes → Prop}

theorem passes_gather {st : Site} (here : st.connection.peerGone = false)
    (hreceived : st.received = i.taken) (length : Nat) :
    let g := i.gather length st.connection.link.flip
    st.Passes none ⟨{ st.connection with link := g.1.flip }, g.2.taken, st.sent⟩ := by
  intro g
  have hcollect := passes_collect here (length - i.part.length)
  have hdrop (pipe : Pipe) (n : Nat) : pipe.drop (pipe.content.take n).length = pipe.drop n := by
    unfold Pipe.drop
    congr 1
    rw [List.length_take]
    rcases Nat.le_total n pipe.content.length with h | h
    · rw [Nat.min_eq_left h]
    · rw [Nat.min_eq_right h, List.drop_length, List.drop_eq_nil_of_le h]
  have hlink : g.1.flip = { st.connection.link with
      outgoing := st.connection.link.outgoing.drop (length - i.part.length) } := by
    simp only [g, Intake.gather, Link.flip, hdrop]
  have htaken : g.2.taken =
      st.received ++ st.connection.link.outgoing.content.take (length - i.part.length) := by
    simp only [g, Intake.gather, Intake.taken, hreceived, Link.flip, List.append_assoc]
  rwa [hlink, htaken]

theorem passes_attempt {st : Site} (here : st.connection.peerGone = false)
    (hreceived : st.received = i.taken) (now : Time) (m : Move) :
    let a := m.attempt now st.connection.link.flip i
    st.Passes none ⟨{ st.connection with link := a.1.flip }, a.2.1.taken,
      st.sent ++ m.puts st.connection.link.flip⟩ := by
  intro a
  have hgather (length : Nat) (whole : Intake → Intake) (self : Move)
      (hwhole : ∀ j, (whole j).taken = j.taken) :
      let r := Move.read st.connection.link.flip i length whole self
      st.Passes none ⟨{ st.connection with link := r.1.flip }, r.2.1.taken, st.sent ++ []⟩ := by
    have h := passes_gather here hreceived length
    rw [List.append_nil]
    unfold Move.read
    dsimp only
    split
    · rwa [hwhole]
    · split <;> exact h
  have hstill : st.Passes none ⟨{ st.connection with link := st.connection.link.flip.flip },
      i.taken, st.sent ++ []⟩ := by
    rw [List.append_nil, ← hreceived]
    exact .refl st
  cases m with
  | takeHeader => exact hgather _ _ _ fun j => by simp [Intake.takeHeader, Intake.taken]
  | takeBody => exact hgather _ _ _ fun j => by simp [Intake.takeBody, Intake.taken]
  | put bytes =>
      have h := passes_put here bytes
      simp only [a, Move.attempt, Move.puts]
      rw [hreceived] at h
      split <;> exact h
  | pause ms => exact hstill
  | sleepUntil time => exact hstill
  | leave => exact hstill

theorem passes_drain {st : Site} (here : st.connection.peerGone = false)
    (hreceived : st.received = i.taken) (hpart : i.part = []) :
    let d := i.drain st.connection.link.flip
    st.Passes none ⟨{ st.connection with link := d.1.flip }, d.2.taken, st.sent⟩ := by
  intro d
  have hcollect := passes_collect here st.connection.link.outgoing.content.length
  have htaken : d.2.taken =
      st.received ++ st.connection.link.outgoing.content.take
        st.connection.link.outgoing.content.length := by
    simp [d, Intake.drain, Intake.taken, hreceived, hpart, Link.flip]
  rwa [htaken]

theorem passes_finish (hK : Peer.Keeps K Left) {st : Site} (here : st.connection.peerGone = false)
    (hreceived : st.received = i.taken) (h : K [] [] i st.sent) :
    let r := Peer.finish st.connection.link.flip i
    st.Passes none ⟨{ st.connection with link := r.1.flip, peerGone := r.2.gone },
      r.2.intake.taken, st.sent⟩ ∧ r.2.Stands K Left st.sent := by
  intro r
  obtain ⟨hpart, hkept, hleft⟩ := hK.drains (l := st.connection.link.flip) h
  have hdrain := passes_drain here hreceived hpart
  by_cases hclosed : st.connection.link.outgoing.closed = true
  · have hr : r = ((i.drain st.connection.link.flip).1.close,
        ⟨[], [], (i.drain st.connection.link.flip).2, .sawEnd, none⟩) := if_pos hclosed
    rw [hr]
    exact ⟨hdrain.trans (passes_leave here), .left rfl rfl hleft⟩
  · have hr : r = ((i.drain st.connection.link.flip).1,
        ⟨[], [], (i.drain st.connection.link.flip).2, .waiting, none⟩) := if_neg hclosed
    rw [hr]
    exact ⟨hdrain.stays here, .present rfl hkept⟩

theorem passes_proceed (hK : Peer.Keeps K Left) {ss : List PeerStep} {ms : List Move} {st : Site}
    (here : st.connection.peerGone = false) (hreceived : st.received = i.taken)
    (h : K ss ms i st.sent) (now : Time) (allowed : Nat) :
    let r := Peer.proceed now allowed ss ms st.connection.link.flip i
    ∃ sent, st.Passes none ⟨{ st.connection with link := r.1.flip, peerGone := r.2.gone },
        r.2.intake.taken, sent⟩ ∧ r.2.Stands K Left sent := by
  generalize hl : st.connection.link.flip = l
  fun_induction Peer.proceed now allowed ss ms l i generalizing st with
  | case1 allowed l i =>
      subst hl
      exact ⟨st.sent, passes_finish hK here hreceived h⟩
  | case2 allowed s ss l i ih => exact ih here hreceived (hK.begins h) hl
  | case3 allowed ss m ms l i hcost l' j hattempt ih =>
      subst hl
      have hmove := passes_attempt here hreceived now m
      rw [hattempt] at hmove
      let mid : Site := ⟨{ st.connection with link := l'.flip }, j.taken,
        st.sent ++ m.puts st.connection.link.flip⟩
      have hmid : mid.connection.peerGone = false := here
      obtain ⟨sent, hpasses, hkept⟩ := ih hmid rfl (hK.completes h hattempt) rfl
      exact ⟨sent, hmove.trans hpasses, hkept⟩
  | case4 allowed ss m ms l i hcost l' j rest hattempt =>
      subst hl
      have hmove := passes_attempt here hreceived now m
      rw [hattempt] at hmove
      exact ⟨_, hmove.stays here, .present rfl (hK.waits h hattempt)⟩
  | case5 allowed ss m ms l i hcost l' j hattempt =>
      subst hl
      have hmove := passes_attempt here hreceived now m
      rw [hattempt] at hmove
      exact ⟨_, hmove.trans (passes_leave here), .left rfl rfl (hK.leaves h hattempt)⟩
  | case6 allowed ss m ms l i hcost =>
      subst hl
      have hstill : st.Passes none ⟨{ st.connection with link := st.connection.link }, i.taken,
          st.sent⟩ := by
        rw [← hreceived]
        exact .refl st
      exact ⟨st.sent, hstill.stays here, .present rfl h⟩

end Site

end DnsOverStreams
