import DnsOverStreams.Proofs.Connection.Scripted
/-!
A connection to a peer that goes by a script, in the course of time. Whatever happens on it while its owner
waits for an operation, or until some later time, is a passage in which only others than its owner act.
-/

namespace DnsOverStreams

namespace Connection

theorem peerGone_turn (c : Connection) (gone : Bool) (place : Nat) :
    ({ c with peerGone := gone } : Connection).turn place =
      ({ (c.turn place).1 with peerGone := gone }, (c.turn place).2) := by
  unfold turn
  dsimp only
  split
  · by_cases hclosed : 0 < c.closes <;> by_cases hplace : place = 0 <;> cases htaken : c.taken <;>
      simp [operationTurn, isClosed, leave, hclosed, hplace, htaken]
  · by_cases hplace : place = 0 <;> cases htaken : c.taken <;>
      simp [closingTurn, leave, shutdownResult, hplace, htaken]
  · rfl

theorem peerGone_settle (c : Connection) (gone : Bool) :
    ({ c with peerGone := gone } : Connection).settle =
      ({ c.settle.1 with peerGone := gone }, c.settle.2) := by
  fun_induction settle c with
  | case1 c after shorter settled ih =>
      rw [settle]
      simp only [peerGone_turn]
      rw [dif_pos shorter, ih]
  | case2 c after stays =>
      rw [settle]
      simp only [peerGone_turn]
      rw [dif_neg stays]

theorem now_turn (c : Connection) (place : Nat) : (c.turn place).1.now = c.now := by
  obtain ⟨⟨link, line, taken, h⟩, -⟩ := c.turn_within place
  rw [h]

theorem now_settle (c : Connection) : c.settle.1.now = c.now := by
  fun_induction settle c with
  | case1 c after shorter settled ih => exact ih.trans (now_turn c 0)
  | case2 c after stays => exact now_turn c 0

end Connection

namespace Site

theorem passes_settle (st : Site) :
    st.Passes (Contact.outcome? st.connection.settle.2)
      { st with connection := st.connection.settle.1 } := by
  obtain ⟨c, received, sent⟩ := st
  dsimp only
  fun_induction Connection.settle c with
  | case1 c after shorter settled ih =>
      have hall := (passes_turn ⟨c, received, sent⟩).trans ih
      rwa [← Notice.outcome?_append] at hall
  | case2 c after stays => exact passes_turn ⟨c, received, sent⟩

theorem passes_advance (st : Site) (ms : Nat) :
    st.Passes none { st with connection := st.connection.advance ms } := by
  have h := st.passes_happen (x := .step (.advance ms)) trivial
  simpa [Connection.happen, Connection.act, Contact.outcome?] using h

end Site

namespace Peer

variable {p : Peer}

theorem act_of_gone (h : p.gone = true) (now : Time) (l : Link) : p.act now l = (l, p) := by
  cases hp : p.presence <;> simp_all [gone, act]

theorem act_of_here (h : p.gone = false) (now : Time) (l : Link) :
    ∃ alarm, p.act now l =
      ((proceed now p.allowance p.script p.moves l p.intake).1,
        { (proceed now p.allowance p.script p.moves l p.intake).2 with firstAlarm := alarm }) := by
  refine ⟨if p.presence = .coming then (proceed now p.allowance p.script p.moves l p.intake).2.alarm
    else p.firstAlarm, ?_⟩
  cases hp : p.presence <;> simp_all [gone, act]

theorem le_of_waits {now time : Time} {l l' : Link} {i j : Intake} {m : Move}
    (h : m.attempt now l i = (l', j, .waiting (.sleepUntil time))) : now ≤ time := by
  have hread (length : Nat) (whole : Intake → Intake) (self : Move)
      (hself : ∀ t, self ≠ .sleepUntil t) :
      Move.read l i length whole self ≠ (l', j, .waiting (.sleepUntil time)) := by
    unfold Move.read
    dsimp only
    split
    · simp
    · split
      · simp
      · simpa using fun _ _ => hself time
  cases m with
  | takeHeader => exact absurd h (hread _ _ _ nofun)
  | takeBody => exact absurd h (hread _ _ _ nofun)
  | put bytes => unfold Move.attempt at h; dsimp only at h; split at h <;> simp at h
  | pause ms =>
      simp only [Move.attempt] at h
      split at h
      · cases h
      · cases h
        exact Nat.le_add_right now ms
  | sleepUntil t =>
      simp only [Move.attempt] at h
      split at h
      · cases h
      · rename_i hlate
        cases h
        exact Nat.le_of_lt (Nat.lt_of_not_le hlate)
  | leave => simp [Move.attempt] at h

theorem le_alarm_proceed {now time : Time} {allowed : Nat} {ss : List PeerStep} {ms : List Move}
    {l : Link} {i : Intake} (hbusy : (proceed now allowed ss ms l i).2.presence ≠ .busy)
    (h : (proceed now allowed ss ms l i).2.alarm = some time) : now ≤ time := by
  fun_induction proceed now allowed ss ms l i with
  | case1 allowed l i =>
      have hmoves : (finish l i).2.moves = [] := by
        unfold finish
        split
        split <;> rfl
      rw [alarm, hmoves] at h
      cases h
  | case2 allowed s ss l i ih => exact ih hbusy h
  | case3 allowed ss m ms l i hcost l' j hattempt ih => exact ih hbusy h
  | case4 allowed ss m ms l i hcost l' j rest hattempt =>
      cases rest with
      | sleepUntil t => cases h; exact le_of_waits hattempt
      | _ => cases h
  | case5 => cases h
  | case6 => exact absurd rfl hbusy

theorem le_alarm_act {now time : Time} {l : Link} (idle : p.gone = true → p.moves = [])
    (hbusy : (p.act now l).2.presence ≠ .busy) (h : (p.act now l).2.alarm = some time) :
    now ≤ time := by
  cases hgone : p.gone with
  | true =>
      rw [act_of_gone hgone, alarm, idle hgone] at h
      cases h
  | false =>
      obtain ⟨alarm, hact⟩ := act_of_here hgone now l
      rw [hact] at hbusy h
      exact le_alarm_proceed hbusy h

theorem Stands.idle {K : List PeerStep → List Move → Intake → Bytes → Prop}
    {Left : Intake → Bytes → Prop} {sent : Bytes} (h : p.Stands K Left sent) (hgone : p.gone = true) :
    p.moves = [] := by
  rcases h with ⟨here, -⟩ | ⟨-, idle, -⟩
  · rw [here] at hgone
    cases hgone
  · exact idle

end Peer

namespace Contact

variable {K : List PeerStep → List Move → Intake → Bytes → Prop} {Left : Intake → Bytes → Prop}
variable {x : Contact} {st : Site}

/-- A connection to a scripted peer as it is seen from both of its ends. -/
structure Seen (K : List PeerStep → List Move → Intake → Bytes → Prop) (Left : Intake → Bytes → Prop)
    (x : Contact) (st : Site) : Prop where
  connection : st.connection = { x.connection with peerGone := x.peer.gone }
  received : st.received = x.peer.intake.taken
  stands : x.peer.Stands K Left st.sent

theorem start_of_nobody (alive : x.connection.isClosed = false) (nobody : x.connection.line = [])
    (op : Operation) :
    let begun := { x.connection with
      line := [.operation ⟨x.stream, op, x.connection.deadline x.stream, false⟩] }
    x.start op = (⟨begun.settle.1, x.peer⟩, outcome? begun.settle.2) := by
  intro begun
  have hown : x.connection.start x.stream op = (begun, [.started x.stream op]) := by
    simp [Connection.start, alive, nobody, begun]
  simp [Contact.start, Connection.settleAfter, hown, outcome?]

namespace Seen

theorem peerTurn (hK : Peer.Keeps K Left) (h : x.Seen K Left st) :
    ∃ fin, st.Passes none fin ∧ x.peerTurn.Seen K Left fin := by
  have hlink : x.connection.link = st.connection.link := by rw [h.connection]
  rcases h.stands with ⟨here, kept⟩ | ⟨away, idle, kept⟩
  · obtain ⟨alarm, hact⟩ := Peer.act_of_here here x.connection.now x.connection.link.flip
    have hhere : st.connection.peerGone = false := by rw [h.connection]; exact here
    obtain ⟨sent, hpasses, hstands⟩ :=
      Site.passes_proceed hK hhere h.received kept x.connection.now x.peer.allowance
    rw [← hlink] at hpasses hstands
    refine ⟨_, hpasses, ?_⟩
    unfold Contact.peerTurn
    rw [hact]
    refine ⟨?_, rfl, ?_⟩
    · dsimp only
      rw [h.connection]
      rfl
    · cases hstands with
      | present here kept => exact .present here kept
      | left away idle kept => exact .left away idle kept
  · refine ⟨st, .refl st, ?_⟩
    unfold Contact.peerTurn
    rw [Peer.act_of_gone away]
    exact h

theorem settle (h : x.Seen K Left st) :
    ∃ fin, st.Passes (outcome? x.connection.settle.2) fin ∧
      Seen K Left ⟨x.connection.settle.1, x.peer⟩ fin := by
  have hsettle : st.connection.settle =
      ({ x.connection.settle.1 with peerGone := x.peer.gone }, x.connection.settle.2) := by
    rw [h.connection, Connection.peerGone_settle]
  have hpasses := st.passes_settle
  rw [hsettle] at hpasses
  exact ⟨_, hpasses, rfl, h.received, h.stands⟩

theorem advance (h : x.Seen K Left st) (ms : Nat) :
    ∃ fin, st.Passes none fin ∧ Seen K Left ⟨x.connection.advance ms, x.peer⟩ fin := by
  have hpasses := st.passes_advance ms
  refine ⟨_, hpasses, ?_, h.received, h.stands⟩
  rw [h.connection]
  rfl

theorem wake (hK : Peer.Keeps K Left) (h : x.Seen K Left st) {time : Time}
    (halarm : x.peer.alarm = some time) (hle : x.connection.now ≤ time) :
    ∃ fin, st.Passes none fin ∧ (x.wake time).Seen K Left fin := by
  obtain ⟨rest, hmoves⟩ : ∃ rest, x.peer.moves = .sleepUntil time :: rest := by
    unfold Peer.alarm at halarm
    split at halarm
    · rename_i t rest heq
      cases halarm
      exact ⟨rest, heq⟩
    · cases halarm
  have hadvance : x.connection.advance (time - x.connection.now) = { x.connection with now := time } := by
    simp [Connection.advance, Nat.add_sub_cancel' hle]
  obtain ⟨fin, hpasses, hfin⟩ := h.advance (time - x.connection.now)
  rw [hadvance] at hfin
  refine ⟨fin, hpasses, ?_, hfin.received, ?_⟩
  · rcases h.stands with ⟨here, -⟩ | ⟨-, idle, -⟩
    · rw [hfin.connection, here]
      rfl
    · rw [idle] at hmoves
      cases hmoves
  · rcases hfin.stands with ⟨here, kept⟩ | ⟨-, idle, -⟩
    · refine .present rfl ?_
      rw [hmoves] at kept
      change K x.peer.script x.peer.moves.tail x.peer.intake fin.sent
      rw [hmoves]
      exact hK.wakes kept
    · rw [idle] at hmoves
      cases hmoves

theorem takeTurns (hK : Peer.Keeps K Left) (h : x.Seen K Left st) :
    ∃ fin, st.Passes x.takeTurns.2 fin ∧ x.takeTurns.1.Seen K Left fin ∧
      x.takeTurns.1.connection.now = x.connection.now ∧
      (x.takeTurns.2 = none → ∀ time, x.takeTurns.1.peer.alarm = some time →
        x.connection.now ≤ time) := by
  fun_induction Contact.takeTurns x generalizing st with
  | case1 x y settled o =>
      rename_i ho
      obtain ⟨mid, hturn, hmid⟩ := h.peerTurn hK
      obtain ⟨fin, hsettle, hfin⟩ := hmid.settle
      rw [ho] at hsettle
      exact ⟨fin, hturn.trans hsettle, hfin, Connection.now_settle _, fun hnone => by cases hnone⟩
  | case2 x y settled ho hmore =>
      rename_i ih
      obtain ⟨mid, hturn, hmid⟩ := h.peerTurn hK
      obtain ⟨next, hsettle, hnext⟩ := hmid.settle
      rw [ho] at hsettle
      obtain ⟨fin, hpasses, hfin, hnow, halarm⟩ := ih hnext
      have hsame : settled.1.now = x.connection.now := Connection.now_settle _
      rw [hsame] at hnow halarm
      exact ⟨fin, (hturn.trans hsettle).trans hpasses, hfin, hnow, halarm⟩
  | case3 x y settled ho =>
      rename_i hmore
      obtain ⟨mid, hturn, hmid⟩ := h.peerTurn hK
      obtain ⟨fin, hsettle, hfin⟩ := hmid.settle
      rw [ho] at hsettle
      refine ⟨fin, hturn.trans hsettle, hfin, Connection.now_settle _, fun _ time halarm => ?_⟩
      refine Peer.le_alarm_act h.stands.idle (fun hbusy => hmore (.inl ?_)) halarm
      exact beq_iff_eq.mpr hbusy

theorem stops (hK : Peer.Keeps K Left) (limit : Option Time) (h : x.Seen K Left st) {y : Contact}
    {o : Option Outcome} (hx : x.takeTurns = (y, o)) :
    ∃ fin, st.Passes o fin ∧ y.Seen K Left fin ∧
      ∀ time, limit = some time → x.connection.now ≤ time → y.connection.now ≤ time := by
  obtain ⟨fin, hpasses, hfin, hnow, -⟩ := h.takeTurns hK
  rw [hx] at hpasses hfin hnow
  exact ⟨fin, hpasses, hfin, fun time _ hle => hnow.symm ▸ hle⟩

theorem wait (hK : Peer.Keeps K Left) (limit : Option Time) (h : x.Seen K Left st) :
    ∃ fin, st.Passes (x.wait limit).2 fin ∧ (x.wait limit).1.Seen K Left fin ∧
      ∀ time, limit = some time → x.connection.now ≤ time →
        (x.wait limit).1.connection.now ≤ time := by
  fun_induction Contact.wait limit x generalizing st with
  | case1 x y o hx => exact h.stops hK limit hx
  | case2 x y hx hn => exact h.stops hK limit hx
  | case3 x y hx due hn hlimit => exact h.stops hK limit hx
  | case4 x y hx due hn hlimit =>
      obtain ⟨mid, hturns, hmid, hnow, -⟩ := h.takeTurns hK
      rw [hx] at hturns hmid hnow
      -- our deadline comes before the clock of the peer
      obtain ⟨late, hadvance, hlate⟩ := hmid.advance (due - y.connection.now)
      obtain ⟨fin, hsettle, hfin⟩ := hlate.settle
      refine ⟨fin, (hturns.trans hadvance).trans hsettle, hfin, fun time htime hle => ?_⟩
      subst htime
      have hlt : due < time := by simpa using hlimit
      have hend : (y.connection.advance (due - y.connection.now)).settle.1.now =
          x.connection.now + (due - x.connection.now) := by
        rw [Connection.now_settle, ← hnow]
        rfl
      refine Nat.le_trans (Nat.le_of_eq hend) ?_
      rcases Nat.le_total x.connection.now due with hearly | hlate
      · rw [Nat.add_sub_cancel' hearly]
        exact Nat.le_of_lt hlt
      · rwa [Nat.sub_eq_zero_of_le hlate]
  | case5 x y hx alarm hn hlimit => exact h.stops hK limit hx
  | case6 x y hx alarm hn hlimit ih =>
      obtain ⟨mid, hturns, hmid, hnow, halarm⟩ := h.takeTurns hK
      rw [hx] at hturns hmid hnow halarm
      -- the clock of the peer was set for no earlier time, so waking it takes time forward
      have hwakes := alarm_of_next? hn
      obtain ⟨awake, hwake, hawake⟩ := hmid.wake hK hwakes (hnow ▸ halarm rfl alarm hwakes)
      obtain ⟨fin, hpasses, hfin, hlast⟩ := ih hawake
      refine ⟨fin, (hturns.trans hwake).trans hpasses, hfin, fun time htime hle => ?_⟩
      subst htime
      have hlt : alarm < time := by simpa using hlimit
      exact hlast time rfl (Nat.le_of_lt hlt)

theorem atTime (hK : Peer.Keeps K Left) (h : x.Seen K Left st) (time : Time) :
    ∃ o fin, st.Passes o fin ∧ (x.atTime time).Seen K Left fin := by
  unfold Contact.atTime
  split
  · rename_i hlt
    obtain ⟨mid, hwait, hmid, hnow⟩ := h.wait hK (some time)
    obtain ⟨fin, hadvance, hfin⟩ := hmid.advance (time - (x.wait (some time)).1.connection.now)
    refine ⟨_, fin, hwait.trans hadvance, ?_⟩
    have hlast := hnow time rfl (Nat.le_of_lt hlt)
    have hend : (x.wait (some time)).1.connection.advance
        (time - (x.wait (some time)).1.connection.now) =
        { (x.wait (some time)).1.connection with now := time } := by
      simp [Connection.advance, Nat.add_sub_cancel' hlast]
    rw [hend] at hfin
    exact hfin
  · exact ⟨none, st, .refl st, h⟩

end Seen

end Contact

end DnsOverStreams
