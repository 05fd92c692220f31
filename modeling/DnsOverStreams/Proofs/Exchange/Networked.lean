import DnsOverStreams.Proofs.Connection.Answering
import DnsOverStreams.Proofs.Connection.Elapsing
import DnsOverStreams.Proofs.Exchange.Shared
/-!
A network of scripted peers answers the calls of a talk as a shared connection does: whatever a peer does
and however time passes, our end does to the latest connection what the calls ask for and nothing else.
-/

namespace DnsOverStreams

namespace Connection

variable {c : Connection} {x : Happening}

theorem deadlines_beside (hx : x.Beside) : (c.happen x).1.deadlines = c.deadlines := by
  cases x with
  | turn place =>
      obtain ⟨⟨link, line, taken, h⟩, -⟩ := c.turn_within place
      rw [happen, h]
  | step s =>
      cases s with
      | peerWrite bytes =>
          rw [happen, act_peerWrite]
          split <;> rfl
      | peerRead room => rcases c.act_peerRead room with ⟨h, -⟩ | h <;> rw [happen, h]
      | peerClose =>
          simp only [happen, act]
          split <;> rfl
      | advance ms => rfl
      | _ => exact hx.elim

theorem deadlines_after {xs : List Happening} (hxs : ∀ x ∈ xs, x.Beside) :
    (c.after xs).1.deadlines = c.deadlines := by
  induction xs generalizing c with
  | nil => rfl
  | cons x xs ih =>
      obtain ⟨hx, hxs⟩ := List.forall_mem_cons.mp hxs
      exact (ih hxs).trans (deadlines_beside hx)

end Connection

theorem Site.Passes.idle {st fin : Site} {o : Option Outcome} (h : st.Passes o fin)
    (hst : st.Resting) : o = none ∧ fin.Resting ∧ fin.stream = st.stream := by
  obtain ⟨xs, hxs, rfl, rfl⟩ := h
  have haside := Connection.aside_after hst.line hxs
  refine ⟨haside.outcome, ⟨haside.ours hst.ours, haside.line.trans hst.line⟩, ?_⟩
  exact congrArg (fun deadlines => deadlines.length - 1) (Connection.deadlines_after hxs)

namespace Contact

variable {K : List PeerStep → List Move → Intake → Bytes → Prop} {Left : Intake → Bytes → Prop}
variable {x : Contact} {st : Site}

theorem Seen.start {op : Operation} {step : ConnectionStep} (h : x.Seen K Left st)
    (hst : st.Resting) (hstep : (st.connection.act step).2 = st.connection.start x.stream op) :
    Contact.outcome? (st.connection.after [.step step]).2 = none ∧
      ∃ fin, (st.after [.step step]).Passes (x.start op).2 fin ∧ (x.start op).1.Seen K Left fin := by
  have halive : x.connection.isClosed = false := by
    have := hst.ours.alive
    rwa [h.connection] at this
  have hline : x.connection.line = [] := by
    have := hst.line
    rwa [h.connection] at this
  -- the operation gets in line, where it is the only one
  let begun : Connection :=
    { x.connection with line := [.operation ⟨x.stream, op, x.connection.deadline x.stream, false⟩] }
  have hseen : st.connection.start x.stream op =
      ({ begun with peerGone := x.peer.gone }, [.started x.stream op]) := by
    rw [h.connection]
    simpa [Connection.start, hline, begun, Connection.deadline, Connection.isClosed] using halive
  have hafter : st.connection.after [.step step] =
      ({ begun with peerGone := x.peer.gone }, [.started x.stream op]) := by
    simp [Connection.after, Connection.happen, hstep, hseen]
  have hbegun : Seen K Left ⟨begun, x.peer⟩ (st.after [.step step]) := by
    refine ⟨?_, ?_, ?_⟩
    · simp [Site.after, hafter]
    · simpa [Site.after, hafter, Notice.collectedBytes] using h.received
    · simpa [Site.after, hafter, Notice.arrivedBytes] using h.stands
  obtain ⟨fin, hpasses, hfin⟩ := hbegun.settle
  rw [hafter, Contact.start_of_nobody halive hline op]
  exact ⟨rfl, fin, hpasses, hfin⟩

theorem Seen.operate {α : Type} {op : Operation} {step : ConnectionStep} {result : Outcome → α}
    {now : Moment} (hK : Peer.Keeps K Left) (h : x.Seen K Left st) (hst : st.Resting)
    (hstep : ∀ d : Connection, d.line = [] → (d.act step).2 = d.start st.stream op)
    (hdelay : (x.operate now op result).delay ≠ .never) :
    ∃ xs ys : List Happening, (∀ x ∈ xs, x.Beside) ∧ (∀ x ∈ ys, x.Beside) ∧
      Seen K Left (x.operate now op result).state (st.after (xs ++ ([.step step] ++ ys))) ∧
      ∃ o, Contact.outcome? (st.connection.after (xs ++ ([.step step] ++ ys))).2 = some o ∧
        (x.operate now op result).answer = result o := by
  obtain ⟨_, mid, hbefore, hmid⟩ := h.atTime hK now.time
  obtain ⟨rfl, hresting, hsame⟩ := hbefore.idle hst
  have hstream : (x.atTime now.time).stream = st.stream := by
    rw [← hsame, Site.stream, hmid.connection, Contact.stream]
  obtain ⟨hquiet, next, hstarted, hnext⟩ := hmid.start hresting (hstream ▸ hstep _ hresting.line)
  obtain ⟨o, fin, hover, hfin, hanswer⟩ : ∃ o fin, (mid.after [.step step]).Passes (some o) fin ∧
      Seen K Left (x.operate now op result).state fin ∧
      (x.operate now op result).answer = result o := by
    unfold Contact.operate at hdelay ⊢
    rcases hy : (x.atTime now.time).start op with ⟨y, o | o⟩
    · rw [hy] at hstarted hnext hdelay
      obtain ⟨fin, hwait, hfin, -⟩ := hnext.wait hK none
      cases ho : (y.wait none).2 with
      | none => exact absurd (by simp [ho]) hdelay
      | some o =>
          rw [ho] at hwait
          exact ⟨o, fin, hstarted.trans hwait, hfin, by simp [ho]⟩
    · rw [hy] at hstarted hnext
      exact ⟨o, next, hstarted, hnext, rfl⟩
  obtain ⟨xs, ys, hxs, hys, rfl, houtcome⟩ := hbefore.around hquiet hover
  exact ⟨xs, ys, hxs, hys, hfin, o, houtcome, hanswer⟩

end Contact

namespace Network

variable {K : List PeerStep → List Move → Intake → Bytes → Prop} {Left : Intake → Bytes → Prop}
variable {x : Contact} {st : Site}

/-- The latest connection is seen so from both of its ends, and nobody uses it. -/
def On (K : List PeerStep → List Move → Intake → Bytes → Prop) (Left : Intake → Bytes → Prop)
    (contacts : Contacts) (st : Site) : Prop :=
  ∃ x former, contacts = x :: former ∧ x.Seen K Left st ∧ st.Resting

theorem serves_onLatest (net : Network) (hK : Peer.Keeps K Left) (now : Moment) (h : x.Seen K Left st)
    (hst : st.Resting) {r : Request} (hr : r.InTalk) (hdelay : (net.onLatest now x r).delay ≠ .never) :
    ∃ fin, Site.Serves net.protocol st r (net.onLatest now x r).answer fin ∧
      (net.onLatest now x r).state.Seen K Left fin := by
  have hstill : st.after [] = st := by simp [Site.after, Connection.after]
  have hidle : st.connection.isBusy st.stream = false := by simp [Connection.isBusy_eq, hst.line]
  have hstream : st.stream = x.stream := by rw [Site.stream, h.connection, Contact.stream]
  cases r with
  | dial => exact hr.elim
  | closeConnection occasion => exact hr.elim
  | openStream =>
      have hafter : st.after [.step .openStream] =
          { st with connection := st.connection.openStream } := by
        simp [Site.after, Connection.after, Connection.happen, Connection.act]
      refine ⟨_, ⟨[], [], List.forall_mem_nil _, List.forall_mem_nil _, rfl, rfl⟩, ?_⟩
      change Contact.Seen K Left x.openStream (st.after [.step .openStream])
      rw [hafter]
      exact ⟨congrArg Connection.openStream h.connection, h.received, h.stands⟩
  | setDeadline deadline =>
      have hafter : st.after [.step (.setDeadline st.stream deadline)] =
          { st with connection := st.connection.setDeadline st.stream deadline } := by
        simp [Site.after, Connection.after, Connection.happen, Connection.act, Connection.unlessBusy,
          hidle]
      refine ⟨_, ⟨[], [], List.forall_mem_nil _, List.forall_mem_nil _, rfl, rfl⟩, ?_⟩
      change Contact.Seen K Left (x.setDeadline deadline)
        (st.after [.step (.setDeadline st.stream deadline)])
      rw [hafter, hstream]
      exact ⟨congrArg (·.setDeadline x.stream deadline) h.connection, h.received, h.stands⟩
  | closeStream =>
      have hafter : st.after [.step (.closeStream st.stream)] = st := by
        simp [Site.after, Connection.after, Connection.happen, Connection.act, Connection.unlessBusy,
          hidle, Notice.collectedBytes, Notice.arrivedBytes]
      exact ⟨st, ⟨[], [], List.forall_mem_nil _, List.forall_mem_nil _, hafter.symm, rfl⟩, h⟩
  | write frame =>
      obtain ⟨xs, ys, hxs, hys, hseen, o, ho, hanswer⟩ := h.operate hK hst
        (fun d hd => Connection.act_write hd st.stream frame) hdelay
      exact ⟨_, ⟨xs, ys, hxs, hys, rfl, o, ho, hanswer⟩, hseen⟩
  | read room =>
      obtain ⟨xs, ys, hxs, hys, hseen, o, ho, hanswer⟩ := h.operate hK hst
        (fun d hd => Connection.act_read hd st.stream room) hdelay
      exact ⟨_, ⟨xs, ys, hxs, hys, rfl, o, ho, hanswer⟩, hseen⟩
  | prepare query => exact ⟨st, ⟨[], [], List.forall_mem_nil _, List.forall_mem_nil _, hstill.symm, rfl⟩, h⟩
  | showQuery raw => exact ⟨st, ⟨[], [], List.forall_mem_nil _, List.forall_mem_nil _, hstill.symm, trivial⟩, h⟩
  | showReply raw => exact ⟨st, ⟨[], [], List.forall_mem_nil _, List.forall_mem_nil _, hstill.symm, trivial⟩, h⟩

/-- A network of scripted peers is a shared connection, if its peers answer. -/
theorem shared (net : Network) (hK : Peer.Keeps K Left)
    (hanswers : ∀ {x : Contact} {st : Site}, x.Seen K Left st → Frame.Answered st.received st.sent) :
    Shared net.counterpart net.protocol (On K Left) where
  serves now contacts st r hon hr hdelay := by
    obtain ⟨x, former, rfl, hx, hst⟩ := hon
    have hcall : net.counterpart now (x :: former) r =
        (net.onLatest now x r).within (· :: former) := by
      cases r with
      | dial => exact hr.elim
      | _ => rfl
    rw [hcall] at hdelay ⊢
    obtain ⟨fin, hserves, hseen⟩ := net.serves_onLatest hK now hx hst hr hdelay
    exact ⟨fin, hserves, _, former, rfl, hseen, hserves.resting hst⟩
  answered := by
    rintro contacts st ⟨x, former, rfl, hx, -⟩
    exact hanswers hx

abbrev Answering : Contacts → Site → Prop :=
  On Peer.Midway fun i sent => Frame.Answered i.taken sent

theorem shared_answering (net : Network) : Shared net.counterpart net.protocol Answering := by
  refine net.shared Peer.keeps_midway fun h => ?_
  rw [h.received]
  rcases h.stands with ⟨-, kept⟩ | ⟨-, -, kept⟩
  · exact kept.answered
  · exact kept

theorem answering_opened {script : List PeerStep} (h : Peer.Answers script) (capacity : Nat)
    (shutdown : Option IoFailure) (time : Time) (former : Contacts) :
    Answering (Contact.opened capacity shutdown time script :: former)
      ⟨{ Connection.opened capacity shutdown with now := time }, [], []⟩ := by
  have hrounds : Peer.Rounds [] [] := ⟨rfl, nofun, nofun⟩
  have hmidway : Peer.Midway script [] .empty [] :=
    .answer hrounds (List.nil_append script).symm (List.forall_mem_nil _) h nofun rfl rfl rfl
  exact ⟨_, former, rfl, ⟨rfl, rfl, .present rfl hmidway⟩, ⟨⟨rfl, rfl⟩, rfl⟩⟩

end Network

end DnsOverStreams
