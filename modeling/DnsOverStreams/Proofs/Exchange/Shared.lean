import DnsOverStreams.Exchange.Network
import DnsOverStreams.Proofs.Connection.Site
import DnsOverStreams.Proofs.Exchange.Calls
import DnsOverStreams.Proofs.Exchange.Spoken
/-!
Exchanges on a connection that their caller owns. Between the calls and during them the other end of the
connection does what it likes, and time passes; the only one of our end who uses the connection is the
exchange under way, on a stream of its own.
-/

namespace DnsOverStreams

namespace Request

/-- What a call does to the connection, on the given stream. -/
def steps (stream : Nat) : Request → List ConnectionStep
  | openStream => [.openStream]
  | setDeadline deadline => [.setDeadline stream deadline]
  | write frame => [.write stream frame]
  | closeStream => [.closeStream stream]
  | read room => [.read stream room]
  | _ => []

def moves : Request → Bool
  | write _ => true
  | read _ => true
  | _ => false

theorem moves_of_cleansUp {r : Request} (h : r.cleansUp = true) : r.moves = false := by
  cases r <;> first | rfl | cases h

/-- How an answer follows from what was noticed during the call. -/
def Fits (p : Protocol) (notices : List Notice) : (r : Request) → r.Answer → Prop
  | openStream, a => a = .ok ()
  | setDeadline _, a => a = .ok ()
  | prepare query, a => a = query.prepare p
  | write _, a => ∃ o, Contact.outcome? notices = some o ∧ a = o.written
  | closeStream, a => a = .ok ()
  | read _, a => ∃ o, Contact.outcome? notices = some o ∧ a = o.read
  | _, _ => True

end Request

namespace Event

def Whole (e : Event Request Request.Answer) : Prop :=
  ∀ frame a, e = .answered (.write frame) a → frame ≠ [] ∧ a = .ok frame.length

def writtenBytes : Event Request Request.Answer → Bytes
  | ⟨.write frame, some (.ok n)⟩ => frame.take n
  | _ => []

def readBytes : Event Request Request.Answer → Bytes
  | ⟨.read room, some (.ok bytes)⟩ => bytes.take room
  | _ => []

end Event

namespace Site

/-- A call is answered, while other things happen before it is made and then until the answer. -/
structure Serves (p : Protocol) (st : Site) (r : Request) (a : r.Answer) (fin : Site) : Prop where
  served : ∃ xs ys : List Happening, (∀ x ∈ xs, x.Beside) ∧ (∀ x ∈ ys, x.Beside) ∧
    fin = st.after (xs ++ ((r.steps st.stream).map .step ++ ys)) ∧
    r.Fits p (st.connection.after (xs ++ ((r.steps st.stream).map .step ++ ys))).2 a

end Site

namespace Connection

variable {c : Connection} {s : Nat} {r : Request} {xs ys : List Happening}

theorem aside_steps (hr : r.moves = false) :
    Aside c (c.after ((r.steps s).map .step)).1 (c.after ((r.steps s).map .step)).2 := by
  have hone {step : ConnectionStep} (h : Aside c (c.act step).2.1 (c.act step).2.2) :
      Aside c (c.after [.step step]).1 (c.after [.step step]).2 := by
    simpa only [after, happen, List.append_nil] using h
  cases r with
  | openStream => exact hone aside_openStream
  | setDeadline deadline => exact hone (aside_setDeadline deadline)
  | closeStream => exact hone aside_closeStream
  | write frame => cases hr
  | read room => cases hr
  | _ => exact .refl c

theorem aside_around (h : c.line = []) (hxs : ∀ x ∈ xs, x.Beside) (hys : ∀ x ∈ ys, x.Beside)
    (hr : r.moves = false) :
    Aside c (c.after (xs ++ ((r.steps s).map .step ++ ys))).1
      (c.after (xs ++ ((r.steps s).map .step ++ ys))).2 := by
  have hfirst := aside_after h hxs
  have hown := aside_steps (c := (c.after xs).1) (s := s) hr
  have hlast := aside_after (hown.line.trans (hfirst.line.trans h)) hys
  rw [after_append, after_append]
  exact hfirst.trans (hown.trans hlast)

/-- What has come of an operation on a stream when it is over, with others beside it. -/
structure Ended (op : Operation) (o : Outcome) (c : Connection) (log : List Notice) : Prop where
  ours : c.Ours
  line : c.line = []
  delivered : log.flatMap Notice.deliveredBytes = o.delivered
  read : ∀ room, op = .read room → o.delivered.length ≤ room
  front : log.flatMap Notice.pushedBytes <+: op.buffer
  wrote : ∀ n, o = .wrote n → log.flatMap Notice.pushedBytes = op.buffer

theorem ended_around {op : Operation} {step : ConnectionStep} {o : Outcome} (hc : c.Ours)
    (h : c.line = []) (hxs : ∀ x ∈ xs, x.Beside) (hys : ∀ x ∈ ys, x.Beside) (hop : op.sent = [])
    (hstep : ∀ d : Connection, d.line = [] → (d.act step).2 = d.start s op)
    (ho : Contact.outcome? (c.after (xs ++ ([.step step] ++ ys))).2 = some o) :
    Ended op o (c.after (xs ++ ([.step step] ++ ys))).1 (c.after (xs ++ ([.step step] ++ ys))).2 := by
  have hfirst := aside_after h hxs
  have hstart := hstep (c.after xs).1 (hfirst.line.trans h)
  obtain ⟨hours, hoperating⟩ := operating_start (hfirst.ours hc) (hfirst.line.trans h) s hop
  obtain ⟨hours', hoperating'⟩ := hoperating.after hours hys
  have hrun : c.after (xs ++ ([.step step] ++ ys)) =
      ((((c.after xs).1.start s op).1.after ys).1, (c.after xs).2 ++
        (((c.after xs).1.start s op).2 ++ (((c.after xs).1.start s op).1.after ys).2)) := by
    simp only [after_append, List.singleton_append, after, happen, hstart]
  rw [hrun] at ho ⊢
  rw [Notice.outcome?_append, hfirst.outcome, Option.none_or] at ho
  have hpushed (log : List Notice) : ((c.after xs).2 ++ log).flatMap Notice.pushedBytes =
      log.flatMap Notice.pushedBytes := by
    rw [List.flatMap_append, hfirst.pushed, List.nil_append]
  cases hoperating' with
  | waits q line buffer read pushed delivered outcome =>
      rw [outcome] at ho
      cases ho
  | ended o' line outcome delivered read front wrote =>
      obtain rfl : o' = o := Option.some.inj (outcome.symm.trans ho)
      refine ⟨hours', line, ?_, read, ?_, fun n hn => (hpushed _).trans (wrote n hn)⟩
      · rw [List.flatMap_append, hfirst.delivered, List.nil_append, delivered]
      · rwa [hpushed]

theorem act_write (h : c.line = []) (s : Nat) (bytes : Bytes) :
    (c.act (.write s bytes)).2 = c.start s (.write [] bytes) := by
  simp [act, unlessBusy, isBusy_eq, h]

theorem act_read (h : c.line = []) (s room : Nat) :
    (c.act (.read s room)).2 = c.start s (.read room) := by
  simp [act, unlessBusy, isBusy_eq, h]

end Connection

namespace Site

variable {st fin : Site} {r : Request} {a : r.Answer} {p : Protocol} {written read : Bytes}

theorem Serves.ended_write {frame : Bytes} {a : Except IoFailure Nat} (h : st.Resting)
    (hs : Serves p st (.write frame) a fin) :
    ∃ o log, a = o.written ∧ Connection.Ended (.write [] frame) o fin.connection log ∧
      ∀ {written read}, st.Balanced written read →
        fin.Balanced (written ++ log.flatMap Notice.pushedBytes)
          (read ++ log.flatMap Notice.deliveredBytes) := by
  obtain ⟨xs, ys, hxs, hys, rfl, o, ho, hanswer⟩ := hs.served
  exact ⟨o, _, hanswer, Connection.ended_around h.ours h.line hxs hys rfl
    (fun d hd => Connection.act_write hd st.stream frame) ho, fun hb => hb.after _⟩

theorem Serves.ended_read {room : Nat} {a : Except IoFailure Bytes} (h : st.Resting)
    (hs : Serves p st (.read room) a fin) :
    ∃ o log, a = o.read ∧ Connection.Ended (.read room) o fin.connection log ∧
      ∀ {written read}, st.Balanced written read →
        fin.Balanced (written ++ log.flatMap Notice.pushedBytes)
          (read ++ log.flatMap Notice.deliveredBytes) := by
  obtain ⟨xs, ys, hxs, hys, rfl, o, ho, hanswer⟩ := hs.served
  exact ⟨o, _, hanswer, Connection.ended_around h.ours h.line hxs hys rfl
    (fun d hd => Connection.act_read hd st.stream room) ho, fun hb => hb.after _⟩

theorem Serves.of_write {frame : Bytes} (h : st.Resting) (hne : frame ≠ [])
    (hs : Serves p st (.write frame) (.ok frame.length) fin) (hb : st.Balanced written read) :
    fin.Balanced (written ++ frame) read := by
  obtain ⟨o, log, hanswer, hended, hbalanced⟩ := hs.ended_write h
  have hafter := hbalanced hb
  cases o with
  | wrote n =>
      have hdelivered : log.flatMap Notice.deliveredBytes = [] := hended.delivered
      rw [hended.wrote n rfl, hdelivered, List.append_nil] at hafter
      exact hafter
  | got bytes =>
      have hzero : frame.length = 0 := Except.ok.inj hanswer
      exact absurd (List.length_eq_zero_iff.mp hzero) hne
  | failed e => cases hanswer

theorem Serves.of_read {room : Nat} {a : Except IoFailure Bytes} (h : st.Resting)
    (hs : Serves p st (.read room) a fin) (hb : st.Balanced written read) :
    fin.Balanced written
      (read ++ (Event.answered (A := Request.Answer) (.read room) a).readBytes) := by
  obtain ⟨o, log, rfl, hended, hbalanced⟩ := hs.ended_read h
  have hafter := hbalanced hb
  have hbytes : (Event.answered (A := Request.Answer) (.read room) o.read).readBytes =
      o.delivered := by
    cases o with
    | got bytes => exact List.take_of_length_le (hended.read room rfl)
    | wrote n => exact List.take_nil
    | failed e => rfl
  rw [List.prefix_nil.mp hended.front, hended.delivered, List.append_nil] at hafter
  rwa [hbytes]

theorem Serves.of_other (h : st.Resting) (hr : r.moves = false) (hs : Serves p st r a fin)
    (hb : st.Balanced written read) : fin.Balanced written read := by
  obtain ⟨xs, ys, hxs, hys, rfl, -⟩ := hs.served
  have haside := Connection.aside_around (s := st.stream) h.line hxs hys hr
  have hafter := hb.after (xs ++ ((r.steps st.stream).map .step ++ ys))
  rwa [haside.pushed, haside.delivered, List.append_nil, List.append_nil] at hafter

theorem Serves.resting (h : st.Resting) (hs : Serves p st r a fin) : fin.Resting := by
  have hother (hr : r.moves = false) : fin.Resting := by
    obtain ⟨xs, ys, hxs, hys, rfl, -⟩ := hs.served
    have haside := Connection.aside_around (s := st.stream) h.line hxs hys hr
    exact ⟨haside.ours h.ours, haside.line.trans h.line⟩
  cases r with
  | write frame =>
      obtain ⟨o, log, -, hended, -⟩ := hs.ended_write h
      exact ⟨hended.ours, hended.line⟩
  | read room =>
      obtain ⟨o, log, -, hended, -⟩ := hs.ended_read h
      exact ⟨hended.ours, hended.line⟩
  | _ => exact hother rfl

theorem Serves.effect (h : st.Resting) (hs : Serves p st r a fin)
    (hwhole : (Event.answered (A := Request.Answer) r a).Whole) (hb : st.Balanced written read) :
    fin.Balanced (written ++ (Event.answered (A := Request.Answer) r a).writtenBytes)
      (read ++ (Event.answered (A := Request.Answer) r a).readBytes) := by
  cases r with
  | write frame =>
      obtain ⟨hne, rfl⟩ := hwhole frame a rfl
      have hall : (Event.answered (A := Request.Answer) (.write frame)
          (.ok frame.length)).writtenBytes = frame := List.take_length
      have hnone : (Event.answered (A := Request.Answer) (.write frame)
          (.ok frame.length)).readBytes = [] := rfl
      rw [hall, hnone, List.append_nil]
      exact hs.of_write h hne hb
  | read room =>
      have hnone : (Event.answered (A := Request.Answer) (.read room) a).writtenBytes = [] := rfl
      rw [hnone, List.append_nil]
      exact hs.of_read h hb
  | _ =>
      simpa only [Event.writtenBytes, Event.readBytes, Event.answered, List.append_nil] using
        hs.of_other h rfl hb

end Site

/-- The surroundings answer the calls of talks over a connection to a peer that answers. -/
structure Shared {σ : Type} (around : Counterpart σ) (p : Protocol) (On : σ → Site → Prop) : Prop where
  serves : ∀ now {w st} (r : Request), On w st → r.InTalk → (around now w r).delay ≠ .never →
    ∃ fin, Site.Serves p st r (around now w r).answer fin ∧ On (around now w r).state fin
  answered : ∀ {w st}, On w st → Frame.Answered st.received st.sent

namespace Shared

variable {σ : Type} {around : Counterpart σ} {p : Protocol} {On : σ → Site → Prop}

theorem steps (h : Shared around p On) {w v : σ} {st : Site} {calls : Calls}
    (hs : Task.Steps (Task.Answers around) w calls v) (hcalls : ∀ e ∈ calls, e.request.InTalk)
    (hw : On w st) : ∃ fin, Task.Steps (Site.Serves p) st calls fin ∧ On v fin := by
  induction hs generalizing st with
  | nil w => exact ⟨st, .nil st, hw⟩
  | @cons r a w mid v es now later ih =>
      obtain ⟨hr, hlater⟩ := List.forall_mem_cons.mp hcalls
      obtain ⟨m, hdelay, rfl, rfl⟩ := now
      obtain ⟨next, hserves, hon⟩ := h.serves m r hw hr hdelay
      obtain ⟨fin, hsteps, hfin⟩ := ih hlater hon
      exact ⟨fin, .cons hserves hsteps, hfin⟩

end Shared

end DnsOverStreams
