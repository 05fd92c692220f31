import DnsOverStreams.Proofs.Connection.Alone
/-!
A connection seen from both of its ends: it carries along what its peer has taken out and put in. What
others do to it besides its owner is a passage from one such state to another.
-/

namespace DnsOverStreams

/-- A connection, with all the bytes that its peer has taken out and put in so far. -/
structure Site where
  connection : Connection
  received : Bytes
  sent : Bytes
  deriving DecidableEq, Repr

namespace Site

variable {st mid fin : Site} {o o' : Option Outcome} {written read : Bytes}

def stream (st : Site) : Nat :=
  st.connection.deadlines.length - 1

def after (st : Site) (xs : List Happening) : Site :=
  let run := st.connection.after xs
  ⟨run.1, st.received ++ run.2.flatMap Notice.collectedBytes,
    st.sent ++ run.2.flatMap Notice.arrivedBytes⟩

structure Resting (st : Site) : Prop where
  ours : st.connection.Ours
  line : st.connection.line = []

/-- What was written has been received or is still there, and what was sent has been read or is. -/
structure Balanced (st : Site) (written read : Bytes) : Prop where
  outgoing : st.received ++ st.connection.link.outgoing.content = written
  incoming : read ++ st.connection.link.incoming.content = st.sent

theorem Balanced.after (h : st.Balanced written read) (xs : List Happening) :
    (st.after xs).Balanced (written ++ (st.connection.after xs).2.flatMap Notice.pushedBytes)
      (read ++ (st.connection.after xs).2.flatMap Notice.deliveredBytes) := by
  have hout := Connection.balanced_after Connection.outgoing_of_change st.connection xs
  have hin := Connection.balanced_after Connection.incoming_of_change st.connection xs
  constructor
  · change (st.received ++ _) ++ (st.connection.after xs).1.link.outgoing.content = _
    rw [List.append_assoc, hout, ← List.append_assoc, h.outgoing]
  · change (read ++ _) ++ (st.connection.after xs).1.link.incoming.content = st.sent ++ _
    rw [List.append_assoc, hin, ← List.append_assoc, h.incoming]

theorem after_append (st : Site) (xs ys : List Happening) :
    st.after (xs ++ ys) = (st.after xs).after ys := by
  simp only [after, Connection.after_append, List.flatMap_append, List.append_assoc]

/-- One state follows on another without its owner, and this is how an operation ends meanwhile. -/
def Passes (st : Site) (o : Option Outcome) (fin : Site) : Prop :=
  ∃ xs : List Happening, (∀ x ∈ xs, x.Beside) ∧ st.after xs = fin ∧
    Contact.outcome? (st.connection.after xs).2 = o

namespace Passes

theorem refl (st : Site) : st.Passes none st := by
  refine ⟨[], nofun, ?_, rfl⟩
  simp [after, Connection.after]

theorem trans (h : st.Passes o mid) (h' : mid.Passes o' fin) : st.Passes (o.or o') fin := by
  obtain ⟨xs, hxs, rfl, rfl⟩ := h
  obtain ⟨ys, hys, rfl, rfl⟩ := h'
  refine ⟨xs ++ ys, ?_, after_append st xs ys, ?_⟩
  · exact List.forall_mem_append.mpr ⟨hxs, hys⟩
  · rw [Connection.after_append, Notice.outcome?_append]
    rfl

theorem around {step : ConnectionStep} (before : st.Passes none mid)
    (quiet : Contact.outcome? (mid.connection.after [.step step]).2 = none)
    (later : (mid.after [.step step]).Passes o fin) :
    ∃ xs ys : List Happening, (∀ x ∈ xs, x.Beside) ∧ (∀ x ∈ ys, x.Beside) ∧
      st.after (xs ++ ([.step step] ++ ys)) = fin ∧
      Contact.outcome? (st.connection.after (xs ++ ([.step step] ++ ys))).2 = o := by
  obtain ⟨xs, hxs, rfl, hnone⟩ := before
  obtain ⟨ys, hys, rfl, houtcome⟩ := later
  refine ⟨xs, ys, hxs, hys, ?_, ?_⟩
  · rw [after_append, after_append]
  · rw [Connection.after_append, Notice.outcome?_append, hnone, Option.none_or,
      Connection.after_append, Notice.outcome?_append]
    exact (congrArg (Option.or · _) quiet).trans (Option.none_or.trans houtcome)

end Passes

end Site

end DnsOverStreams
