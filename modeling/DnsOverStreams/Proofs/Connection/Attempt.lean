import DnsOverStreams.Connection.Basic
/-!
What one attempt at an operation does to the pipes. A write sends a front of what it still has to
send and keeps count of it; a read takes a front of what is there, and takes nothing unless it ends
with it.
-/

namespace DnsOverStreams

namespace Pipe

@[simp] theorem content_push (p : Pipe) (bytes : Bytes) :
    (p.push bytes).content = p.content ++ bytes := rfl

@[simp] theorem content_drop (p : Pipe) (n : Nat) : (p.drop n).content = p.content.drop n := rfl

@[simp] theorem content_close (p : Pipe) : p.close.content = p.content := rfl

@[simp] theorem closed_push (p : Pipe) (bytes : Bytes) : (p.push bytes).closed = p.closed := rfl

@[simp] theorem closed_drop (p : Pipe) (n : Nat) : (p.drop n).closed = p.closed := rfl

@[simp] theorem closed_close (p : Pipe) : p.close.closed = true := rfl

@[simp] theorem push_nil (p : Pipe) : p.push [] = p := by
  simp [push]

@[simp] theorem drop_zero (p : Pipe) : p.drop 0 = p := rfl

theorem drop_of_empty {p : Pipe} (h : p.content = []) (n : Nat) : p.drop n = p := by
  obtain ⟨capacity, content, closed⟩ := p
  simp_all [drop]

theorem room_push_take {p : Pipe} {bytes : Bytes} (h : p.room < bytes.length) :
    (p.push (bytes.take p.room)).room = 0 := by
  have hlen : (bytes.take p.room).length = p.room := List.length_take_of_le (Nat.le_of_lt h)
  change p.capacity - (p.content ++ bytes.take p.room).length = 0
  rw [List.length_append, hlen, room]
  omega

end Pipe

@[simp] theorem Link.content_outgoing_close (l : Link) :
    l.close.outgoing.content = l.outgoing.content := rfl

@[simp] theorem Link.content_incoming_close (l : Link) :
    l.close.incoming.content = l.incoming.content := rfl

def Outcome.delivered : Outcome → Bytes
  | .got bytes => bytes
  | _ => []

namespace Operation

def buffer : Operation → Bytes
  | .read _ => []
  | .write done rest => done ++ rest

def sent : Operation → Bytes
  | .read _ => []
  | .write done _ => done

theorem sent_prefix_buffer (op : Operation) : op.sent <+: op.buffer := by
  cases op with
  | read room => exact List.prefix_rfl
  | write done rest => exact List.prefix_append done rest

inductive Tries (l : Link) : Operation → Attempt → Prop where
  | nothing : Tries l (.read 0) ⟨.inl (.got []), l, []⟩
  | waits {room} (asked : room ≠ 0) (empty : l.incoming.content = [])
      (alive : l.incoming.closed = false) : Tries l (.read room) ⟨.inr (.read room), l, []⟩
  | ends {room} (asked : room ≠ 0) (empty : l.incoming.content = [])
      (closed : l.incoming.closed = true) : Tries l (.read room) ⟨.inl (.got []), l, []⟩
  | takes {room} (asked : room ≠ 0) (filled : l.incoming.content ≠ []) :
      Tries l (.read room) ⟨.inl (.got (l.incoming.content.take room)),
        { l with incoming := l.incoming.drop room }, []⟩
  | wrote {done} : Tries l (.write done []) ⟨.inl (.wrote done.length), l, []⟩
  | breaks {done rest} (unsent : rest ≠ []) (closed : l.outgoing.closed = true) :
      Tries l (.write done rest) ⟨.inl (.failed .brokenPipe), l, []⟩
  | sends {done rest} (unsent : rest ≠ []) (alive : l.outgoing.closed = false)
      (fits : rest.length ≤ l.outgoing.room) :
      Tries l (.write done rest) ⟨.inl (.wrote (done ++ rest).length),
        { l with outgoing := l.outgoing.push rest }, rest⟩
  | fills {done rest} (alive : l.outgoing.closed = false) (short : l.outgoing.room < rest.length) :
      Tries l (.write done rest)
        ⟨.inr (.write (done ++ rest.take l.outgoing.room) (rest.drop l.outgoing.room)),
          { l with outgoing := l.outgoing.push (rest.take l.outgoing.room) },
          rest.take l.outgoing.room⟩

theorem tries_attempt (l : Link) (op : Operation) : Tries l op (op.attempt l) := by
  cases op with
  | read room =>
      simp only [attempt]
      split
      next asked =>
        subst asked
        exact .nothing
      next asked =>
        split
        next empty =>
          split
          next closed => exact .ends asked empty closed
          next alive => exact .waits asked empty (by simpa using alive)
        next filled => exact .takes asked filled
  | write done rest =>
      simp only [attempt]
      split
      next sent =>
        subst sent
        exact .wrote
      next unsent =>
        split
        next closed => exact .breaks unsent closed
        next alive =>
          split
          next fits =>
            have fits := List.drop_eq_nil_iff.mp fits
            rw [List.take_of_length_le fits]
            exact .sends unsent (by simpa using alive) fits
          next short =>
            refine .fills (by simpa using alive) ?_
            simpa [List.drop_eq_nil_iff] using short

variable {l l' : Link} {op op' : Operation} {o : Outcome} {bytes : Bytes} {r : Outcome ⊕ Operation}

theorem tries_of_eq {a : Attempt} (h : op.attempt l = a) : Tries l op a :=
  h ▸ tries_attempt l op

theorem outgoing_of_attempt (h : op.attempt l = ⟨r, l', bytes⟩) :
    l'.outgoing.content = l.outgoing.content ++ bytes ∧ l'.outgoing.closed = l.outgoing.closed := by
  cases tries_of_eq h <;> simp

theorem closed_incoming_of_attempt (h : op.attempt l = ⟨r, l', bytes⟩) :
    l'.incoming.closed = l.incoming.closed := by
  cases tries_of_eq h <;> rfl

theorem incoming_of_ends (h : op.attempt l = ⟨.inl o, l', bytes⟩) :
    o.delivered ++ l'.incoming.content = l.incoming.content := by
  cases tries_of_eq h <;> simp [Outcome.delivered]

theorem incoming_of_waits (h : op.attempt l = ⟨.inr op', l', bytes⟩) :
    l'.incoming = l.incoming := by
  cases tries_of_eq h <;> rfl

theorem closed_of_got_nil {room : Nat} (hroom : room ≠ 0)
    (h : (read room).attempt l = ⟨.inl (.got []), l', bytes⟩) :
    l.incoming.content = [] ∧ l.incoming.closed = true := by
  generalize ho : Outcome.got [] = o at h
  cases tries_of_eq h with
  | nothing => exact absurd rfl hroom
  | ends _ empty closed => exact ⟨empty, closed⟩
  | takes _ filled => simp_all

theorem sent_of_ends (h : op.attempt l = ⟨.inl o, l', bytes⟩) :
    op.sent ++ bytes <+: op.buffer ∧
      ∀ n, o = .wrote n → op.sent ++ bytes = op.buffer ∧ n = op.buffer.length := by
  cases tries_of_eq h <;> simp_all [sent, buffer]

theorem sent_of_waits (h : op.attempt l = ⟨.inr op', l', bytes⟩) :
    op'.sent = op.sent ++ bytes ∧ op'.buffer = op.buffer := by
  cases tries_of_eq h <;> simp [sent, buffer]

theorem connected_of_ends (h : op.attempt l = ⟨.inl o, l', bytes⟩) :
    o ≠ .failed .notConnected := by
  cases tries_of_eq h <;> simp [IoFailure.brokenPipe, IoFailure.notConnected]

theorem attempt_of_waits (h : op.attempt l = ⟨.inr op', l', bytes⟩) :
    op'.attempt l' = ⟨.inr op', l', []⟩ := by
  cases tries_of_eq h with
  | waits asked empty alive => simp [attempt, asked, empty, alive]
  | @fills done rest alive short =>
      have hroom := Pipe.room_push_take short
      have hback : rest.drop l.outgoing.room ≠ [] := by simpa [List.drop_eq_nil_iff] using short
      simp [attempt, alive, hroom, hback]

theorem link_of_write {done rest : Bytes} (h : (write done rest).attempt l = ⟨r, l', bytes⟩) :
    l' = { l with outgoing := l.outgoing.push bytes } := by
  cases tries_of_eq h <;> simp

theorem read_of_ends {room : Nat} (h : (read room).attempt l.flip = ⟨.inl o, l', bytes⟩) :
    o = .got (l.outgoing.content.take room) ∧
      l'.flip = { l with outgoing := l.outgoing.drop room } := by
  cases tries_of_eq h with
  | nothing => simp [Link.flip]
  | ends asked empty closed => simp_all [Link.flip, Pipe.drop_of_empty]
  | takes asked filled => simp [Link.flip]

theorem read_of_waits {room : Nat} (h : (read room).attempt l = ⟨.inr op', l', bytes⟩) :
    l' = l := by
  cases tries_of_eq h
  rfl

end Operation

end DnsOverStreams
