import DnsOverStreams.Proofs.Connection.Change
/-!
What can be told of a shared connection from what was noticed: the bytes that streams pushed and
reads delivered, those that the other end put in and took out, and which operations were started,
got the connection and succeeded as writes. A pipe is balanced when what comes out of it, and then
what is still there, is what was there and then what was put in.
-/

namespace DnsOverStreams

namespace Notice

def pushedBytes : Notice → Bytes
  | pushed _ bytes => bytes
  | _ => []

def collectedBytes : Notice → Bytes
  | collected bytes => bytes
  | _ => []

def arrivedBytes : Notice → Bytes
  | arrived bytes => bytes
  | _ => []

def deliveredBytes : Notice → Bytes
  | ended _ o => o.delivered
  | _ => []

def asked? : Notice → Option (Nat × Operation)
  | started s op => some (s, op)
  | _ => none

def got? : Notice → Option (Nat × Operation)
  | took s op => some (s, op)
  | _ => none

def success? : Notice → Option (Nat × Nat)
  | ended s (.wrote n) => some (s, n)
  | _ => none

end Notice

namespace Pending

variable (p : Pending) (bytes : Bytes)

theorem mem_marks {notice : Notice} (h : notice ∈ p.marks bytes) :
    notice = .took p.stream p.operation ∨ notice = .pushed p.stream bytes := by
  rcases List.mem_append.mp h with h | h
  · split at h
    next => simp at h
    next => exact .inl (List.mem_singleton.mp h)
  · split at h
    next => simp at h
    next => exact .inr (List.mem_singleton.mp h)

theorem flatMap_marks {f : Notice → Bytes} (took : ∀ s op, f (.took s op) = [])
    (pushed : ∀ s bytes, f (.pushed s bytes) = []) : (p.marks bytes).flatMap f = [] := by
  refine List.flatMap_eq_nil_iff.mpr fun notice h => ?_
  rcases p.mem_marks bytes h with rfl | rfl
  · exact took _ _
  · exact pushed _ _

@[simp] theorem collected_marks : (p.marks bytes).flatMap Notice.collectedBytes = [] :=
  p.flatMap_marks bytes (fun _ _ => rfl) fun _ _ => rfl

@[simp] theorem arrived_marks : (p.marks bytes).flatMap Notice.arrivedBytes = [] :=
  p.flatMap_marks bytes (fun _ _ => rfl) fun _ _ => rfl

@[simp] theorem delivered_marks : (p.marks bytes).flatMap Notice.deliveredBytes = [] :=
  p.flatMap_marks bytes (fun _ _ => rfl) fun _ _ => rfl

@[simp] theorem pushed_marks : (p.marks bytes).flatMap Notice.pushedBytes = bytes := by
  rw [marks, List.flatMap_append]
  cases p.holds <;> cases bytes <;> simp [Notice.pushedBytes]

@[simp] theorem asked_marks : (p.marks bytes).filterMap Notice.asked? = [] := by
  refine List.filterMap_eq_nil_iff.mpr fun notice h => ?_
  rcases p.mem_marks bytes h with rfl | rfl <;> rfl

theorem got_marks :
    (p.marks bytes).filterMap Notice.got? = if p.holds then [] else [(p.stream, p.operation)] := by
  rw [marks, List.filterMap_append]
  cases p.holds <;> cases bytes <;> rfl

@[simp] theorem ended_notMem_marks (s : Nat) (o : Outcome) : .ended s o ∉ p.marks bytes := by
  intro h
  rcases p.mem_marks bytes h with h | h <;> cases h

end Pending

namespace Connection

variable {c d : Connection} {x : Happening} {notices : List Notice}

theorem balanced_after {out into : Notice → Bytes} {content : Connection → Bytes}
    (balanced : ∀ {c x d notices}, Change c x d notices →
      notices.flatMap out ++ content d = content c ++ notices.flatMap into)
    (c : Connection) (xs : List Happening) :
    (c.after xs).2.flatMap out ++ content (c.after xs).1 =
      content c ++ (c.after xs).2.flatMap into := by
  refine after_keeps (fun d log => log.flatMap out ++ content d = content c ++ log.flatMap into)
    ?_ c (by simp) xs
  intro d x e log notices h change
  calc (log ++ notices).flatMap out ++ content e
      = log.flatMap out ++ (notices.flatMap out ++ content e) := by simp
    _ = (log.flatMap out ++ content d) ++ notices.flatMap into := by simp [balanced change]
    _ = content c ++ (log ++ notices).flatMap into := by simp [h]

theorem incoming_of_change (change : Change c x d notices) :
    notices.flatMap Notice.deliveredBytes ++ d.link.incoming.content =
      c.link.incoming.content ++ notices.flatMap Notice.arrivedBytes := by
  cases change with
  | finished first alive held tried =>
      have hmoved := Operation.incoming_of_ends tried
      simpa [Notice.deliveredBytes, Notice.arrivedBytes] using hmoved
  | expired first alive held tried =>
      have hkept := Operation.incoming_of_waits tried
      simp [Notice.deliveredBytes, Notice.arrivedBytes, Outcome.delivered, hkept]
  | waited first alive held tried =>
      have hkept := Operation.incoming_of_waits tried
      simp [hkept]
  | _ =>
      simp [Notice.deliveredBytes, Notice.arrivedBytes, Outcome.delivered, abort, close, peerClose,
        leave]

theorem outgoing_of_change (change : Change c x d notices) :
    notices.flatMap Notice.collectedBytes ++ d.link.outgoing.content =
      c.link.outgoing.content ++ notices.flatMap Notice.pushedBytes := by
  cases change with
  | finished _ _ held tried | expired _ _ held tried | waited _ _ held tried =>
      have hpushed := (Operation.outgoing_of_attempt tried).1
      simp [Notice.collectedBytes, Notice.pushedBytes, hpushed]
  | _ => simp [Notice.collectedBytes, Notice.pushedBytes, abort, close, peerClose, leave]

end Connection

end DnsOverStreams
