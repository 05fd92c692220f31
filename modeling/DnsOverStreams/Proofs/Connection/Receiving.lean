import DnsOverStreams.Proofs.Connection.Line
import DnsOverStreams.Proofs.Connection.Noticed

namespace DnsOverStreams

namespace Connection

variable {c d : Connection} {x : Happening} {log notices : List Notice}

/-- Until the pipe is taken away, no more bytes will come just if the other end has gone away. -/
def Faithful (c : Connection) : Prop :=
  c.taken = false → c.link.incoming.closed = c.peerGone

theorem Faithful.of_change (h : Faithful c) (change : Change c x d notices) : Faithful d := by
  cases change with
  | finished _ _ held tried | expired _ _ held tried | waited _ _ held tried =>
      intro _
      rw [← h held]
      exact Operation.closed_incoming_of_attempt tried
  | peerLeft here => exact fun _ => rfl
  | shut first held => exact fun taken => nomatch taken
  | _ => exact h

theorem faithful_after (capacity : Nat) (shutdown : Option IoFailure) (xs : List Happening) :
    Faithful ((opened capacity shutdown).after xs).1 :=
  after_keeps (fun c _ => Faithful c) (fun h change => h.of_change change)
    (opened capacity shutdown) (fun _ => rfl) xs

theorem delivered_eq_nil (h : ∀ s bytes, .ended s (.got bytes) ∉ notices) :
    notices.flatMap Notice.deliveredBytes = [] := by
  refine List.flatMap_eq_nil_iff.mpr fun notice hnotice => ?_
  cases notice with
  | ended s o =>
      cases o with
      | got bytes => exact absurd hnotice (h s bytes)
      | wrote count => rfl
      | failed e => rfl
  | _ => rfl

theorem drained_of_got_nil {p : Pending} {room : Nat} (distinct : Distinct c.line)
    (faithful : Faithful c) (change : Change c x d notices) (hp : p ∈ c.queue)
    (hread : p.operation = .read room) (hroom : room ≠ 0)
    (hended : .ended p.stream (.got []) ∈ notices) :
    c.link.incoming.content = [] ∧ c.peerGone = true := by
  cases change with
  | @finished q rest o l bytes first alive held tried =>
      obtain ⟨hstream, rfl⟩ : p.stream = q.stream ∧ .got [] = o := by simpa using hended
      obtain rfl : p = q := distinct.eq_of_first first hp hstream
      rw [hread] at tried
      obtain ⟨hempty, hclosed⟩ := Operation.closed_of_got_nil hroom tried
      exact ⟨hempty, by rw [← faithful held, hclosed]⟩
  | _ => simp at hended

/-- The bytes that reads return, in the order in which they end, and then those that are still
there, are just what the other end has written. A step removes bytes only by ending a read with
them, and a read with room for bytes returns none only when the other end is gone and all it wrote
was returned. -/
theorem incoming_bytes_are_delivered_in_order {capacity : Nat} {shutdown : Option IoFailure}
    {xs : List Happening} {x : Happening} {c d : Connection} {log notices : List Notice}
    (course : (opened capacity shutdown).after xs = (c, log)) (next : c.happen x = (d, notices)) :
    log.flatMap Notice.deliveredBytes ++ c.link.incoming.content =
        log.flatMap Notice.arrivedBytes ∧
      ((∀ s bytes, .ended s (.got bytes) ∉ notices) →
        d.link.incoming.content = c.link.incoming.content ++ notices.flatMap Notice.arrivedBytes) ∧
      ∀ p ∈ c.queue, ∀ room, p.operation = .read room → room ≠ 0 →
        .ended p.stream (.got []) ∈ notices →
          c.peerGone = true ∧
            log.flatMap Notice.deliveredBytes = log.flatMap Notice.arrivedBytes := by
  have change : Change c x d notices := by simpa [next] using Change.happen (c := c) x
  have hmoved := incoming_of_change change
  have hsum : log.flatMap Notice.deliveredBytes ++ c.link.incoming.content =
      log.flatMap Notice.arrivedBytes := by
    have h := balanced_after incoming_of_change (opened capacity shutdown) xs
    rw [course] at h
    exact h
  have distinct : Distinct c.line := by simpa [course] using distinct_after capacity shutdown xs
  have faithful : Faithful c := by simpa [course] using faithful_after capacity shutdown xs
  refine ⟨hsum, ?_, ?_⟩
  · intro hnone
    simpa [delivered_eq_nil hnone] using hmoved
  · intro p hp room hread hroom hended
    obtain ⟨hempty, hgone⟩ := drained_of_got_nil distinct faithful change hp hread hroom hended
    rw [hempty, List.append_nil] at hsum
    exact ⟨hgone, hsum⟩

theorem incoming_bytes_are_delivered_in_order_to_the_end :
    let reached := (opened 4 none).after [.step .openStream, .step (.read 0 2), .turn 0,
      .step (.peerWrite [1, 2, 3]), .turn 0, .step (.read 0 2), .turn 0, .step .peerClose,
      .step (.read 0 2)]
    let ended := reached.1.happen (.turn 0)
    .ended 0 (.got []) ∈ ended.2 ∧ reached.1.peerGone = true ∧
      reached.2.flatMap Notice.deliveredBytes = reached.2.flatMap Notice.arrivedBytes := by
  intro reached ended
  have course : (opened 4 none).after _ = (reached.1, reached.2) := rfl
  have next : reached.1.happen (.turn 0) = (ended.1, ended.2) := rfl
  have hended : .ended 0 (.got []) ∈ ended.2 := List.mem_of_getLast? rfl
  obtain ⟨-, -, drained⟩ := incoming_bytes_are_delivered_in_order course next
  have waiting : ⟨0, .read 2, none, false⟩ ∈ reached.1.queue := List.mem_of_getLast? rfl
  exact ⟨hended, drained _ waiting 2 rfl (by decide) hended⟩

end Connection

end DnsOverStreams
