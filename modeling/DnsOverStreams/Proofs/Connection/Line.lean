import DnsOverStreams.Proofs.Connection.Change
/-!
Who stands in line for a shared connection: at most one operation of each stream. So an operation
can be told by its stream, and to leave the line is to take out whoever is on that stream.
-/

namespace DnsOverStreams

namespace Waiter

@[simp] theorem isOn_operation (s : Nat) (p : Pending) :
    (operation p).isOn s = (p.stream == s) := rfl

@[simp] theorem isOn_closing (s number : Nat) : (closing number).isOn s = false := rfl

def Apart (v w : Waiter) : Prop :=
  ∀ s, v.isOn s = true → w.isOn s = false

theorem Apart.symm {v w : Waiter} (h : v.Apart w) : w.Apart v := by
  intro s hw
  cases hv : v.isOn s with
  | false => rfl
  | true => exact absurd hw (by simp [h s hv])

theorem apart_closing (v : Waiter) (number : Nat) : v.Apart (closing number) :=
  fun _ _ => rfl

end Waiter

namespace Connection

variable {c d : Connection} {x : Happening} {line : List Waiter} {s : Nat}

def Distinct (line : List Waiter) : Prop :=
  line.Pairwise Waiter.Apart

theorem isBusy_eq (c : Connection) (s : Nat) : c.isBusy s = c.line.any (·.isOn s) := by
  rw [isBusy, queue, List.any_filterMap]
  rfl

theorem mem_queue {p : Pending} : p ∈ c.queue ↔ .operation p ∈ c.line := by
  simp only [queue, List.mem_filterMap]
  constructor
  · rintro ⟨w, hw, hp⟩
    cases w with
    | operation q =>
        obtain rfl : q = p := by simpa [Waiter.operation?] using hp
        exact hw
    | closing number => simp [Waiter.operation?] at hp
  · intro h
    exact ⟨_, h, rfl⟩

theorem Distinct.append_operation {p : Pending} (h : Distinct line)
    (idle : line.any (·.isOn p.stream) = false) : Distinct (line ++ [.operation p]) := by
  refine List.pairwise_append.mpr ⟨h, List.pairwise_singleton _ _, ?_⟩
  intro v hv w hw
  obtain rfl := List.mem_singleton.mp hw
  apply Waiter.Apart.symm
  intro s hs
  obtain rfl : p.stream = s := by simpa using hs
  simpa using List.any_eq_false.mp idle v hv

theorem Distinct.append_closing (h : Distinct line) (number : Nat) :
    Distinct (line ++ [.closing number]) := by
  refine List.pairwise_append.mpr ⟨h, List.pairwise_singleton _ _, ?_⟩
  intro v _ w hw
  obtain rfl := List.mem_singleton.mp hw
  exact v.apart_closing number

theorem Distinct.eq_of_first {p q : Pending} {rest : List Waiter} (h : Distinct c.line)
    (first : c.line = .operation q :: rest) (hp : p ∈ c.queue) (hstream : p.stream = q.stream) :
    p = q := by
  rw [mem_queue, first] at hp
  rw [first] at h
  cases hp with
  | head => rfl
  | tail _ hp =>
      have hoff := (List.pairwise_cons.mp h).1 _ hp q.stream (by simp)
      simp [hstream] at hoff

theorem filter_of_idle (idle : c.isBusy s = false) :
    c.line.filter (fun w => !w.isOn s) = c.line := by
  rw [isBusy_eq] at idle
  refine List.filter_eq_self.mpr fun w hw => ?_
  simpa using List.any_eq_false.mp idle w hw

theorem Distinct.filter_rest {p q : Pending} {rest : List Waiter}
    (h : Distinct (.operation p :: rest)) (hstream : q.stream = p.stream) :
    (Waiter.operation q :: rest).filter (fun w => !w.isOn p.stream) = rest := by
  rw [List.filter_cons_of_neg (by simp [hstream])]
  refine List.filter_eq_self.mpr fun w hw => ?_
  simpa using (List.pairwise_cons.mp h).1 w hw p.stream (by simp)

theorem Distinct.eraseIdx_eq_filter {waiters : List Waiter} {place : Nat} {p : Pending}
    (h : Distinct waiters) (at_place : waiters[place]? = some (.operation p)) :
    waiters.eraseIdx place = waiters.filter fun w => !w.isOn p.stream := by
  induction waiters generalizing place with
  | nil => simp at at_place
  | cons w rest ih =>
      obtain ⟨hw, hrest⟩ := List.pairwise_cons.mp h
      cases place with
      | zero =>
          obtain rfl : w = .operation p := by simpa using at_place
          exact (h.filter_rest rfl).symm
      | succ place =>
          have hp : rest[place]? = some (.operation p) := by simpa using at_place
          have hoff : w.isOn p.stream = false :=
            (hw _ (List.mem_of_getElem? hp)).symm p.stream (by simp)
          simp [hoff, ih hrest hp]

theorem Distinct.of_change {notices : List Notice} (h : Distinct c.line)
    (change : Change c x d notices) : Distinct d.line := by
  cases change with
  | aside | streamClosed | refused | arrived | collected | peerLeft => exact h
  | started alive idle unsent => exact h.append_operation (by rwa [isBusy_eq] at idle)
  | dropped busy => exact h.sublist List.filter_sublist
  | closing => exact h.append_closing _
  | cutOff => exact h.sublist (List.eraseIdx_sublist _ _)
  | finished first | expired first | shut first | passed first =>
      rw [first] at h
      exact (List.pairwise_cons.mp h).2
  | @waited p rest op l bytes first =>
      rw [first] at h
      obtain ⟨hp, hrest⟩ := List.pairwise_cons.mp h
      exact List.pairwise_cons.mpr ⟨hp, hrest⟩

theorem distinct_after (capacity : Nat) (shutdown : Option IoFailure) (xs : List Happening) :
    Distinct ((opened capacity shutdown).after xs).1.line :=
  after_keeps (fun c _ => Distinct c.line) (fun h change => h.of_change change)
    (opened capacity shutdown) List.Pairwise.nil xs

end Connection

end DnsOverStreams
