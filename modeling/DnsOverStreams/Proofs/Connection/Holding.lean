import DnsOverStreams.Proofs.Connection.Noticed
/-!
The books of who had a shared connection, kept from what is noticed: each operation that got the
connection, in that order, with what it pushed and how it came to its end. A push is put down to the
operation that has the connection on that stream, and to nobody if none has.
-/

namespace DnsOverStreams

inductive Holding.End where
  | dropped
  | ended (outcome : Outcome)
  deriving DecidableEq, Repr

/-- An operation that got the connection, as it was then, with what it has pushed since, and with
its end when it has come to one. -/
structure Holding where
  stream : Nat
  operation : Operation
  sent : Bytes
  ending : Option Holding.End
  deriving DecidableEq, Repr

namespace Holding

def End.notice (s : Nat) : End → Notice
  | dropped => .dropped s
  | ended o => .ended s o

def End.success? (s : Nat) : End → Option (Nat × Nat)
  | ended (.wrote n) => some (s, n)
  | _ => none

def holds (s : Nat) (h : Holding) : Bool :=
  h.stream == s && h.ending.isNone

def push (s : Nat) (bytes : Bytes) (h : Holding) : Holding :=
  if h.holds s then { h with sent := h.sent ++ bytes } else h

def finish (s : Nat) (e : End) (h : Holding) : Holding :=
  if h.holds s then { h with ending := some e } else h

def asked (h : Holding) : Nat × Operation :=
  (h.stream, h.operation)

def success? (h : Holding) : Option (Nat × Nat) :=
  h.ending.bind (·.success? h.stream)

/-- It has sent a front of its buffer, and all of it if it is a write that succeeded. -/
def Sound (h : Holding) : Prop :=
  h.sent <+: h.operation.buffer ∧
    ∀ n, h.ending = some (.ended (.wrote n)) →
      h.sent = h.operation.buffer ∧ n = h.operation.buffer.length

def note (books : List Holding) : Notice → List Holding
  | .took s op => books ++ [⟨s, op, [], none⟩]
  | .pushed s bytes => books.map (.push s bytes)
  | .ended s o => books.map (.finish s (.ended o))
  | .dropped s => books.map (.finish s .dropped)
  | _ => books

theorem End.success?_eq_none {e : End} (h : ∀ n, e ≠ .ended (.wrote n)) (s : Nat) :
    e.success? s = none := by
  unfold success?
  split
  next n => exact absurd rfl (h n)
  next => rfl

@[simp] theorem asked_push (s : Nat) (bytes : Bytes) (h : Holding) :
    (h.push s bytes).asked = h.asked := by
  unfold push
  split <;> rfl

@[simp] theorem asked_finish (s : Nat) (e : End) (h : Holding) :
    (h.finish s e).asked = h.asked := by
  unfold finish
  split <;> rfl

@[simp] theorem sent_finish (s : Nat) (e : End) (h : Holding) :
    (h.finish s e).sent = h.sent := by
  unfold finish
  split <;> rfl

@[simp] theorem success?_push (s : Nat) (bytes : Bytes) (h : Holding) :
    (h.push s bytes).success? = h.success? := by
  unfold push
  split <;> rfl

@[simp] theorem success?_comp_push (s : Nat) (bytes : Bytes) :
    success? ∘ push s bytes = success? :=
  funext (success?_push s bytes)

theorem push_nil (s : Nat) : push s [] = id := by
  funext h
  simp [push]

theorem flatMap_sent_finish (books : List Holding) (s : Nat) (e : End) :
    (books.map (.finish s e)).flatMap sent = books.flatMap sent := by
  simp [List.flatMap_map]

theorem map_push_of_ended {books : List Holding} (ended : ∀ h ∈ books, h.ending ≠ none) (s : Nat)
    (bytes : Bytes) : books.map (.push s bytes) = books := by
  have hsame : ∀ h ∈ books, h.push s bytes = id h := by
    intro h hmem
    simp [push, holds, ended h hmem]
  rw [List.map_congr_left hsame, List.map_id]

theorem map_finish_of_ended {books : List Holding} (ended : ∀ h ∈ books, h.ending ≠ none) (s : Nat)
    (e : End) : books.map (.finish s e) = books := by
  have hsame : ∀ h ∈ books, h.finish s e = id h := by
    intro h hmem
    simp [finish, holds, ended h hmem]
  rw [List.map_congr_left hsame, List.map_id]

theorem note_notice (books : List Holding) (s : Nat) (e : End) :
    note books (e.notice s) = books.map (.finish s e) := by
  cases e <;> rfl

end Holding

def Pending.entry (p : Pending) (op : Operation) : Holding :=
  ⟨p.stream, op, p.operation.sent, none⟩

namespace Holding

variable {p : Pending} {op : Operation} {s : Nat} {e : End}

theorem push_entry (bytes : Bytes) :
    (p.entry op).push p.stream bytes = ⟨p.stream, op, p.operation.sent ++ bytes, none⟩ := by
  simp [push, holds, Pending.entry]

theorem finish_entry :
    (p.entry op).finish p.stream e = ⟨p.stream, op, p.operation.sent, some e⟩ := by
  simp [finish, holds, Pending.entry]

theorem finish_entry_of_ne (h : p.stream ≠ s) : (p.entry op).finish s e = p.entry op := by
  simp [finish, holds, Pending.entry, h]

@[simp] theorem success?_entry : (p.entry op).success? = none := rfl

@[simp] theorem success?_ended (bytes : Bytes) :
    success? ⟨s, op, bytes, some e⟩ = e.success? s := rfl

theorem sound_entry (buffer : op.buffer = p.operation.buffer) : (p.entry op).Sound :=
  ⟨buffer ▸ p.operation.sent_prefix_buffer, fun _ h => nomatch h⟩

end Holding

namespace Holding.End

@[simp] theorem pushedBytes_notice (s : Nat) (e : End) : (e.notice s).pushedBytes = [] := by
  cases e <;> rfl

@[simp] theorem success?_notice (s : Nat) (e : End) : (e.notice s).success? = e.success? s := by
  cases e with
  | dropped => rfl
  | ended o => cases o <;> rfl

end Holding.End

/-- The operations that had the connection, in the order in which they got it. -/
def holdings (log : List Notice) : List Holding :=
  log.foldl Holding.note []

theorem holdings_snoc (log : List Notice) (notice : Notice) :
    holdings (log ++ [notice]) = Holding.note (holdings log) notice := by
  simp [holdings]

theorem asked_holdings (log : List Notice) :
    (holdings log).map Holding.asked = log.filterMap Notice.got? := by
  suffices ∀ books : List Holding, (log.foldl Holding.note books).map Holding.asked =
      books.map Holding.asked ++ log.filterMap Notice.got? from this []
  induction log with
  | nil => simp
  | cons notice log ih =>
      intro books
      rw [List.foldl_cons, ih]
      cases notice <;>
        simp [Holding.note, Notice.got?, Function.comp_def, List.filterMap_cons]
      rfl

end DnsOverStreams
