import DnsOverStreams.Connection.Pipe
import DnsOverStreams.Failure
import DnsOverStreams.Scope.Basic
/-!
A connection that its streams share. Whoever wants it stands in line, operations on streams as well
as closings, and the first in line has it until it leaves. Things go on by turns of those in line,
in any order. An operation that gets a turn looks first whether the connection was closed, and does
what it can if it has the connection. A stream's deadline is fixed for an operation when that is
started, and is looked at only while the operation has the connection and has to wait.

The connection counts as closed from the beginning of the first closing on, so all operations end,
and the line moves on to the closings. The first of them takes the pipe away and shuts it down.
-/

namespace DnsOverStreams

structure Pending where
  stream : Nat
  operation : Operation
  deadline : Option Time
  holds : Bool
  deriving DecidableEq, Repr

inductive Waiter where
  | operation (p : Pending)
  | closing (number : Nat)
  deriving DecidableEq, Repr

inductive Notice where
  | started (stream : Nat) (operation : Operation)
  | took (stream : Nat) (operation : Operation)
  | pushed (stream : Nat) (bytes : Bytes)
  | ended (stream : Nat) (outcome : Outcome)
  | dropped (stream : Nat)
  | streamClosed (stream : Nat)
  | closed (count : Nat) (result : Except Failure Unit)
  | arrived (bytes : Bytes)
  | collected (bytes : Bytes)

structure Progress where
  rest : Option Pending
  link : Link
  notices : List Notice

namespace Pending

def marks (p : Pending) (pushed : Bytes) : List Notice :=
  (if p.holds then [] else [.took p.stream p.operation]) ++
    (if pushed = [] then [] else [.pushed p.stream pushed])

def proceed (now : Time) (l : Link) (p : Pending) : Progress :=
  let a := p.operation.attempt l
  match a.result with
  | .inl outcome => ⟨none, a.link, p.marks a.pushed ++ [.ended p.stream outcome]⟩
  | .inr operation =>
      if p.deadline.any (· ≤ now) then
        ⟨none, a.link, p.marks a.pushed ++ [.ended p.stream (.failed .deadline)]⟩
      else ⟨some { p with operation := operation, holds := true }, a.link, p.marks a.pushed⟩

end Pending

namespace Waiter

def operation? : Waiter → Option Pending
  | operation p => some p
  | closing _ => none

def isOn (stream : Nat) (w : Waiter) : Bool :=
  w.operation?.any (·.stream == stream)

end Waiter

/-- A connection, with the numbers of closings that were begun, and whether one has taken the pipe.
-/
structure Connection where
  now : Time
  link : Link
  deadlines : List (Option Time)
  line : List Waiter
  closes : Nat
  taken : Bool
  peerGone : Bool
  shutdown : Option IoFailure
  deriving DecidableEq, Repr

namespace Connection

def opened (capacity : Nat) (shutdown : Option IoFailure) : Connection :=
  ⟨0, Link.empty capacity, [], [], 0, false, false, shutdown⟩

def isClosed (c : Connection) : Bool :=
  0 < c.closes

def queue (c : Connection) : List Pending :=
  c.line.filterMap Waiter.operation?

def isBusy (c : Connection) (stream : Nat) : Bool :=
  c.queue.any (·.stream == stream)

def deadline (c : Connection) (stream : Nat) : Option Time :=
  (c.deadlines[stream]?).join

def leave (c : Connection) (place : Nat) : Connection :=
  { c with line := c.line.eraseIdx place }

def shutdownResult (c : Connection) : Except Failure Unit :=
  match c.shutdown with
  | some e => .error (.ofIo e)
  | none => .ok ()

def operationTurn (c : Connection) (place : Nat) (p : Pending) : Connection × List Notice :=
  if c.isClosed then (c.leave place, [.ended p.stream (.failed .notConnected)])
  else if place ≠ 0 then (c, [])
  else if c.taken then (c.leave place, [.ended p.stream (.failed .notConnected)])
  else
    let after := p.proceed c.now c.link
    ({ c with link := after.link, line := (after.rest.map .operation).toList ++ c.line.tail },
      after.notices)

def closingTurn (c : Connection) (place : Nat) (number : Nat) : Connection × List Notice :=
  if place ≠ 0 then (c, [])
  else if c.taken then (c.leave place, [.closed number (.ok ())])
  else
    ({ c.leave place with link := c.link.close, taken := true },
      [.closed number c.shutdownResult])

def turn (c : Connection) (place : Nat) : Connection × List Notice :=
  match c.line[place]? with
  | some (.operation p) => c.operationTurn place p
  | some (.closing number) => c.closingTurn place number
  | none => (c, [])

/-- Lets everything happen that can happen now: the first in line gets turns until it stays. -/
def settle (c : Connection) : Connection × List Notice :=
  let after := c.turn 0
  if _h : after.1.line.length < c.line.length then
    let settled := after.1.settle
    (settled.1, after.2 ++ settled.2)
  else after
termination_by c.line.length

def settleAfter (after : Connection × List Notice) : Connection × List Notice :=
  let settled := after.1.settle
  (settled.1, after.2 ++ settled.2)

def start (c : Connection) (stream : Nat) (operation : Operation) : Connection × List Notice :=
  if c.isClosed then (c, [.started stream operation, .ended stream (.failed .notConnected)])
  else
    ({ c with line := c.line ++ [.operation ⟨stream, operation, c.deadline stream, false⟩] },
      [.started stream operation])

def openStream (c : Connection) : Connection :=
  { c with deadlines := c.deadlines ++ [none] }

def setDeadline (c : Connection) (stream : Nat) (deadline : Option Time) : Connection :=
  { c with deadlines := c.deadlines.set stream deadline }

/-- Gives up the operation on a stream, which a new stream replaces. -/
def abort (c : Connection) (stream : Nat) : Connection × List Notice :=
  ({ c with
      line := c.line.filter fun w => !w.isOn stream
      deadlines := c.deadlines.set stream none },
    [.dropped stream])

/-- A closing begins: it is made known that the connection is closed, and the closing gets in line.
-/
def close (c : Connection) : Connection :=
  { c with closes := c.closes + 1, line := c.line ++ [.closing c.closes] }

def advance (c : Connection) (ms : Nat) : Connection :=
  { c with now := c.now + ms }

def peerWrite (c : Connection) (bytes : Bytes) : Except IoFailure Bool × Connection × List Notice :=
  let a := (Operation.write [] bytes).attempt c.link.flip
  let after := ({ c with link := a.link.flip }, [.arrived a.pushed])
  match a.result with
  | .inl (.failed e) => (.error e, after)
  | .inl _ => (.ok true, after)
  | .inr _ => (.ok false, after)

def peerRead (c : Connection) (room : Nat) : Option Bytes × Connection × List Notice :=
  let a := (Operation.read room).attempt c.link.flip
  let after := { c with link := a.link.flip }
  match a.result with
  | .inl (.got bytes) => (some bytes, after, [.collected bytes])
  | _ => (none, after, [])

def peerClose (c : Connection) : Connection :=
  { c with link := c.link.close, peerGone := true }

end Connection

end DnsOverStreams
