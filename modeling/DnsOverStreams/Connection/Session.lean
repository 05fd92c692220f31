import DnsOverStreams.Connection.Basic
/-!
What can be done with a shared connection from outside, step by step. Those in line get their turns
in any order and at any time between the steps. A session that is `run` lets all that can happen
happen before the next step.
-/

namespace DnsOverStreams

inductive ConnectionStep where
  | openStream
  | setDeadline (stream : Nat) (deadline : Option Time)
  | read (stream : Nat) (room : Nat)
  | write (stream : Nat) (bytes : Bytes)
  | closeStream (stream : Nat)
  | close
  | abort (stream : Nat)
  | peerWrite (bytes : Bytes)
  | peerRead (room : Nat)
  | peerClose
  | advance (ms : Nat)
  deriving DecidableEq, Repr

inductive Shown where
  | nothing
  | stream (number : Nat)
  | busy
  | idle
  | gone
  | all
  | part
  | bytes (bytes : Bytes)
  | failed (e : IoFailure)
  deriving DecidableEq, Repr

/-- What can happen next: a step from outside, or a turn of the one at a place in the line. -/
inductive Happening where
  | step (s : ConnectionStep)
  | turn (place : Nat)
  deriving DecidableEq, Repr

namespace Connection

/-- A step on a stream does nothing while an operation on that stream has not ended. -/
def unlessBusy (c : Connection) (stream : Nat) (next : Shown × Connection × List Notice) :
    Shown × Connection × List Notice :=
  if c.isBusy stream then (.busy, c, []) else next

def unlessGone (c : Connection) (next : Shown × Connection × List Notice) :
    Shown × Connection × List Notice :=
  if c.peerGone then (.gone, c, []) else next

/-- A step from outside, before anybody gets a turn. -/
def act (c : Connection) : ConnectionStep → Shown × Connection × List Notice
  | .openStream => (.stream c.deadlines.length, c.openStream, [])
  | .setDeadline stream deadline =>
      c.unlessBusy stream (.nothing, c.setDeadline stream deadline, [])
  | .read stream room => c.unlessBusy stream (.nothing, c.start stream (.read room))
  | .write stream bytes => c.unlessBusy stream (.nothing, c.start stream (.write [] bytes))
  | .closeStream stream => c.unlessBusy stream (.nothing, c, [.streamClosed stream])
  | .close => (.nothing, c.close, [])
  | .abort stream => if c.isBusy stream then (.nothing, c.abort stream) else (.idle, c, [])
  | .peerWrite bytes =>
      c.unlessGone <|
        match c.peerWrite bytes with
        | (.ok true, after) => (.all, after)
        | (.ok false, after) => (.part, after)
        | (.error e, after) => (.failed e, after)
  | .peerRead room =>
      c.unlessGone <|
        match c.peerRead room with
        | (some bytes, after) => (.bytes bytes, after)
        | (none, after) => (.part, after)
  | .peerClose => if c.peerGone then (.nothing, c, []) else (.nothing, c.peerClose, [])
  | .advance ms => (.nothing, c.advance ms, [])

def step (c : Connection) (s : ConnectionStep) : Shown × Connection × List Notice :=
  let acted := c.act s
  (acted.1, settleAfter acted.2)

def run (c : Connection) : List ConnectionStep → Connection × List Notice
  | [] => (c, [])
  | s :: ss =>
      let (_, c, notices) := c.step s
      let (c, later) := c.run ss
      (c, notices ++ later)

def happen (c : Connection) : Happening → Connection × List Notice
  | .step s => (c.act s).2
  | .turn place => c.turn place

def after (c : Connection) : List Happening → Connection × List Notice
  | [] => (c, [])
  | x :: xs =>
      let happened := c.happen x
      let later := happened.1.after xs
      (later.1, happened.2 ++ later.2)

end Connection

end DnsOverStreams
