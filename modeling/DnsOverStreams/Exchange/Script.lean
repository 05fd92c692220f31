import DnsOverStreams.Exchange.Basic
import DnsOverStreams.Sketch
/-!
A counterpart that goes by a script: how long it takes for each call, whether the call fails, and what
it delivers.
-/

namespace DnsOverStreams

structure Script where
  protocol : Option Protocol
  dialDelay : Delay
  dialFailure : Option IoFailure
  openDelay : Delay
  openRefused : Bool
  boundFailure : Option IoFailure
  unboundFailure : Option IoFailure
  writeDelay : Delay
  writeHangs : Bool
  writeFailure : Option IoFailure
  shortBy : Nat
  reply : FrameSketch
  readDelay : Delay
  hangAfter : Option Nat
  readFailure : Option (Nat × IoFailure)
  chunk : Option Nat
  streamCloseFailure : Option IoFailure
  closeFailure : Option IoFailure
  closeBreaksDown : Bool
  cancelOnQuery : List Token
  cancelOnReply : List Token

/-- Where a script stands: what was written, and from the first read on what is to be delivered and
how much of it was. -/
structure ScriptState where
  written : Bytes
  toDeliver : Option Bytes
  delivered : Nat
  deriving DecidableEq, Repr

namespace ScriptState

def start : ScriptState := ⟨[], none, 0⟩

end ScriptState

namespace Script

variable {α : Type}

def failIf (e : Option IoFailure) : Except IoFailure Unit :=
  match e with
  | some e => .error e
  | none => .ok ()

def plain (delay : Delay) (answer : α) (st : ScriptState) : Call ScriptState α :=
  ⟨delay, answer, st, fun _ => st, []⟩

def openAnswer (s : Script) : Except Failure Unit :=
  if s.openRefused then .error (.notice "cannot open stream") else .ok ()

def write (s : Script) (st : ScriptState) (frame : Bytes) :
    Call ScriptState (Except IoFailure Nat) :=
  let delay := if s.writeHangs then .never else s.writeDelay
  match s.writeFailure with
  | some e => plain delay (.error e) st
  | none =>
      { delay := delay
        answer := .ok (frame.length - s.shortBy)
        state := { st with written := st.written ++ frame }
        abandoned := fun _ => st
        cancels := [] }

/-- What is to be delivered, which the first read settles. -/
def prepareReply (s : Script) (st : ScriptState) : ScriptState × Bytes :=
  match st.toDeliver with
  | some bytes => (st, bytes)
  | none =>
      let bytes := s.reply.bytes (st.written.drop 2)
      ({ st with toDeliver := some bytes }, bytes)

def read (s : Script) (st : ScriptState) (room : Nat) : Call ScriptState (Except IoFailure Bytes) :=
  let (st, bytes) := s.prepareReply st
  let hangs := s.hangAfter.any (· ≤ st.delivered)
  let delay := if hangs then .never else s.readDelay
  match s.readFailure.filter fun (after, _) => after ≤ st.delivered with
  | some (_, e) => plain delay (.error e) st
  | none =>
      let n := min room (s.chunk.getD room)
      let front := bytes.take n
      { delay := delay
        answer := .ok front
        state :=
          { st with toDeliver := some (bytes.drop n), delivered := st.delivered + front.length }
        abandoned := fun _ => st
        cancels := [] }

def closing (s : Script) : Closing :=
  if s.closeBreaksDown then .brokeDown
  else
    match s.closeFailure with
    | some e => .failed (.ofIo e)
    | none => .closed

def counterpart (s : Script) : Counterpart ScriptState :=
  fun _ st request =>
    match request with
    | .dial => plain s.dialDelay ((failIf s.dialFailure).mapError .ofIo) st
    | .openStream => plain s.openDelay s.openAnswer st
    | .setDeadline (some _) => .instant (failIf s.boundFailure) st
    | .setDeadline none => .instant (failIf s.unboundFailure) st
    | .prepare query =>
        .instant (match s.protocol with
          | some p => query.prepare p
          | none => query) st
    | .write frame => s.write st frame
    | .showQuery _ => { Call.instant () st with cancels := s.cancelOnQuery }
    | .closeStream => .instant (failIf s.streamCloseFailure) st
    | .read room => s.read st room
    | .showReply _ => { Call.instant () st with cancels := s.cancelOnReply }
    | .closeConnection _ => .instant s.closing st

end Script

end DnsOverStreams
