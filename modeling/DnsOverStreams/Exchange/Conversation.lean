import DnsOverStreams.Query.Basic
import DnsOverStreams.Reply
import DnsOverStreams.Task
/-!
What is said on a stream to exchange one query for one reply, as a task: the calls it makes, in their
order, and what it makes of the answers.
-/

namespace DnsOverStreams

inductive Occasion where
  | done
  | deadline
  deriving DecidableEq, Repr

inductive Request where
  | dial
  | openStream
  | setDeadline (deadline : Option Time)
  | prepare (query : Query)
  | write (frame : Bytes)
  | showQuery (raw : Bytes)
  | closeStream
  | read (room : Nat)
  | showReply (raw : Bytes)
  | closeConnection (occasion : Occasion)
  deriving DecidableEq, Repr

/-- How the closing of a connection ends. It may break down without giving a result. -/
inductive Closing where
  | closed
  | failed (e : Failure)
  | brokeDown
  deriving DecidableEq, Repr

@[reducible] def Request.Answer : Request → Type
  | .dial => Except Failure Unit
  | .openStream => Except Failure Unit
  | .setDeadline _ => Except IoFailure Unit
  | .prepare _ => Query
  | .write _ => Except IoFailure Nat
  | .showQuery _ => Unit
  | .closeStream => Except IoFailure Unit
  | .read _ => Except IoFailure Bytes
  | .showReply _ => Unit
  | .closeConnection _ => Closing

def Request.unconnected (p : Protocol) : (r : Request) → r.Answer
  | .dial => .error (.ofIo .notConnected)
  | .openStream => .error (.ofIo .notConnected)
  | .setDeadline _ => .error .notConnected
  | .prepare query => query.prepare p
  | .write _ => .error .notConnected
  | .showQuery _ => ()
  | .closeStream => .error .notConnected
  | .read _ => .error .notConnected
  | .showReply _ => ()
  | .closeConnection _ => .closed

abbrev Talk (α : Type) := Task Request Request.Answer α

namespace Talk

/-- Reads until so many more bytes of a unit are there. The chunks that were read stand latest
first. A read never gives more than it was asked for. -/
def readRest (whole : Nat) (chunks : List Bytes) (missing : Nat) : Talk (Except IoFailure Bytes) :=
  if missing = 0 then .done (.ok chunks.reverse.flatten)
  else
    .call (.read missing) fun
      | .error e => .done (.error e)
      | .ok bytes =>
          let chunk := bytes.take missing
          if chunk = [] then .done (.error (.unexpectedEnd (whole - missing) whole))
          else readRest whole (chunk :: chunks) (missing - chunk.length)
termination_by missing
decreasing_by
  rename_i h hne
  have : 0 < (bytes.take missing).length := List.length_pos_iff.mpr hne
  omega

def readExactly (n : Nat) : Talk (Except IoFailure Bytes) :=
  readRest n [] n

def readFrame : Talk (Except IoFailure Bytes) :=
  (readExactly Frame.headerLength).bind fun
    | .error e => .done (.error e)
    | .ok header => readExactly (Frame.announced header)

def judge (message : Message) (body : Bytes) : Except Failure Reply :=
  match Reply.ofBytes message body with
  | .ok reply => .ok reply
  | .error e => .error (.invalidReply e)

def receive (message : Message) : Talk (Except Failure Reply) :=
  readFrame.bind fun
    | .error e => .done (.error (.ofIo e))
    | .ok body => .call (.showReply body) fun _ => .done (judge message body)

/-- Writes a frame, says that no more will come, and reads the reply. -/
def send (message : Message) (raw frame : Bytes) : Talk (Except Failure Reply) :=
  .call (.write frame) fun
    | .error e => .done (.error (.ofIo e))
    | .ok n =>
        if n = frame.length then
          .call (.showQuery raw) fun _ => .call .closeStream fun _ => receive message
        else .done (.error (.ofIo (.shortWrite n frame.length)))

def encode (query : Query) : Except Failure (Message × Bytes × Bytes) :=
  match query.message with
  | .error e => .error (.encoding e)
  | .ok message =>
      match message.write with
      | .error e => .error (.encoding e)
      | .ok raw =>
          match Frame.encode raw with
          | .error e => .error (.oversize e)
          | .ok frame => .ok (message, raw, frame)

def roundTrip (query : Query) : Talk (Except Failure Reply) :=
  .call (.prepare query) fun prepared =>
    match encode prepared with
    | .error e => .done (.error e)
    | .ok (message, raw, frame) => send message raw frame

/-- Opens a stream, bounds it by the deadline if there is one, and uses it for one round trip. Nothing
that goes wrong when the stream is closed changes the result. -/
def converse (deadline : Option Time) (query : Query) : Talk (Except Failure Reply) :=
  .call .openStream fun
    | .error e => .done (.error e)
    | .ok () =>
        match deadline with
        | none => (roundTrip query).bind fun result => .call .closeStream fun _ => .done result
        | some d =>
            .call (.setDeadline (some d)) fun
              | .error e => .done (.error (.ofIo e))
              | .ok () =>
                  (roundTrip query).bind fun result =>
                    .call .closeStream fun _ => .call (.setDeadline none) fun _ => .done result

end Talk

end DnsOverStreams
