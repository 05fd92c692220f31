import DnsOverStreams.Failure
import DnsOverStreams.Message.Reader

namespace DnsOverStreams

structure Reply where
  message : Message
  deriving DecidableEq, Repr

namespace Reply

def check (query reply : Message) : Except InvalidReply Reply :=
  if !reply.flags.response then .error .notAReply
  else if reply.id ≠ query.id then .error (.idMismatch query.id reply.id)
  else if reply.opcode ≠ query.opcode then .error .opcodeMismatch
  else if !Message.sameQuestions reply.questions query.questions then .error .questionMismatch
  else .ok ⟨reply⟩

def ofBytes (query : Message) (raw : Bytes) : Except InvalidReply Reply :=
  match Message.read raw with
  | some reply => check query reply
  | none => .error .malformed

def collect {α : Type} (r : Reply) (pick : RecordData → Option α) : Except Failure (List α) :=
  if r.message.responseCode ≠ ResponseCode.noError then
    .error (.responseCode r.message.responseCode)
  else
    match r.message.answers.filterMap fun record => pick record.data with
    | [] => .error .noData
    | found => .ok found

def addresses4 (r : Reply) : Except Failure (List Ipv4) :=
  r.collect fun
    | .ipv4 ip => some ip
    | _ => none

def addresses6 (r : Reply) : Except Failure (List Ipv6) :=
  r.collect fun
    | .ipv6 ip => some ip
    | _ => none

end Reply

end DnsOverStreams
