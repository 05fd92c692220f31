import DnsOverStreams.Message.Reader
import DnsOverStreams.Message.Writer
import DnsOverStreams.Failure
/-!
A small responder that knows one name and its two addresses. It serves to try exchanges out: it can
answer, refuse with an identifier that is not the one of the query, or stay silent.
-/

namespace DnsOverStreams

inductive Manner where
  | answer
  | forgeRefused
  | silent
  deriving DecidableEq, Repr

inductive Breakdown where
  | unreadable
  | unwritable (cause : WriteError)
  deriving DecidableEq, Repr

namespace Responder

def knownName : DomainName :=
  [[100, 110, 115], [103, 111, 111, 103, 108, 101]]

def knownAddresses : List Ipv4 := [⟨8, 8, 8, 8⟩, ⟨8, 8, 4, 4⟩]

def timeToLive : UInt32 := 300

def knows (q : Question) : Bool :=
  q.name.same knownName && q.recordType == RecordType.a

def addressRecords : List Record :=
  knownAddresses.map fun ip => ⟨knownName, RecordType.a, internet, timeToLive, .ipv4 ip⟩

def frameFor (query : Message) (id : UInt16) (code : Nat) : Message where
  id := id
  opcode := query.opcode
  flags :=
    { response := true, authoritative := false, truncated := false
      recursionDesired := query.flags.recursionDesired
      recursionAvailable := true, authentic := false, checkingDisabled := false }
  lowCode := code
  questions := query.questions
  answers := []
  authority := []
  additional := []
  edns := none

/-- Each known question is answered; one that is not known makes the whole reply one of failure. -/
def answer (query : Message) : Message :=
  let code := if query.questions.all knows then ResponseCode.noError
    else ResponseCode.nonExistentDomain
  { frameFor query query.id code with
    answers := (query.questions.filter knows).flatMap fun _ => addressRecords }

def forgeRefused (query : Message) : Message :=
  frameFor query (query.id + 1) ResponseCode.refused

def write (m : Message) : Except Breakdown (Option Bytes) :=
  match m.write with
  | .ok bytes => .ok (some bytes)
  | .error e => .error (.unwritable e)

def reply (raw : Bytes) (manner : Manner) : Except Breakdown (Option Bytes) :=
  match manner with
  | .silent => .ok none
  | .answer =>
      match Message.read raw with
      | some query => write (answer query)
      | none => .error .unreadable
  | .forgeRefused =>
      match Message.read raw with
      | some query => write (forgeRefused query)
      | none => .error .unreadable

end Responder

end DnsOverStreams
