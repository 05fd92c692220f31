import DnsOverStreams.DomainName.Compression
import DnsOverStreams.Message.Basic
/-!
Messages to bytes. A message takes at most 65535 bytes: one whose questions do not fit is refused,
and of records that do not fit the first and all after it are left out, which the header then says.
-/

namespace DnsOverStreams

inductive WriteError where
  | name (e : NameError)
  | full
  deriving DecidableEq, Repr

namespace WriteError

def message : WriteError → String
  | .name e => e.message
  | .full => "maximum buffer size exceeded: 65535"

end WriteError

namespace Message

def maxLength : Nat := 65535

/-- Writes a name where there must be room for all its labels. -/
def writeName (known : Known) (place : Nat) (n : DomainName) : Except WriteError (Bytes × Known) :=
  if maxLength < place + n.size then .error .full
  else (DomainName.write known place n).mapError .name

def writeQuestion (known : Known) (place : Nat) (q : Question) :
    Except WriteError (Bytes × Known) := do
  let (name, known) ← writeName known place q.name
  .ok (name ++ Bytes.ofWord q.recordType ++ Bytes.ofWord q.recordClass, known)

def optionBytes (o : EdnsOption) : Bytes :=
  Bytes.ofWord o.code ++ Bytes.ofWord (UInt16.ofNat o.data.length) ++ o.data

def dataBytes : RecordData → Bytes
  | .empty => []
  | .ipv4 ip => ip.bytes
  | .ipv6 ip => ip.bytes
  | .options os => os.flatMap optionBytes
  | .raw bytes => bytes

def writeRecord (known : Known) (place : Nat) (r : Record) : Except WriteError (Bytes × Known) := do
  let (name, known) ← writeName known place r.name
  let data := dataBytes r.data
  .ok (name ++ Bytes.ofWord r.recordType ++ Bytes.ofWord r.recordClass ++ Bytes.ofLong r.ttl
    ++ Bytes.ofWord (UInt16.ofNat data.length) ++ data, known)

def writeQuestions (known : Known) (place : Nat) :
    List Question → Except WriteError (Bytes × Known)
  | [] => .ok ([], known)
  | q :: qs => do
      let (bytes, known) ← writeQuestion known place q
      if maxLength < place + bytes.length then .error .full
      else do
        let (rest, known) ← writeQuestions known (place + bytes.length) qs
        .ok (bytes ++ rest, known)

/-- Writes records as long as they fit, and says how many did. -/
def writeRecords (known : Known) (place : Nat) :
    List Record → Except WriteError (Bytes × Known × Nat)
  | [] => .ok ([], known, 0)
  | r :: rs =>
      match writeRecord known place r with
      | .error .full => .ok ([], known, 0)
      | .error e => .error e
      | .ok (bytes, later) =>
          if maxLength < place + bytes.length then .ok ([], known, 0)
          else do
            let (rest, known, count) ← writeRecords later (place + bytes.length) rs
            .ok (bytes ++ rest, known, count + 1)

def bitValue (b : Bool) (n : Nat) : Nat :=
  if b then 1 <<< n else 0

def flagsWord (m : Message) (truncated : Bool) : UInt16 :=
  UInt16.ofNat (bitValue m.flags.response 15 + m.opcode.code <<< 11
    + bitValue m.flags.authoritative 10 + bitValue (m.flags.truncated || truncated) 9
    + bitValue m.flags.recursionDesired 8 + bitValue m.flags.recursionAvailable 7
    + bitValue m.flags.authentic 5 + bitValue m.flags.checkingDisabled 4 + m.lowCode % 16)

def headerBytes (id flags : UInt16) (questions answers authority additional : Nat) : Bytes :=
  Bytes.ofWord id ++ Bytes.ofWord flags ++ Bytes.ofWord (UInt16.ofNat questions)
    ++ Bytes.ofWord (UInt16.ofNat answers) ++ Bytes.ofWord (UInt16.ofNat authority)
    ++ Bytes.ofWord (UInt16.ofNat additional)

def headerLength : Nat := 12

def lastSection (m : Message) : List Record :=
  m.additional ++ (m.edns.map Edns.toRecord).toList

def write (m : Message) : Except WriteError Bytes := do
  let (questions, known) ← writeQuestions [] headerLength m.questions
  let place := headerLength + questions.length
  let (answers, known, answerCount) ← writeRecords known place m.answers
  let place := place + answers.length
  let (authority, known, authorityCount) ← writeRecords known place m.authority
  let place := place + authority.length
  let (additional, _, additionalCount) ← writeRecords known place m.lastSection
  let truncated := answerCount < m.answers.length || authorityCount < m.authority.length
    || additionalCount < m.lastSection.length
  .ok (headerBytes m.id (m.flagsWord truncated) m.questions.length answerCount authorityCount
    additionalCount ++ questions ++ answers ++ authority ++ additional)

end Message

end DnsOverStreams
