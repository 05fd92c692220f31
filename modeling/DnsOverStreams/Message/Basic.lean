import DnsOverStreams.Address.Ip
import DnsOverStreams.DomainName.Basic
/-!
Messages: a header, questions, three sections of records, and the extension data that one record of
the last section carries.
-/

namespace DnsOverStreams

inductive Opcode where
  | query
  | status
  | notify
  | update
  deriving DecidableEq, Repr

namespace Opcode

def code : Opcode → Nat
  | .query => 0
  | .status => 2
  | .notify => 4
  | .update => 5

def ofCode? : Nat → Option Opcode
  | 0 => some .query
  | 2 => some .status
  | 4 => some .notify
  | 5 => some .update
  | _ => none

theorem ofCode?_code (o : Opcode) : ofCode? o.code = some o := by
  cases o <;> rfl

end Opcode

namespace RecordType

def zero : UInt16 := 0
def a : UInt16 := 1
def ns : UInt16 := 2
def cname : UInt16 := 5
def soa : UInt16 := 6
def ptr : UInt16 := 12
def hinfo : UInt16 := 13
def mx : UInt16 := 15
def txt : UInt16 := 16
def aaaa : UInt16 := 28
def srv : UInt16 := 33
def naptr : UInt16 := 35
def opt : UInt16 := 41
def sshfp : UInt16 := 44
def tlsa : UInt16 := 52
def csync : UInt16 := 62
def svcb : UInt16 := 64
def https : UInt16 := 65
def ixfr : UInt16 := 251
def axfr : UInt16 := 252
def any : UInt16 := 255
def caa : UInt16 := 257
def aname : UInt16 := 65305

end RecordType

def internet : UInt16 := 1

structure Question where
  name : DomainName
  recordType : UInt16
  recordClass : UInt16
  deriving DecidableEq, Repr

def Question.same (p q : Question) : Bool :=
  p.name.same q.name && p.recordType == q.recordType && p.recordClass == q.recordClass

theorem Question.same_iff {p q : Question} :
    p.same q = true ↔
      p.name.same q.name = true ∧ p.recordType = q.recordType ∧ p.recordClass = q.recordClass := by
  simp [Question.same, and_assoc]

structure EdnsOption where
  code : UInt16
  data : Bytes
  deriving DecidableEq, Repr

inductive RecordData where
  | empty
  | ipv4 (address : Ipv4)
  | ipv6 (address : Ipv6)
  | options (options : List EdnsOption)
  | raw (bytes : Bytes)
  deriving DecidableEq, Repr

structure Record where
  name : DomainName
  recordType : UInt16
  recordClass : UInt16
  ttl : UInt32
  data : RecordData
  deriving DecidableEq, Repr

/-- The extension data of a message. `highCode` holds the upper eight bits of the response code. -/
structure Edns where
  highCode : Nat
  version : Nat
  dnssecOk : Bool
  maxPayload : UInt16
  options : List EdnsOption
  deriving DecidableEq, Repr

namespace Edns

def minPayload : UInt16 := 512

def ofRecord (r : Record) : Edns where
  highCode := r.ttl.toNat >>> 24
  version := r.ttl.toNat >>> 16 % 256
  dnssecOk := r.ttl.toNat >>> 15 % 2 == 1
  maxPayload := max r.recordClass minPayload
  options := match r.data with
    | .options os => os
    | _ => []

def toRecord (e : Edns) : Record where
  name := DomainName.root
  recordType := RecordType.opt
  recordClass := e.maxPayload
  ttl := UInt32.ofNat (e.highCode <<< 24 + e.version <<< 16 + if e.dnssecOk then 1 <<< 15 else 0)
  data := .options e.options

end Edns

structure Flags where
  response : Bool
  authoritative : Bool
  truncated : Bool
  recursionDesired : Bool
  recursionAvailable : Bool
  authentic : Bool
  checkingDisabled : Bool
  deriving DecidableEq, Repr

/-- A message. `lowCode` is the part of the response code that the header holds, and `additional`
does not contain the record that `edns` was read from. -/
structure Message where
  id : UInt16
  opcode : Opcode
  flags : Flags
  lowCode : Nat
  questions : List Question
  answers : List Record
  authority : List Record
  additional : List Record
  edns : Option Edns
  deriving DecidableEq, Repr

namespace Message

/-- The response code, of twelve bits if there is extension data and of four if there is none. -/
def responseCode (m : Message) : Nat :=
  match m.edns with
  | some e => e.highCode * 16 + m.lowCode
  | none => m.lowCode

def sameQuestions : List Question → List Question → Bool
  | [], [] => true
  | p :: ps, q :: qs => p.same q && sameQuestions ps qs
  | _, _ => false

theorem sameQuestions_refl (qs : List Question) : sameQuestions qs qs = true := by
  induction qs with
  | nil => rfl
  | cons q qs ih => simp [sameQuestions, Question.same, DomainName.same_refl, ih]

theorem sameQuestions_length {ps qs : List Question} (h : sameQuestions ps qs = true) :
    ps.length = qs.length := by
  induction ps generalizing qs with
  | nil => cases qs <;> simp_all [sameQuestions]
  | cons p ps ih =>
      cases qs with
      | nil => simp [sameQuestions] at h
      | cons q qs =>
          simp only [sameQuestions, Bool.and_eq_true] at h
          simpa using ih h.2

end Message

end DnsOverStreams
