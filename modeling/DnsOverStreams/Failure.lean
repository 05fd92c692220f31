import DnsOverStreams.Frame
import DnsOverStreams.IoFailure
import DnsOverStreams.Message.Writer

namespace DnsOverStreams

inductive InvalidReply where
  | malformed
  | notAReply
  | idMismatch (expected actual : UInt16)
  | opcodeMismatch
  | questionMismatch
  deriving DecidableEq, Repr

namespace InvalidReply

def message : InvalidReply → String
  | .malformed => "malformed message"
  | .notAReply => "message is not a response"
  | .idMismatch expected actual =>
      "id mismatch, expected: " ++ toString expected.toNat ++ " got: " ++ toString actual.toNat
  | .opcodeMismatch => "op code mismatch"
  | .questionMismatch => "question section does not match the query"

end InvalidReply

namespace ResponseCode

def noError : Nat := 0
def nonExistentDomain : Nat := 3
def refused : Nat := 5

def text : Nat → String
  | 0 => "No Error"
  | 1 => "Form Error"
  | 2 => "Server Failure"
  | 3 => "Non-Existent Domain"
  | 4 => "Not Implemented"
  | 5 => "Query Refused"
  | 6 => "Name should not exist"
  | 7 => "RR Set should not exist"
  | 8 => "RR Set does not exist"
  | 9 => "Not authorized"
  | 10 => "Name not in zone"
  | 16 => "TSIG Failure"
  | 17 => "Key not recognized"
  | 18 => "Signature out of time window"
  | 19 => "Bad TKEY mode"
  | 20 => "Duplicate key name"
  | 21 => "Algorithm not supported"
  | 22 => "Bad truncation"
  | 23 => "Bad server cookie"
  | _ => "Unknown response code"

end ResponseCode

inductive Failure where
  | canceled
  | deadlineExceeded
  | timeout
  | invalidReply (cause : InvalidReply)
  | notice (text : String)
  | report (text : String)
  | noData
  | encoding (cause : WriteError)
  | oversize (cause : Oversize)
  | responseCode (code : Nat)
  | io (cause : IoFailure)
  | quicConnect (text : String)
  | quicConnection (text : String)
  | quicSuites
  deriving DecidableEq, Repr

namespace Failure

def message : Failure → String
  | .canceled => "operation canceled"
  | .deadlineExceeded => "context deadline exceeded"
  | .timeout => "request timed out"
  | .invalidReply cause => "invalid response: " ++ cause.message
  | .notice text => text
  | .report text => text
  | .noData => "no data in response"
  | .encoding cause => "protocol error: " ++ cause.message
  | .oversize cause => cause.message
  | .responseCode code => "error response: " ++ ResponseCode.text code
  | .io cause => "io error: " ++ cause.text
  | .quicConnect text => "error creating quic connection: " ++ text
  | .quicConnection text => "error with quic connection: " ++ text
  | .quicSuites => "QUIC TLS config must include an AES-128-GCM cipher suite"

/-- A failure of input or output that ran out of time is told apart from all others. -/
def ofIo (e : IoFailure) : Failure :=
  if e.kind = .timedOut then .timeout else .io e

def isCanceled : Failure → Bool
  | .canceled => true
  | .deadlineExceeded => true
  | _ => false

def isInvalidReply : Failure → Bool
  | .invalidReply _ => true
  | _ => false

def io? : Failure → Option IoFailure
  | .io cause => some cause
  | _ => none

theorem ofIo_not_canceled (e : IoFailure) : (ofIo e).isCanceled = false := by
  unfold ofIo
  split <;> rfl

end Failure

end DnsOverStreams
