namespace DnsOverStreams

inductive IoKind where
  | notFound
  | permissionDenied
  | connectionRefused
  | connectionReset
  | hostUnreachable
  | networkUnreachable
  | connectionAborted
  | notConnected
  | addrInUse
  | addrNotAvailable
  | networkDown
  | brokenPipe
  | alreadyExists
  | wouldBlock
  | invalidInput
  | invalidData
  | timedOut
  | writeZero
  | resourceBusy
  | interrupted
  | unsupported
  | unexpectedEof
  | outOfMemory
  | other
  deriving DecidableEq, Repr

structure IoFailure where
  kind : IoKind
  text : String
  deriving DecidableEq, Repr

namespace IoKind

def all : List IoKind :=
  [.notFound, .permissionDenied, .connectionRefused, .connectionReset, .hostUnreachable,
    .networkUnreachable, .connectionAborted, .notConnected, .addrInUse, .addrNotAvailable,
    .networkDown, .brokenPipe, .alreadyExists, .wouldBlock, .invalidInput, .invalidData, .timedOut,
    .writeZero, .resourceBusy, .interrupted, .unsupported, .unexpectedEof, .outOfMemory, .other]

def word : IoKind → String
  | .notFound => "NotFound"
  | .permissionDenied => "PermissionDenied"
  | .connectionRefused => "ConnectionRefused"
  | .connectionReset => "ConnectionReset"
  | .hostUnreachable => "HostUnreachable"
  | .networkUnreachable => "NetworkUnreachable"
  | .connectionAborted => "ConnectionAborted"
  | .notConnected => "NotConnected"
  | .addrInUse => "AddrInUse"
  | .addrNotAvailable => "AddrNotAvailable"
  | .networkDown => "NetworkDown"
  | .brokenPipe => "BrokenPipe"
  | .alreadyExists => "AlreadyExists"
  | .wouldBlock => "WouldBlock"
  | .invalidInput => "InvalidInput"
  | .invalidData => "InvalidData"
  | .timedOut => "TimedOut"
  | .writeZero => "WriteZero"
  | .resourceBusy => "ResourceBusy"
  | .interrupted => "Interrupted"
  | .unsupported => "Unsupported"
  | .unexpectedEof => "UnexpectedEof"
  | .outOfMemory => "OutOfMemory"
  | .other => "Other"

def ofWord? (text : String) : Option IoKind :=
  all.find? (·.word == text)

end IoKind

namespace IoFailure

def notConnected : IoFailure := ⟨.notConnected, "connection already closed"⟩

def deadline : IoFailure := ⟨.timedOut, "stream deadline exceeded"⟩

def brokenPipe : IoFailure := ⟨.brokenPipe, "broken pipe"⟩

def networkUnreachable : IoFailure := ⟨.networkUnreachable, "network unreachable"⟩

def unexpectedEnd (got whole : Nat) : IoFailure :=
  ⟨.unexpectedEof,
    "stream closed after " ++ toString got ++ " of " ++ toString whole ++ " bytes"⟩

def shortWrite (written whole : Nat) : IoFailure :=
  ⟨.writeZero, "short write: " ++ toString written ++ " of " ++ toString whole ++ " bytes"⟩

end IoFailure

end DnsOverStreams
