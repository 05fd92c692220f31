import DnsOverStreams.Message.Writer
import DnsOverStreams.Protocol

namespace DnsOverStreams

/-- What a caller asks for. A payload size of zero leaves the extension data out, unless a flag is
set. -/
structure Query where
  name : String
  recordType : UInt16
  flags : UInt16
  id : UInt16
  maxSize : UInt16
  deriving DecidableEq, Repr

namespace Query

/-- The flag by which the message is padded to a whole number of blocks. -/
def paddingFlag : UInt16 := 1

/-- The flag by which signatures are asked for. -/
def dnssecFlag : UInt16 := 2

def padding (q : Query) : Bool :=
  q.flags &&& paddingFlag != 0

def dnssec (q : Query) : Bool :=
  q.flags &&& dnssecFlag != 0

def maxSizeStream : UInt16 := 65535

def maxSizeDatagram : UInt16 := 1232

def prepare (p : Protocol) (q : Query) : Query :=
  match p with
  | .tcp => { q with maxSize := maxSizeStream }
  | .tls => { q with maxSize := maxSizeStream, flags := q.flags ||| (paddingFlag ||| dnssecFlag) }
  | .quic =>
      { q with
        maxSize := maxSizeStream
        flags := q.flags ||| (paddingFlag ||| dnssecFlag)
        id := 0 }

def prepareAll (ps : List Protocol) (q : Query) : Query :=
  ps.foldl (fun q p => q.prepare p) q

def hasEdns (q : Query) : Bool :=
  q.maxSize != 0 || q.flags != 0

def edns (q : Query) (options : List EdnsOption) : Edns where
  highCode := 0
  version := 0
  dnssecOk := q.dnssec
  maxPayload := max q.maxSize Edns.minPayload
  options := options

def messageFor (q : Query) (name : DomainName) (options : List EdnsOption) : Message where
  id := q.id
  opcode := .query
  flags :=
    { response := false, authoritative := false, truncated := false, recursionDesired := true
      recursionAvailable := false, authentic := false, checkingDisabled := false }
  lowCode := 0
  questions := [⟨name, q.recordType, internet⟩]
  answers := []
  authority := []
  additional := []
  edns := if q.hasEdns then some (q.edns options) else none

def paddingCode : UInt16 := 12

def optionHeader : Nat := 4

def block : Nat := 128

/-- The zero bytes that a message of this length is still to be given, with their option. -/
def paddingFor (length : Nat) : Nat :=
  (block - (length + optionHeader) % block) % block

def paddingOption (length : Nat) : EdnsOption :=
  ⟨paddingCode, List.replicate (paddingFor length) 0⟩

/-- The message of a query. Its name is made absolute here, for which a list of labels needs no change,
so that a dot at the end of the text makes no difference. -/
def message (q : Query) : Except WriteError Message := do
  let name ← (DomainName.ofText q.name.toList).mapError .name
  if q.padding then do
    let bytes ← (q.messageFor name []).write
    .ok (q.messageFor name [paddingOption bytes.length])
  else .ok (q.messageFor name [])

def pack (q : Query) : Except WriteError Bytes := do
  let m ← q.message
  m.write

end Query

end DnsOverStreams
