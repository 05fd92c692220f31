import DnsOverStreams.Address.Text
import DnsOverStreams.Document.Toml
import DnsOverStreams.Protocol
/-!
The settings of a transport, as they are read from a document. A document has no other keys than those
of the settings.
-/

namespace DnsOverStreams

structure Settings where
  protocol : Protocol
  endpoint : SocketAddress
  serverName : Option String
  bindAddress : Option SocketAddress
  deriving DecidableEq, Repr

inductive Language where
  | toml
  | json
  deriving DecidableEq, Repr

def Language.isEmpty : Language → Value → Bool
  | .toml, .table _ [] => true
  | .toml, .list [] => true
  | .json, .null => true
  | _, _ => false

namespace Settings

def keys : List String := ["protocol", "endpoint", "server_name", "bind_addr"]

/-- A protocol is its word, or a table in which the word stands for nothing but itself. -/
def protocol? (n : Language) : Value → Option Protocol
  | .text word => Protocol.ofWord? word
  | .table _ [(word, v)] => if n.isEmpty v then Protocol.ofWord? word else none
  | _ => none

def text? : Value → Option String
  | .text s => some s
  | _ => none

def address? (v : Value) : Option SocketAddress :=
  (text? v).bind SocketAddress.ofText?

def optional {α : Type} (es : Entries) (key : String) (read : Value → Option α) :
    Option (Option α) :=
  match Entries.get? es key with
  | none => some none
  | some .null => some none
  | some v => (read v).map some

def ofEntries? (n : Language) (es : Entries) : Option Settings := do
  if es.any fun e => !keys.contains e.1 then none
  let protocol ← (Entries.get? es "protocol").bind (protocol? n)
  let endpoint ← (Entries.get? es "endpoint").bind address?
  let serverName ← optional es "server_name" text?
  let bindAddress ← optional es "bind_addr" address?
  return ⟨protocol, endpoint, serverName, bindAddress⟩

def ofToml? (text : String) : Option Settings :=
  (Toml.document? text).bind (ofEntries? .toml)

end Settings

end DnsOverStreams
