import DnsOverStreams.ServerName
import DnsOverStreams.Settings.Basic
/-!
Transports: an endpoint and the way to it. What is set up for a transport beforehand can fail.
-/

namespace DnsOverStreams

/-- The way to an endpoint, with the local address it starts from. Over QUIC the name of the server is
looked at only when a connection is dialed. -/
inductive Route where
  | tcp (source : Option SocketAddress)
  | tls (source : Option SocketAddress) (server : ServerName)
  | quic (source : SocketAddress) (server : String)
  deriving DecidableEq, Repr

structure Transport where
  endpoint : SocketAddress
  route : Route
  deriving DecidableEq, Repr

namespace Transport

def text (t : Transport) : String :=
  "Transport \x7b endpoint: " ++ t.endpoint.text ++ ", .. \x7d"

def tls (server : String) (endpoint : SocketAddress) : Except Failure Transport :=
  match ServerName.parse server with
  | .ok name => .ok ⟨endpoint, .tls none name⟩
  | .error e => .error e

end Transport

inductive BuildFailure where
  | missingServerName (protocol : Protocol)
  | transport (cause : Failure)
  | bind (cause : IoFailure)
  deriving DecidableEq, Repr

namespace BuildFailure

def message : BuildFailure → String
  | missingServerName protocol => "server_name is required for " ++ protocol.word
  | transport cause => "failed to build transport: " ++ cause.message
  | bind cause => "io error: " ++ cause.text

end BuildFailure

namespace Settings

def requiredServerName (s : Settings) : Except BuildFailure String :=
  match s.serverName with
  | some name => .ok name
  | none => .error (.missingServerName s.protocol)

def datagramSource (s : Settings) : SocketAddress :=
  s.bindAddress.getD s.endpoint.unspecified

/-- The transport that the settings describe, on a host that binds local addresses or does not. -/
def build (bind : SocketAddress → Except IoFailure Unit) (s : Settings) :
    Except BuildFailure Transport :=
  match s.protocol with
  | .tcp => .ok ⟨s.endpoint, .tcp s.bindAddress⟩
  | .tls => do
      let name ← s.requiredServerName
      let server ← (ServerName.parse name).mapError .transport
      return ⟨s.endpoint, .tls s.bindAddress server⟩
  | .quic => do
      (bind s.datagramSource).mapError .bind
      let name ← s.requiredServerName
      return ⟨s.endpoint, .quic s.datagramSource name⟩

end Settings

end DnsOverStreams
