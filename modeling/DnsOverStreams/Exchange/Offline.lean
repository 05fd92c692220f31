import DnsOverStreams.Exchange.Basic
import DnsOverStreams.ServerName
/-!
Exchanges on a host that reaches no network. A connection over TCP is refused at once. Datagrams get
lost without a word, so dialing over QUIC goes on until its scope ends, unless the name of the server
is none.
-/

namespace DnsOverStreams

namespace Offline

def dial (p : Protocol) (server : String) : Call Unit (Except Failure Unit) :=
  match p with
  | .tcp => .instant (.error (.ofIo .networkUnreachable)) ()
  | .tls => .instant (.error (.ofIo .networkUnreachable)) ()
  | .quic =>
      match ServerName.ofText? server with
      | some _ => ⟨.never, .error (.ofIo .networkUnreachable), (), fun _ => (), []⟩
      | none => .instant (.error (.quicConnect ("invalid server name: " ++ server))) ()

def counterpart (p : Protocol) (server : String) : Counterpart Unit :=
  fun _ _ request =>
    match request with
    | .dial => dial p server
    | request => .instant (request.unconnected p) ()

end Offline

end DnsOverStreams
