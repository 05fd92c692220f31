import DnsOverStreams.Connection.Contact
import DnsOverStreams.Exchange.Basic
/-!
Exchanges over connections to peers that go by scripts. Every connection that is dialed has a peer of
its own, with the next script; the last script serves for all further ones.
-/

namespace DnsOverStreams

structure Network where
  protocol : Protocol
  capacity : Nat
  shutdown : Option IoFailure
  dialDelay : Nat
  dialFailure : Option IoFailure
  scripts : List (List PeerStep)
  cancelOnQuery : List Token
  cancelOnReply : List Token

abbrev Contacts := List Contact

namespace Contact

/-- The contact when the operation under way is given up, at a moment or else before it waits. -/
def givenUpAt (x : Contact) : Option Moment → Contact
  | some m => (x.atMoment m).abort
  | none => x.abort

/-- The call of an operation on the latest stream. One that never ends has no outcome, so any one
stands for it. -/
def operate {α : Type} (x : Contact) (now : Moment) (op : Operation) (result : Outcome → α) :
    Call Contact α :=
  match (x.atTime now.time).start op with
  | (y, some o) => .instant (result o) y
  | (y, none) =>
      let waited := y.wait none
      { delay :=
          if waited.2.isSome then .answered (waited.1.connection.now - now.time) else .never
        answer := result (waited.2.getD (.failed .notConnected))
        state := waited.1
        abandoned := y.givenUpAt
        cancels := [] }

/-- The connection just before a helper closes it. The peer has a turn before the helper, except when
the helper acts because the deadline has come: it set its clock when the peer had come, so of all that
the peer set its clock for, it comes behind the first only. -/
def beforeClosing (x : Contact) (time : Time) : Occasion → Contact
  | .done => x.turnedAt time
  | .deadline => if x.peer.firstAlarm = some time then x.turnedAt time else x.atTime time

def closedAt (x : Contact) (time : Time) (occasion : Occasion) : Contact × Closing :=
  match (x.beforeClosing time occasion).close with
  | (y, .ok ()) => (y, .closed)
  | (y, .error e) => (y, .failed e)

end Contact

namespace Outcome

def written : Outcome → Except IoFailure Nat
  | .wrote count => .ok count
  | .got _ => .ok 0
  | .failed e => .error e

def read : Outcome → Except IoFailure Bytes
  | .got bytes => .ok bytes
  | .wrote _ => .ok []
  | .failed e => .error e

end Outcome

namespace Network

def script (net : Network) (others : Nat) : List PeerStep :=
  (net.scripts[others]?).getD (net.scripts.getLast?.getD [])

def connect (net : Network) (contacts : Contacts) (time : Time) : Contacts :=
  Contact.opened net.capacity net.shutdown time (net.script contacts.length) :: contacts

def dial (net : Network) (now : Moment) (contacts : Contacts) :
    Call Contacts (Except Failure Unit) :=
  let call (answer : Except Failure Unit) (state : Contacts) : Call Contacts (Except Failure Unit) :=
    ⟨Delay.ofMs net.dialDelay, answer, state, fun _ => contacts, []⟩
  match net.dialFailure with
  | some e => call (.error (.ofIo e)) contacts
  | none => call (.ok ()) (net.connect contacts (now.time + net.dialDelay))

def onLatest (net : Network) (now : Moment) (x : Contact) :
    (r : Request) → Call Contact r.Answer
  | .dial => .instant (.ok ()) x
  | .openStream => .instant (.ok ()) x.openStream
  | .setDeadline deadline => .instant (.ok ()) (x.setDeadline deadline)
  | .prepare query => .instant (query.prepare net.protocol) x
  | .write frame => x.operate now (.write [] frame) Outcome.written
  | .showQuery _ => { Call.instant () x with cancels := net.cancelOnQuery }
  | .closeStream => .instant (.ok ()) x
  | .read room => x.operate now (.read room) Outcome.read
  | .showReply _ => { Call.instant () x with cancels := net.cancelOnReply }
  | .closeConnection occasion =>
      let closed := x.closedAt now.time occasion
      .instant closed.2 closed.1

def counterpart (net : Network) : Counterpart Contacts :=
  fun now contacts request =>
    match request, contacts with
    | .dial, _ => net.dial now contacts
    | request, x :: former => (net.onLatest now x request).within (· :: former)
    | request, [] => .instant (request.unconnected net.protocol) []

end Network

namespace Contacts

def settledAt (contacts : Contacts) (time : Time) : Contacts :=
  contacts.map (·.settledAt time)

def closeLatest : Nat → Contacts → Contacts × List (Except Failure Unit)
  | n + 1, x :: former =>
      let closed := x.close
      let rest := closeLatest n (closed.1 :: former)
      (rest.1, closed.2 :: rest.2)
  | _, contacts => (contacts, [])

end Contacts

end DnsOverStreams
