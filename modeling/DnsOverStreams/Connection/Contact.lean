import DnsOverStreams.Connection.Basic
import DnsOverStreams.Connection.Peer
/-!
A connection together with its other end, in the course of time. Time passes only when neither end can
go on: it then jumps to the next time at which the peer wakes up or the operation under way runs out
of time.
-/

namespace DnsOverStreams

structure Contact where
  connection : Connection
  peer : Peer
  deriving DecidableEq, Repr

namespace Operation

def unwritten : Operation → Nat
  | .read _ => 0
  | .write _ rest => rest.length

end Operation

namespace Connection

def unwritten (c : Connection) : Nat :=
  c.queue.foldr (·.operation.unwritten + ·) 0

def due (c : Connection) : Option Time :=
  c.queue.head?.bind (·.deadline)

end Connection

namespace Contact

def opened (capacity : Nat) (shutdown : Option IoFailure) (now : Time) (script : List PeerStep) :
    Contact :=
  ⟨{ Connection.opened capacity shutdown with now := now }, Peer.start script⟩

def outcome? (notices : List Notice) : Option Outcome :=
  notices.findSome? fun
    | .ended _ o => some o
    | _ => none

def peerTurn (x : Contact) : Contact :=
  let (link, peer) := x.peer.act x.connection.now x.connection.link.flip
  ⟨{ x.connection with link := link.flip }, peer⟩

/-- Whether the peer could go on now, as its last turn was cut short. -/
def peerBusy (x : Contact) : Bool :=
  x.peer.presence == .busy

theorem ahead_peerTurn (x : Contact) : Peer.NoMore x.peerTurn.peer.ahead x.peer.ahead :=
  x.peer.ahead_act x.connection.now x.connection.link.flip

theorem ahead_peerTurn_of_busy {x : Contact} (h : x.peerTurn.peerBusy) :
    Peer.Fewer x.peerTurn.peer.ahead x.peer.ahead :=
  Peer.ahead_act_of_busy (eq_of_beq h)

def peerActs (x : Contact) : Contact :=
  if _h : x.peerTurn.peerBusy then peerActs x.peerTurn else x.peerTurn
termination_by x.peer.ahead
decreasing_by
  have := ahead_peerTurn_of_busy _h
  simpa only [Prod.lex_def, Peer.Fewer] using this

/-- The peer and the operation under way take turns, as long as that goes on without time passing. -/
def takeTurns (x : Contact) : Contact × Option Outcome :=
  let y := x.peerTurn
  let settled := y.connection.settle
  match outcome? settled.2 with
  | some o => (⟨settled.1, y.peer⟩, some o)
  | none =>
      if y.peerBusy ∨ settled.1.unwritten < x.connection.unwritten then
        takeTurns ⟨settled.1, y.peer⟩
      else (⟨settled.1, y.peer⟩, none)
termination_by (x.peer.ahead, x.connection.unwritten)
decreasing_by
  rename_i h
  have hmore := ahead_peerTurn x
  simp only [settled, y] at h
  simp only [Prod.lex_def, Prod.ext_iff]
  rcases h with h | h
  · have := ahead_peerTurn_of_busy h
    simp only [Peer.Fewer] at this
    omega
  · simp only [Peer.NoMore] at hmore
    omega

theorem ahead_takeTurns (x : Contact) : Peer.NoMore x.takeTurns.1.peer.ahead x.peer.ahead := by
  fun_induction takeTurns x with
  | case1 x y settled o h => exact ahead_peerTurn x
  | case2 x y settled h hmore ih =>
      have := ahead_peerTurn x
      simp only [Peer.NoMore, y] at *
      omega
  | case3 x y settled h hmore => exact ahead_peerTurn x

inductive Next where
  | due (time : Time)
  | wake (time : Time)
  deriving DecidableEq, Repr

def next? (x : Contact) : Option Next :=
  match x.connection.due, x.peer.alarm with
  | some d, some w => some (if d ≤ w then .due d else .wake w)
  | some d, none => some (.due d)
  | none, some w => some (.wake w)
  | none, none => none

theorem alarm_of_next? {x : Contact} {time : Time} (h : x.next? = some (.wake time)) :
    x.peer.alarm = some time := by
  unfold next? at h
  split at h
  · split at h <;> simp_all
  · simp at h
  · simp_all
  · simp at h

def wake (x : Contact) (time : Time) : Contact :=
  ⟨{ x.connection with now := time }, x.peer.roused⟩

/-- Waits for the operation under way, up to a time if one is given. Without an operation, the peer
goes on alone. -/
def wait (limit : Option Time) (x : Contact) : Contact × Option Outcome :=
  match _hx : x.takeTurns with
  | (y, some o) => (y, some o)
  | (y, none) =>
      match _hn : y.next? with
      | none => (y, none)
      | some (.due time) =>
          if limit.any (· ≤ time) then (y, none)
          else
            let settled := (y.connection.advance (time - y.connection.now)).settle
            (⟨settled.1, y.peer⟩, outcome? settled.2)
      | some (.wake time) =>
          if limit.any (· ≤ time) then (y, none) else wait limit (y.wake time)
termination_by x.peer.ahead
decreasing_by
  have hr := Peer.ahead_roused (alarm_of_next? _hn)
  have ht := ahead_takeTurns x
  simp only [Peer.NoMore, Peer.Fewer, _hx] at ht hr
  simp only [wake, Prod.lex_def]
  omega

/-- The contact at a later time, when all is done that was done before it. What the peer does at that
very time is still to come. -/
def atTime (x : Contact) (time : Time) : Contact :=
  if x.connection.now < time then
    let y := (x.wait (some time)).1
    { y with connection := { y.connection with now := time } }
  else x

def turnedAt (x : Contact) (time : Time) : Contact :=
  (x.atTime time).peerTurn

def settledAt (x : Contact) (time : Time) : Contact :=
  (x.atTime time).peerActs

/-- The contact at a later moment. Everybody has had one turn by the time a moment is settled. -/
def atMoment (x : Contact) (m : Moment) : Contact :=
  if m.settled then x.turnedAt m.time else x.atTime m.time

def stream (x : Contact) : Nat :=
  x.connection.deadlines.length - 1

def openStream (x : Contact) : Contact :=
  { x with connection := x.connection.openStream }

def setDeadline (x : Contact) (deadline : Option Time) : Contact :=
  { x with connection := x.connection.setDeadline x.stream deadline }

def abort (x : Contact) : Contact :=
  { x with connection := (Connection.settleAfter (x.connection.abort x.stream)).1 }

/-- How an operation on the latest stream goes: whether it ends at once, or what comes of waiting. -/
def start (x : Contact) (op : Operation) : Contact × Option Outcome :=
  let started := Connection.settleAfter (x.connection.start x.stream op)
  ({ x with connection := started.1 }, outcome? started.2)

def close (x : Contact) : Contact × Except Failure Unit :=
  let closed := x.connection.close.settle
  let result := closed.2.findSome? fun
    | .closed _ r => some r
    | _ => none
  ({ x with connection := closed.1 }, result.getD (.ok ()))

end Contact

end DnsOverStreams
