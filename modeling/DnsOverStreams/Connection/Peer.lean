import DnsOverStreams.Connection.Pipe
import DnsOverStreams.Frame
import DnsOverStreams.Scope.Basic
import DnsOverStreams.Sketch
/-!
The other end of a connection, going by a script. After the last step it reads until the end. Whatever
goes wrong makes it leave. It acts in turns, and a turn that would go on for too long is cut short: the
peer then goes on with the next one, but others come first.
-/

namespace DnsOverStreams

inductive PeerStep where
  | takeQuery
  | reply (frame : FrameSketch) (chunk : Option Nat) (pause : Nat)
  | send (bytes : Bytes)
  | sleep (ms : Nat)
  | leave
  deriving DecidableEq, Repr

inductive Move where
  | takeHeader
  | takeBody
  | put (bytes : Bytes)
  | pause (ms : Nat)
  | sleepUntil (time : Time)
  | leave
  deriving DecidableEq, Repr

/-- What a peer has read: the part of a unit that is not complete, the length that the last header
announced, the last body, and all that it took. -/
structure Intake where
  part : Bytes
  announced : Nat
  query : Bytes
  received : Bytes
  deriving DecidableEq, Repr

/-- How a peer stands: it is to have its first turn, it waits, it has woken up, its last turn was cut
short, it has left, or it has left because nothing more would come. -/
inductive Presence where
  | coming
  | waiting
  | awake
  | busy
  | left
  | sawEnd
  deriving DecidableEq, Repr

/-- A peer: what it is still to do, what it has read, and the time for which it set its clock when it
came, if it did. -/
structure Peer where
  script : List PeerStep
  moves : List Move
  intake : Intake
  presence : Presence
  firstAlarm : Option Time
  deriving DecidableEq, Repr

inductive Moved where
  | completed
  | waiting (rest : Move)
  | over
  deriving DecidableEq, Repr

def pieces (size : Nat) : Bytes → List Bytes
  | [] => []
  | b :: bs => (b :: bs.take (size - 1)) :: pieces size (bs.drop (size - 1))
termination_by bs => bs.length
decreasing_by
  simp only [List.length_drop, List.length_cons]
  omega

theorem flatten_pieces (size : Nat) (bs : Bytes) : (pieces size bs).flatten = bs := by
  induction bs using pieces.induct size with
  | case1 => simp [pieces]
  | case2 b bs ih => simp [pieces, ih]

namespace PeerStep

def moves (query : Bytes) : PeerStep → List Move
  | .takeQuery => [.takeHeader, .takeBody]
  | .reply frame none _ => [.put (frame.bytes query)]
  | .reply frame (some size) ms =>
      (pieces size (frame.bytes query)).flatMap fun piece => [.put piece, .pause ms]
  | .send bytes => [.put bytes]
  | .sleep ms => [.pause ms]
  | .leave => [.leave]

end PeerStep

namespace Intake

def empty : Intake := ⟨[], 0, [], []⟩

/-- Adds what there is to a unit of so many bytes. The link is seen from the peer. -/
def gather (i : Intake) (length : Nat) (l : Link) : Link × Intake :=
  let front := l.incoming.content.take (length - i.part.length)
  ({ l with incoming := l.incoming.drop front.length }, { i with part := i.part ++ front })

def takeHeader (i : Intake) : Intake :=
  { i with part := [], announced := Frame.announced i.part, received := i.received ++ i.part }

def takeBody (i : Intake) : Intake :=
  { i with part := [], query := i.part, received := i.received ++ i.part }

def drain (i : Intake) (l : Link) : Link × Intake :=
  ({ l with incoming := l.incoming.drop l.incoming.content.length },
    { i with received := i.received ++ l.incoming.content })

end Intake

namespace Move

/-- The operations that a move takes, which is none if there is nothing to read, write or wait for. -/
def cost (i : Intake) : Move → Nat
  | .takeHeader => 1
  | .takeBody => if i.announced = 0 then 0 else 1
  | .put bytes => if bytes = [] then 0 else 1
  | .pause ms => if ms = 0 then 0 else 1
  | .sleepUntil _ => 1
  | .leave => 0

theorem cost_le_one (i : Intake) (m : Move) : m.cost i ≤ 1 := by
  unfold cost
  split <;> (try split) <;> omega

def read (l : Link) (i : Intake) (length : Nat) (whole : Intake → Intake) (self : Move) :
    Link × Intake × Moved :=
  let (l, i) := i.gather length l
  if i.part.length = length then (l, whole i, .completed)
  else if l.incoming.closed then (l, i, .over)
  else (l, i, .waiting self)

def attempt (now : Time) (l : Link) (i : Intake) : Move → Link × Intake × Moved
  | .takeHeader => read l i Frame.headerLength Intake.takeHeader .takeHeader
  | .takeBody => read l i i.announced Intake.takeBody .takeBody
  | .put bytes =>
      let a := (Operation.write [] bytes).attempt l
      match a.result with
      | .inl (.failed _) => (a.link, i, .over)
      | .inl _ => (a.link, i, .completed)
      | .inr (.write _ rest) => (a.link, i, .waiting (.put rest))
      | .inr (.read _) => (a.link, i, .completed)
  | .pause ms => (l, i, if ms = 0 then .completed else .waiting (.sleepUntil (now + ms)))
  | .sleepUntil time => (l, i, if time ≤ now then .completed else .waiting (.sleepUntil time))
  | .leave => (l, i, .over)

end Move

namespace Peer

/-- The number of operations that a peer can make in one turn. -/
def turnLimit : Nat := 128

def start (script : List PeerStep) : Peer :=
  ⟨script, [], .empty, .coming, none⟩

def finish (l : Link) (i : Intake) : Link × Peer :=
  let (l, i) := i.drain l
  if l.incoming.closed then (l.close, ⟨[], [], i, .sawEnd, none⟩)
  else (l, ⟨[], [], i, .waiting, none⟩)

/-- Makes all moves that can be made now with the operations that are allowed. The link is seen from
the peer. -/
def proceed (now : Time) (allowed : Nat) :
    List PeerStep → List Move → Link → Intake → Link × Peer
  | [], [], l, i => finish l i
  | s :: ss, [], l, i => proceed now allowed ss (s.moves i.query) l i
  | ss, m :: ms, l, i =>
      if m.cost i ≤ allowed then
        match m.attempt now l i with
        | (l, j, .completed) => proceed now (allowed - m.cost i) ss ms l j
        | (l, j, .waiting m) => (l, ⟨ss, m :: ms, j, .waiting, none⟩)
        | (l, j, .over) => (l.close, ⟨[], [], j, .left, none⟩)
      else (l, ⟨ss, m :: ms, i, .busy, none⟩)
termination_by ss ms => (ss.length, ms.length)

def alarm (p : Peer) : Option Time :=
  match p.moves with
  | .sleepUntil time :: _ => some time
  | _ => none

/-- The number of operations that the next turn allows. Waking up was one of them. -/
def allowance (p : Peer) : Nat :=
  if p.presence = .awake then turnLimit - 1 else turnLimit

theorem allowance_pos (p : Peer) : 0 < p.allowance := by
  unfold allowance turnLimit
  split <;> omega

def act (now : Time) (l : Link) (p : Peer) : Link × Peer :=
  match p.presence with
  | .left | .sawEnd => (l, p)
  | presence =>
      let (l, q) := proceed now p.allowance p.script p.moves l p.intake
      (l, { q with firstAlarm := if presence = .coming then q.alarm else p.firstAlarm })

def roused (p : Peer) : Peer :=
  { p with moves := p.moves.tail, presence := .awake }

def ahead (p : Peer) : Nat × Nat :=
  (p.script.length, p.moves.length)

def NoMore (x y : Nat × Nat) : Prop :=
  x.1 < y.1 ∨ x.1 = y.1 ∧ x.2 ≤ y.2

def Fewer (x y : Nat × Nat) : Prop :=
  x.1 < y.1 ∨ x.1 = y.1 ∧ x.2 < y.2

theorem ahead_finish (l : Link) (i : Intake) : (finish l i).2.ahead = (0, 0) := by
  unfold finish
  split
  split <;> rfl

theorem presence_finish (l : Link) (i : Intake) : (finish l i).2.presence ≠ .busy := by
  unfold finish
  split
  split <;> simp

theorem ahead_proceed (now : Time) (allowed : Nat) (ss : List PeerStep) (ms : List Move) (l : Link)
    (i : Intake) : NoMore (proceed now allowed ss ms l i).2.ahead (ss.length, ms.length) := by
  fun_induction proceed now allowed ss ms l i with
  | case1 => simp [ahead_finish, NoMore]
  | case2 allowed s ss l i ih =>
      simp only [NoMore, List.length_cons] at *
      omega
  | case3 allowed ss m ms l i hc l' j h ih =>
      simp only [NoMore, List.length_cons] at *
      omega
  | case4 => simp [NoMore, ahead]
  | case5 =>
      simp only [NoMore, ahead, List.length_nil, List.length_cons]
      omega
  | case6 => simp [NoMore, ahead]

theorem ahead_proceed_of_busy {now : Time} {allowed : Nat} {ss : List PeerStep} {ms : List Move}
    {l : Link} {i : Intake} (hpos : 0 < allowed)
    (hbusy : (proceed now allowed ss ms l i).2.presence = .busy) :
    Fewer (proceed now allowed ss ms l i).2.ahead (ss.length, ms.length) := by
  cases ms with
  | nil =>
      cases ss with
      | nil =>
          rw [proceed] at hbusy
          exact absurd hbusy (presence_finish l i)
      | cons s ss =>
          rw [proceed]
          have := ahead_proceed now allowed ss (s.moves i.query) l i
          simp only [NoMore, Fewer, List.length_cons] at *
          omega
  | cons m ms =>
      have hc : m.cost i ≤ allowed := Nat.le_trans (m.cost_le_one i) hpos
      rw [proceed, if_pos hc] at hbusy ⊢
      split at hbusy
      · rename_i l' j _
        have := ahead_proceed now (allowed - m.cost i) ss ms l' j
        simp only [NoMore, Fewer, List.length_cons] at *
        omega
      · cases hbusy
      · cases hbusy

theorem ahead_act (now : Time) (l : Link) (p : Peer) :
    NoMore (p.act now l).2.ahead p.ahead := by
  unfold act
  split
  · exact .inr ⟨rfl, Nat.le_refl _⟩
  · exact .inr ⟨rfl, Nat.le_refl _⟩
  · exact ahead_proceed now p.allowance p.script p.moves l p.intake

theorem ahead_act_of_busy {now : Time} {l : Link} {p : Peer}
    (hbusy : (p.act now l).2.presence = .busy) : Fewer (p.act now l).2.ahead p.ahead := by
  unfold act at hbusy ⊢
  split at hbusy
  · simp_all
  · simp_all
  · exact ahead_proceed_of_busy p.allowance_pos hbusy

theorem ahead_roused {p : Peer} {time : Time} (h : p.alarm = some time) :
    Fewer p.roused.ahead p.ahead := by
  unfold alarm at h
  split at h
  · rename_i heq
    simp [roused, ahead, heq, Fewer]
  · cases h

end Peer

end DnsOverStreams
