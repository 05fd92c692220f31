import DnsOverStreams.IoFailure
import DnsOverStreams.Bytes
/-!
Pipes of bounded capacity, one for each direction of a connection, and single operations on them. A
write puts in what there is room for, a read takes what is there. A pipe closes when either of its
ends goes away; what is in it can still be read.
-/

namespace DnsOverStreams

structure Pipe where
  capacity : Nat
  content : Bytes
  closed : Bool
  deriving DecidableEq, Repr

namespace Pipe

def empty (capacity : Nat) : Pipe := ⟨capacity, [], false⟩

def room (p : Pipe) : Nat :=
  p.capacity - p.content.length

def push (p : Pipe) (bytes : Bytes) : Pipe :=
  { p with content := p.content ++ bytes }

def drop (p : Pipe) (n : Nat) : Pipe :=
  { p with content := p.content.drop n }

def close (p : Pipe) : Pipe :=
  { p with closed := true }

end Pipe

/-- Both directions of a connection, seen from our end. -/
structure Link where
  outgoing : Pipe
  incoming : Pipe
  deriving DecidableEq, Repr

namespace Link

def empty (capacity : Nat) : Link :=
  ⟨Pipe.empty capacity, Pipe.empty capacity⟩

def close (l : Link) : Link :=
  ⟨l.outgoing.close, l.incoming.close⟩

def flip (l : Link) : Link :=
  ⟨l.incoming, l.outgoing⟩

theorem flip_flip (l : Link) : l.flip.flip = l := rfl

end Link

inductive Operation where
  | read (room : Nat)
  | write (done rest : Bytes)
  deriving DecidableEq, Repr

inductive Outcome where
  | got (bytes : Bytes)
  | wrote (count : Nat)
  | failed (e : IoFailure)
  deriving DecidableEq, Repr

structure Attempt where
  result : Outcome ⊕ Operation
  link : Link
  pushed : Bytes
  deriving DecidableEq, Repr

namespace Operation

def attempt (l : Link) : Operation → Attempt
  | .read room =>
      if room = 0 then ⟨.inl (.got []), l, []⟩
      else if l.incoming.content = [] then
        if l.incoming.closed then ⟨.inl (.got []), l, []⟩ else ⟨.inr (.read room), l, []⟩
      else
        ⟨.inl (.got (l.incoming.content.take room)), { l with incoming := l.incoming.drop room }, []⟩
  | .write done rest =>
      if rest = [] then ⟨.inl (.wrote done.length), l, []⟩
      else if l.outgoing.closed then ⟨.inl (.failed .brokenPipe), l, []⟩
      else
        let front := rest.take l.outgoing.room
        let back := rest.drop l.outgoing.room
        let link := { l with outgoing := l.outgoing.push front }
        if back = [] then ⟨.inl (.wrote (done ++ front).length), link, front⟩
        else ⟨.inr (.write (done ++ front) back), link, front⟩

end Operation

end DnsOverStreams
