import DnsOverStreams.DomainName.Text
/-!
Names written into a message. The rest of a name that was written before is not written again; a
pointer to its first place stands for it. Only places that a pointer can reach are remembered.
-/

namespace DnsOverStreams

/-- The names that a pointer can stand for, with their places. -/
abbrev Known := List (DomainName × Nat)

namespace DomainName

def labelBytes : DomainName → Bytes
  | [] => []
  | l :: ls => UInt8.ofNat l.length :: (l ++ labelBytes ls)

theorem length_labelBytes (n : DomainName) : (labelBytes n).length = n.size := by
  induction n with
  | nil => rfl
  | cons l ls ih => simp [labelBytes, ih]; omega

/-- The labels before the longest rest that is known, and the place of that rest. -/
def split (known : Known) : DomainName → DomainName × Option Nat
  | [] => ([], none)
  | l :: ls =>
      match known.lookup (l :: ls) with
      | some place => ([], some place)
      | none =>
          let (front, rest) := split known ls
          (l :: front, rest)

/-- The rests of a name that begin with one of its first `count` labels, with their places when the
name is written at a place. -/
def places (place : Nat) : Nat → DomainName → Known
  | 0, _ => []
  | _, [] => []
  | count + 1, l :: ls => (l :: ls, place) :: places (place + l.length + 1) count ls

/-- A place is remembered only if the labels of the name end before this place. -/
def reach : Nat := 0x3FFF

def pointer (place : Nat) : Bytes :=
  Bytes.ofWord (UInt16.ofNat (0xC000 + place % 0x4000))

/-- Writes a name at a place. A name that is written in full may not be longer than any name is. -/
def write (known : Known) (place : Nat) (n : DomainName) : Except NameError (Bytes × Known) :=
  let (front, rest) := split known n
  let known := if place + n.size < reach then known ++ places place front.length n else known
  match rest with
  | some target => .ok (labelBytes front ++ pointer target, known)
  | none =>
      if n.wireLength ≤ maxWire then .ok (labelBytes front ++ [0], known)
      else .error (.longName n.wireLength)

theorem split_nil (n : DomainName) : split [] n = (n, none) := by
  induction n with
  | nil => rfl
  | cons l ls ih => simp [split, ih]

end DomainName

end DnsOverStreams
