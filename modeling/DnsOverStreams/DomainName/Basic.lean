import DnsOverStreams.Bytes
/-!
Domain names, as the list of their labels from the left, without the empty label of the root at the
end. A label is a byte string, and two labels are the same when they differ at most in the case of
ASCII letters.

Whether a name is absolute is not part of it. Text with a dot at the end gives an absolute name and
other text a relative one, and a name of one kind never equals one of the other. But a query makes its
name absolute as soon as it is read, and names read from bytes are absolute, so that no other names
are ever written or compared.
-/

namespace DnsOverStreams

abbrev Label := Bytes

abbrev DomainName := List Label

def lowerByte (b : UInt8) : UInt8 :=
  if 65 ≤ b && b ≤ 90 then b + 32 else b

namespace Label

def fold (l : Label) : Label :=
  l.map lowerByte

def size (l : Label) : Nat :=
  l.length + 1

end Label

namespace DomainName

def root : DomainName := []

def fold (n : DomainName) : DomainName :=
  n.map Label.fold

def same (m n : DomainName) : Bool :=
  m.fold == n.fold

theorem same_refl (n : DomainName) : n.same n = true := by
  simp [same]

theorem same_iff {m n : DomainName} : m.same n = true ↔ m.map Label.fold = n.map Label.fold := by
  simp [same, fold]

/-- What the labels take on the wire, the byte that ends the name not counted. -/
def size (n : DomainName) : Nat :=
  n.foldr (·.size + ·) 0

def wireLength (n : DomainName) : Nat :=
  n.size + 1

@[simp] theorem size_nil : size [] = 0 := rfl

@[simp] theorem size_cons (l : Label) (n : DomainName) : size (l :: n) = l.length + 1 + size n := by
  simp [size, Label.size]

theorem size_append (m n : DomainName) : size (m ++ n) = size m + size n := by
  induction m with
  | nil => simp
  | cons l m ih => simp only [List.cons_append, size_cons, ih, Nat.add_assoc]

def maxLabel : Nat := 63

def maxWire : Nat := 255

end DomainName

end DnsOverStreams
