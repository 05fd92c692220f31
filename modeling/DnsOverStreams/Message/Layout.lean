import DnsOverStreams.DomainName.Wire
import DnsOverStreams.Message.Basic
/-!
How the data of the records of a type is laid out: parts of known kinds, one after the other, and an
ending that takes what is left. Data of a type that is not known is all ending, and any will do. Type
zero and the types that serve only in questions have no data.
-/

namespace DnsOverStreams

def strings? : Bytes → Option (List Bytes)
  | [] => some []
  | n :: rest =>
      if n.toNat ≤ rest.length then (strings? (rest.drop n.toNat)).map (rest.take n.toNat :: ·)
      else none
termination_by bs => bs.length
decreasing_by
  simp only [List.length_drop, List.length_cons]
  omega

def areStrings (bs : Bytes) : Bool :=
  (strings? bs).isSome

def isAlphanumeric (b : UInt8) : Bool :=
  (Char.ofNat b.toNat).isAlphanum

/-- Whether the bytes are a rule on who may certify a name: flags, a tag of one to fifteen letters and
digits after its length, and any value. -/
def isCertifierRule : Bytes → Bool
  | _ :: n :: rest =>
      0 < n && n ≤ 15 && n.toNat ≤ rest.length && (rest.take n.toNat).all isAlphanumeric
  | _ => false

/-- Whether the bytes are maps of types: the number of a window, the number of bytes that follow, and
these, one bit a type. A window has 256 types. The last map may be cut off. -/
def areTypeMaps : Bytes → Bool
  | _ :: n :: b :: rest =>
      let more := n.toNat - 1
      n != 0 && ((b :: rest.take more).drop 32).all (· == 0) && areTypeMaps (rest.drop more)
  | _ => true
termination_by bs => bs.length
decreasing_by
  simp only [List.length_drop, List.length_cons]
  omega

/-- Whether the bytes are a flag byte, of which two bits have a meaning, and maps of types. -/
def isSynchronization : Bytes → Bool
  | flags :: maps => flags < 4 && areTypeMaps maps
  | [] => false

namespace ServiceParameter

/-- Whether the parameter of a key can have a value. The keys are in this order: which keys must be
understood, the names of protocols, that no other protocol is offered, a number of two bytes, addresses
of four bytes, something opaque, and addresses of sixteen bytes. -/
def allows (key : UInt16) (value : Bytes) : Bool :=
  match key.toNat with
  | 0 => value != [] && value.length % 2 == 0
  | 1 => value != [] && (strings? value).any (·.all fun s => ByteArray.validateUTF8 ⟨s.toArray⟩)
  | 2 => value == []
  | 3 => 2 ≤ value.length
  | 4 => value.length % 4 == 0
  | 6 => value.length % 16 == 0
  | _ => true

/-- Whether the bytes are parameters, each with its key and the length of its value before it. The keys
rise, and the first is above a given one. -/
def areAll (above : Option UInt16) : Bytes → Bool
  | [] => true
  | k₁ :: k₂ :: n₁ :: n₂ :: rest =>
      let key := Bytes.toWord k₁ k₂
      let n := (Bytes.toWord n₁ n₂).toNat
      n ≤ rest.length && above.all (· < key) && allows key (rest.take n)
        && areAll (some key) (rest.drop n)
  | _ => false
termination_by bs => bs.length
decreasing_by
  simp only [List.length_drop, List.length_cons]
  omega

end ServiceParameter

/-- A part of the data of a record. Texts stand after their length byte, and flags are a text of letters
and digits. -/
inductive Part where
  | bytes (count : Nat)
  | name
  | text
  | flags
  deriving DecidableEq, Repr

namespace Part

def textAt (c : Cursor) : Option (Bytes × Cursor) := do
  let (n, c) ← c.byte
  c.bytes n.toNat

def skip (message : Bytes) (c : Cursor) : Part → Option Cursor
  | .bytes count => (c.bytes count).map (·.2)
  | .name => (DomainName.read message c).map (·.2)
  | .text => (textAt c).map (·.2)
  | .flags => ((textAt c).filter (·.1.all isAlphanumeric)).map (·.2)

def skipAll (message : Bytes) : List Part → Cursor → Option Cursor
  | [], c => some c
  | p :: ps, c => (p.skip message c).bind (skipAll message ps)

end Part

structure Layout where
  parts : List Part
  ending : Bytes → Bool

namespace Layout

def only (parts : List Part) : Layout :=
  ⟨parts, List.isEmpty⟩

def atLeast (parts : List Part) : Layout :=
  ⟨parts, fun _ => true⟩

def known : List (UInt16 × Layout) :=
  [(RecordType.ns, only [.name]),
    (RecordType.cname, only [.name]),
    (RecordType.soa, only [.name, .name, .bytes 20]),
    (RecordType.ptr, only [.name]),
    (RecordType.hinfo, only [.text, .text]),
    (RecordType.mx, only [.bytes 2, .name]),
    (RecordType.txt, ⟨[], areStrings⟩),
    (RecordType.srv, only [.bytes 6, .name]),
    (RecordType.naptr, only [.bytes 4, .flags, .text, .text, .name]),
    (RecordType.sshfp, atLeast [.bytes 2]),
    (RecordType.tlsa, atLeast [.bytes 3]),
    (RecordType.csync, ⟨[.bytes 5], isSynchronization⟩),
    (RecordType.svcb, ⟨[.bytes 2, .name], ServiceParameter.areAll none⟩),
    (RecordType.https, ⟨[.bytes 2, .name], ServiceParameter.areAll none⟩),
    (RecordType.caa, ⟨[], isCertifierRule⟩),
    (RecordType.aname, only [.name])]

def bare : List UInt16 :=
  [RecordType.zero, RecordType.ixfr, RecordType.axfr, RecordType.any]

def of? (recordType : UInt16) : Option Layout :=
  if bare.contains recordType then none
  else some ((known.lookup recordType).getD (atLeast []))

/-- Reads data of so many bytes. Parts that reach beyond them end at a place behind theirs. -/
def read (message : Bytes) (length : Nat) (c : Cursor) (layout : Layout) :
    Option (Bytes × Cursor) := do
  let after ← Part.skipAll message layout.parts c
  let (ending, after) ← after.bytes (c.place + length - after.place)
  if layout.ending ending then some (c.rest.take length, after) else none

end Layout

end DnsOverStreams
