import DnsOverStreams.Address.Ip
import DnsOverStreams.Text.Reader
/-!
Internet addresses as texts. Of the longest runs of zero segments in an address of version 6 the first
is left out, if it is longer than one segment.
-/

namespace DnsOverStreams

namespace Ipv4

def text (ip : Ipv4) : String :=
  ".".intercalate (ip.bytes.map fun b => toString b.toNat)

def readByte : Reader UInt8 := do
  let n ← Reader.number 10 (some 3) false 256
  return UInt8.ofNat n

def read : Reader Ipv4 := do
  let a ← readByte
  Reader.given '.'
  let b ← readByte
  Reader.given '.'
  let c ← readByte
  Reader.given '.'
  let d ← readByte
  return ⟨a, b, c, d⟩

def segments (ip : Ipv4) : List UInt16 :=
  [Bytes.toWord ip.a ip.b, Bytes.toWord ip.c ip.d]

end Ipv4

structure SegmentRun where
  start : Nat
  length : Nat
  deriving DecidableEq, Repr

namespace Ipv6

/-- The longest run of zeros from a place on, besides the run that ends there and the best so far. -/
def longestFrom (place : Nat) (current best : SegmentRun) : List UInt16 → SegmentRun
  | [] => best
  | s :: ss =>
      if s = 0 then
        let grown : SegmentRun :=
          if current.length = 0 then ⟨place, 1⟩ else ⟨current.start, current.length + 1⟩
        longestFrom (place + 1) grown (if best.length < grown.length then grown else best) ss
      else longestFrom (place + 1) ⟨0, 0⟩ best ss

def longestZeros (ip : Ipv6) : SegmentRun :=
  longestFrom 0 ⟨0, 0⟩ ⟨0, 0⟩ ip.segments

def segmentText (s : UInt16) : String :=
  String.ofList (Nat.toDigits 16 s.toNat)

def segmentsText (ss : List UInt16) : String :=
  ":".intercalate (ss.map segmentText)

def mapped? (ip : Ipv6) : Option Ipv4 :=
  if ip.segments.take 6 = [0, 0, 0, 0, 0, 0xffff] then Ipv4.ofBytes? (ip.bytes.drop 12) else none

def text (ip : Ipv6) : String :=
  match ip.mapped? with
  | some v4 => "::ffff:" ++ v4.text
  | none =>
      let zeros := ip.longestZeros
      if 1 < zeros.length then
        segmentsText (ip.segments.take zeros.start) ++ "::"
          ++ segmentsText (ip.segments.drop (zeros.start + zeros.length))
      else segmentsText ip.segments

def separated {α : Type} (first : Bool) (r : Reader α) : Reader α :=
  if first then r
  else do
    Reader.given ':'
    r

def readSegment : Reader UInt16 := do
  let n ← Reader.number 16 (some 4) true 65536
  return UInt16.ofNat n

/-- At most so many segments, and whether they end with an address of version 4, which takes two. -/
def readSegments : Nat → Bool → List Char → (List UInt16 × Bool) × List Char
  | 0, _, cs => (([], false), cs)
  | n + 1, first, cs =>
      match if 0 < n then separated first Ipv4.read cs else none with
      | some (v4, rest) => ((v4.segments, true), rest)
      | none =>
          match separated first readSegment cs with
          | some (s, rest) =>
              let ((ss, v4), rest) := readSegments n false rest
              ((s :: ss, v4), rest)
          | none => (([], false), cs)

/-- All eight segments, or fewer with two colons in place of the zeros that are missing. -/
def read : Reader Ipv6 := fun cs =>
  let ((head, v4), rest) := readSegments 8 true cs
  if head.length = 8 then (ofList? head).map (·, rest)
  else if v4 then none
  else do
    let ((), rest) ← Reader.given ':' rest
    let ((), rest) ← Reader.given ':' rest
    let ((tail, _), rest) := readSegments (7 - head.length) true rest
    let zeros := List.replicate (8 - head.length - tail.length) 0
    let ip ← ofList? (head ++ zeros ++ tail)
    return (ip, rest)

end Ipv6

inductive IpAddress where
  | v4 (ip : Ipv4)
  | v6 (ip : Ipv6)
  deriving DecidableEq, Repr

namespace IpAddress

def text : IpAddress → String
  | v4 ip => ip.text
  | v6 ip => ip.text

def ofText? (s : String) : Option IpAddress :=
  match Ipv4.read.whole s with
  | some ip => some (v4 ip)
  | none => (Ipv6.read.whole s).map v6

end IpAddress

/-- Where a service is reached: an address and a number. An address of version 6 may be bound to a zone,
of which zero is none. -/
inductive SocketAddress where
  | v4 (ip : Ipv4) (portNumber : UInt16)
  | v6 (ip : Ipv6) (zone : UInt32) (portNumber : UInt16)
  deriving DecidableEq, Repr

namespace SocketAddress

def text : SocketAddress → String
  | v4 ip portNumber => ip.text ++ ":" ++ toString portNumber.toNat
  | v6 ip zone portNumber =>
      let zoneText := if zone = 0 then "" else "%" ++ toString zone.toNat
      "[" ++ ip.text ++ zoneText ++ "]:" ++ toString portNumber.toNat

def readPort : Reader UInt16 := do
  Reader.given ':'
  let n ← Reader.number 10 none true 65536
  return UInt16.ofNat n

def readZone : Reader UInt32 := do
  Reader.given '%'
  let n ← Reader.number 10 none true UInt32.size
  return UInt32.ofNat n

def readV4 : Reader SocketAddress := do
  let ip ← Ipv4.read
  let portNumber ← readPort
  return v4 ip portNumber

def readOptionalZone : Reader UInt32 := fun cs =>
  match readZone cs with
  | some r => some r
  | none => some (0, cs)

def readV6 : Reader SocketAddress := do
  Reader.given '['
  let ip ← Ipv6.read
  let zone ← readOptionalZone
  Reader.given ']'
  let portNumber ← readPort
  return v6 ip zone portNumber

def ofText? (s : String) : Option SocketAddress :=
  match readV4.whole s with
  | some a => some a
  | none => readV6.whole s

def unspecified : SocketAddress → SocketAddress
  | v4 _ _ => v4 Ipv4.unspecified 0
  | v6 _ _ _ => v6 Ipv6.unspecified 0 0

end SocketAddress

end DnsOverStreams
