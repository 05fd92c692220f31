import DnsOverStreams.Bytes

namespace DnsOverStreams

structure Ipv4 where
  a : UInt8
  b : UInt8
  c : UInt8
  d : UInt8
  deriving DecidableEq, Repr

structure Ipv6 where
  segments : List UInt16
  length_segments : segments.length = 8
  deriving DecidableEq, Repr

namespace Ipv4

def bytes (ip : Ipv4) : Bytes :=
  [ip.a, ip.b, ip.c, ip.d]

def ofBytes? : Bytes → Option Ipv4
  | [a, b, c, d] => some ⟨a, b, c, d⟩
  | _ => none

theorem ofBytes?_bytes (ip : Ipv4) : ofBytes? ip.bytes = some ip := rfl

theorem ofBytes?_eq_some {bs : Bytes} {ip : Ipv4} (h : ofBytes? bs = some ip) : bs = ip.bytes := by
  unfold ofBytes? at h
  split at h
  · cases h; rfl
  · cases h

def unspecified : Ipv4 := ⟨0, 0, 0, 0⟩

end Ipv4

namespace Ipv6

def bytes (ip : Ipv6) : Bytes :=
  ip.segments.flatMap Bytes.ofWord

def ofList? (segments : List UInt16) : Option Ipv6 :=
  if h : segments.length = 8 then some ⟨segments, h⟩ else none

theorem ofList?_segments (ip : Ipv6) : ofList? ip.segments = some ip := by
  simp [ofList?, ip.length_segments]

def words : Bytes → List UInt16
  | hi :: lo :: rest => Bytes.toWord hi lo :: words rest
  | _ => []

theorem words_flatMap (ws : List UInt16) : words (ws.flatMap Bytes.ofWord) = ws := by
  induction ws with
  | nil => rfl
  | cons w ws ih =>
      simp only [List.flatMap_cons, Bytes.ofWord, List.cons_append, List.nil_append, words,
        Bytes.toWord_bytes, ih]

def ofBytes? (bs : Bytes) : Option Ipv6 :=
  if bs.length = 16 then ofList? (words bs) else none

theorem length_flatMap_ofWord (ws : List UInt16) :
    (ws.flatMap Bytes.ofWord).length = 2 * ws.length := by
  induction ws with
  | nil => rfl
  | cons w ws ih => simp [ih]; omega

theorem ofBytes?_bytes (ip : Ipv6) : ofBytes? ip.bytes = some ip := by
  have h : ip.bytes.length = 16 := by
    rw [bytes, length_flatMap_ofWord, ip.length_segments]
  rw [ofBytes?, if_pos h, bytes, words_flatMap, ofList?_segments]

def unspecified : Ipv6 := ⟨List.replicate 8 0, by decide⟩

end Ipv6

end DnsOverStreams
