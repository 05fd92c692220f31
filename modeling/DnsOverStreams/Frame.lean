import DnsOverStreams.Bytes
/-!
Frames: on a stream each message stands after its length, two bytes with the high one first.
-/

namespace DnsOverStreams

structure Oversize where
  length : Nat
  deriving DecidableEq, Repr

def Oversize.message (e : Oversize) : String :=
  "DNS message of " ++ toString e.length ++ " bytes does not fit a stream frame"

namespace Frame

def headerLength : Nat := 2

def maxBody : Nat := 65535

def encode (body : Bytes) : Except Oversize Bytes :=
  if body.length ≤ maxBody then .ok (Bytes.ofWord (UInt16.ofNat body.length) ++ body)
  else .error ⟨body.length⟩

def announced (header : Bytes) : Nat :=
  match header with
  | [hi, lo] => (Bytes.toWord hi lo).toNat
  | _ => 0

theorem encode_eq_ok_iff {body frame : Bytes} :
    encode body = .ok frame ↔
      body.length ≤ maxBody ∧ frame = Bytes.ofWord (UInt16.ofNat body.length) ++ body := by
  unfold encode
  split
  · simp_all [eq_comm]
  · rename_i h
    simp [h]

theorem announced_ofWord {n : Nat} (h : n ≤ maxBody) :
    announced (Bytes.ofWord (UInt16.ofNat n)) = n := by
  simp only [announced, Bytes.ofWord, Bytes.toWord_bytes]
  simp only [maxBody] at h
  simp only [UInt16.toNat_ofNat']
  omega

end Frame

end DnsOverStreams
