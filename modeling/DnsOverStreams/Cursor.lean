import DnsOverStreams.Bytes
/-!
Places in a message that is being read: the number of bytes before the place, and the bytes from it
on. Each reader gives what it read and the place after it, or nothing if the message ends too early.
-/

namespace DnsOverStreams

structure Cursor where
  place : Nat
  rest : Bytes
  deriving DecidableEq, Repr

namespace Cursor

def seek (message : Bytes) (place : Nat) : Cursor :=
  ⟨place, message.drop place⟩

def byte : Cursor → Option (UInt8 × Cursor)
  | ⟨p, b :: rest⟩ => some (b, ⟨p + 1, rest⟩)
  | _ => none

def word : Cursor → Option (UInt16 × Cursor)
  | ⟨p, hi :: lo :: rest⟩ => some (Bytes.toWord hi lo, ⟨p + 2, rest⟩)
  | _ => none

def long : Cursor → Option (UInt32 × Cursor)
  | ⟨p, a :: b :: c :: d :: rest⟩ =>
      some (Bytes.toLong (Bytes.toWord a b) (Bytes.toWord c d), ⟨p + 4, rest⟩)
  | _ => none

def bytes (n : Nat) (c : Cursor) : Option (Bytes × Cursor) :=
  let front := c.rest.take n
  if front.length = n then some (front, ⟨c.place + n, c.rest.drop n⟩) else none

def many {α : Type} (c : Cursor) (item : Cursor → Option (α × Cursor)) :
    Nat → Option (List α × Cursor)
  | 0 => some ([], c)
  | n + 1 => do
      let (x, c) ← item c
      let (xs, c) ← many c item n
      some (x :: xs, c)

theorem word_ofWord_append (w : UInt16) (p : Nat) (rest : Bytes) :
    word ⟨p, Bytes.ofWord w ++ rest⟩ = some (w, ⟨p + 2, rest⟩) := by
  simp [Bytes.ofWord, word, Bytes.toWord_bytes]

theorem long_ofLong_append (l : UInt32) (p : Nat) (rest : Bytes) :
    long ⟨p, Bytes.ofLong l ++ rest⟩ = some (l, ⟨p + 4, rest⟩) := by
  simp only [Bytes.ofLong, Bytes.ofWord, List.cons_append, List.nil_append, long,
    Bytes.toWord_bytes, Bytes.toLong_words]

theorem bytes_append {front rest : Bytes} {n : Nat} (p : Nat) (h : front.length = n) :
    bytes n ⟨p, front ++ rest⟩ = some (front, ⟨p + n, rest⟩) := by
  subst h
  simp [bytes]

end Cursor

end DnsOverStreams
