/-!
Reading of texts from the front, character by character. A reader gives what it read and what is left,
or nothing.
-/

namespace DnsOverStreams

abbrev Reader (α : Type) := StateT (List Char) Option α

namespace Reader

def given (c : Char) : Reader Unit
  | [] => none
  | d :: cs => if d = c then some ((), cs) else none

def whole {α : Type} (r : Reader α) (text : String) : Option α :=
  match r text.toList with
  | some (a, []) => some a
  | _ => none

def digitValue? (c : Char) : Option Nat :=
  let n := c.toNat
  if 48 ≤ n ∧ n ≤ 57 then some (n - 48)
  else if 97 ≤ n ∧ n ≤ 122 then some (n - 87)
  else if 65 ≤ n ∧ n ≤ 90 then some (n - 55)
  else none

def digit? (radix : Nat) (c : Char) : Option Nat :=
  (digitValue? c).filter (· < radix)

def digits (radix : Nat) : List Char → List Nat × List Char
  | [] => ([], [])
  | c :: cs =>
      match digit? radix c with
      | some d =>
          let (ds, rest) := digits radix cs
          (d :: ds, rest)
      | none => ([], c :: cs)

def valueOf (radix : Nat) (ds : List Nat) : Nat :=
  ds.foldl (fun n d => n * radix + d) 0

def number (radix : Nat) (limit : Option Nat) (leadingZeros : Bool) (bound : Nat) : Reader Nat :=
  fun cs =>
    let (ds, rest) := digits radix cs
    let n := valueOf radix ds
    if ds = [] ∨ limit.any (· < ds.length) then none
    else if !leadingZeros && ds.head? == some 0 && 1 < ds.length then none
    else if n < bound then some (n, rest) else none

end Reader

end DnsOverStreams
