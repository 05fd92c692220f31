import DnsOverStreams.Cursor
import DnsOverStreams.DomainName.Basic
/-!
Names in a message: labels, each after its length, and a zero byte; or, in place of the rest of the
name, a pointer to an earlier place where that rest is written. A pointer leads to a place before
the start of the name it stands in, and the name there must end before that start, so reading ends
whatever the message holds.
-/

namespace DnsOverStreams.DomainName

/-- Reads labels from a place on. `start` is the place where the name began; the name may not run
up to `bound`, if there is one. -/
def labelsAt (message : Bytes) (bound : Option Nat) (start place : Nat) (rest : Bytes) :
    Option (DomainName × Cursor) :=
  if bound.any (· ≤ place) then none
  else
    match rest with
    | [] => none
    | b :: after =>
        if b = 0 then some ([], ⟨place + 1, after⟩)
        else if b < 64 then
          let label := after.take b.toNat
          if label.length = b.toNat then
            match labelsAt message bound start (place + 1 + b.toNat) (after.drop b.toNat) with
            | some (labels, c) => some (label :: labels, c)
            | none => none
          else none
        else if b < 192 then none
        else
          match after with
          | [] => none
          | low :: after =>
              let target := (b.toNat - 192) * 256 + low.toNat
              if target < start then
                match labelsAt message (some start) target target (message.drop target) with
                | some (labels, _) => some (labels, ⟨place + 2, after⟩)
                | none => none
              else none
termination_by (start, rest.length)
decreasing_by
  · apply Prod.Lex.right
    simp only [List.length_drop, List.length_cons]
    omega
  · apply Prod.Lex.left
    assumption

def read (message : Bytes) (c : Cursor) : Option (DomainName × Cursor) :=
  match labelsAt message none c.place c.place c.rest with
  | some (labels, after) => if labels.wireLength ≤ maxWire then some (labels, after) else none
  | none => none

end DnsOverStreams.DomainName
