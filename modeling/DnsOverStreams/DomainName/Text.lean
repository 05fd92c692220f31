import DnsOverStreams.DomainName.Basic
import DnsOverStreams.Text.Blank
import DnsOverStreams.Text.Numeric
/-!
Domain names in text. Labels are divided by dots; after a backslash stand either three octal digits,
the number of a character, or a character that then has no other meaning. A dot at the end changes
nothing, and a single dot is the root.
-/

namespace DnsOverStreams

inductive NameError where
  | illegalChar (c : Char)
  | unrecognizedChar (c : Char)
  | longLabel (bytes : Nat)
  | malformedLabel (text : List Char)
  | longName (bytes : Nat)
  deriving DecidableEq, Repr

def NameError.message : NameError → String
  | .illegalChar c => "illegal char: " ++ String.singleton c
  | .unrecognizedChar c => "unrecognized char: " ++ String.singleton c
  | .longLabel n => "label bytes exceed 63: " ++ toString n
  | .malformedLabel text => "Malformed label: " ++ String.ofList text
  | .longName n => "name label data exceed 255: " ++ toString n

namespace Label

def startsLabel (c : Char) : Bool :=
  c.isAlphanum || c == '_' || c == '*' || c == '.'

def continuesLabel (c : Char) : Bool :=
  c.isAlphanum || c == '-' || c == '_' || c == '.'

def wellFormed : List Char → Bool
  | [] => false
  | c :: cs => startsLabel c && cs.all continuesLabel

def utf8Length (text : List Char) : Nat :=
  text.foldr (·.utf8Size + ·) 0

def ofChars (text : List Char) : Label :=
  text.map fun c => UInt8.ofNat c.toNat

def ofText (text : List Char) : Except NameError Label :=
  if DomainName.maxLabel < utf8Length text then .error (.longLabel (utf8Length text))
  else if wellFormed text then .ok (ofChars text)
  else .error (.malformedLabel text)

end Label

namespace DomainName

inductive Escape where
  | plain
  | opened
  | oneDigit (d : Nat)
  | twoDigits (d e : Nat)
  deriving DecidableEq, Repr

structure Scan where
  labels : DomainName
  label : List Char
  escape : Escape
  deriving DecidableEq, Repr

namespace Scan

def start : Scan := ⟨[], [], .plain⟩

def endLabel (s : Scan) : Except NameError Scan := do
  let label ← Label.ofText s.label
  let labels := s.labels ++ [label]
  if maxWire < size labels then .error (.longName (size labels))
  else .ok ⟨labels, [], .plain⟩

def push (s : Scan) (c : Char) : Scan :=
  ⟨s.labels, s.label ++ [c], .plain⟩

/-- The digit of an octal escape, for the digits after the first. -/
def digit (c : Char) : Except NameError Nat :=
  if Text.isNumeric c then
    match Text.octal? c with
    | some d => .ok d
    | none => .error (.illegalChar c)
  else .error (.unrecognizedChar c)

def step (s : Scan) (c : Char) : Except NameError Scan :=
  match s.escape with
  | .plain =>
      if c = '.' then s.endLabel
      else if c = '\\' then .ok { s with escape := .opened }
      else if Text.isControl c || Text.isBlank c then .error (.unrecognizedChar c)
      else .ok (s.push c)
  | .opened =>
      if Text.isNumeric c then do
        let d ← digit c
        .ok { s with escape := .oneDigit d }
      else .ok (s.push c)
  | .oneDigit d => do
      let e ← digit c
      .ok { s with escape := .twoDigits d e }
  | .twoDigits d e => do
      let f ← digit c
      .ok (s.push (Char.ofNat (d * 64 + e * 8 + f)))

def run (s : Scan) : List Char → Except NameError Scan
  | [] => .ok s
  | c :: cs => do
      let t ← s.step c
      t.run cs

theorem run_append (s : Scan) (cs ds : List Char) :
    s.run (cs ++ ds) = (s.run cs).bind (·.run ds) := by
  induction cs generalizing s with
  | nil => rfl
  | cons c cs ih =>
      simp only [List.cons_append, run]
      cases s.step c with
      | error e => rfl
      | ok t => exact ih t

def finish (s : Scan) : Except NameError DomainName :=
  if s.label = [] then .ok s.labels
  else do
    let t ← s.endLabel
    .ok t.labels

end Scan

def ofText (text : List Char) : Except NameError DomainName :=
  if text = ['.'] then .ok root
  else do
    let s ← Scan.start.run text
    s.finish

end DomainName

end DnsOverStreams
