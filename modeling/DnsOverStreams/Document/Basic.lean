/-!
Values of documents, whatever the documents are written in. A table remembers how it came to be, since
that settles what may still be added to it.
-/

namespace DnsOverStreams

/-- How a table came to be: written as one value, opened by a heading of its own, implied by the heading
of a table in it, or implied by a dotted key. -/
inductive TableOrigin where
  | closed
  | heading
  | implied
  | dotted
  deriving DecidableEq, Repr

inductive Value where
  | null
  | text (s : String)
  | number
  | truth (b : Bool)
  | list (items : List Value)
  | table (origin : TableOrigin) (entries : List (String × Value))
  deriving Inhabited

abbrev Entries := List (String × Value)

namespace Entries

def get? (es : Entries) (key : String) : Option Value :=
  es.lookup key

def replace (es : Entries) (key : String) (v : Value) : Entries :=
  es.map fun e => if e.1 = key then (key, v) else e

end Entries

namespace Value

/-- Changes the table that a path leads to. Tables that are missing on the way are made. A dotted path
does not lead through a table that has a heading of its own. -/
def within (missing : TableOrigin) (change : Value → Option Value) :
    List String → Value → Option Value
  | [], v => change v
  | key :: path, table origin es =>
      match Entries.get? es key with
      | none =>
          (within missing change path (table missing [])).map fun v =>
            table origin (es ++ [(key, v)])
      | some (table .closed _) => none
      | some (table o sub) =>
          if missing = .dotted ∧ o = .heading then none
          else
            (within missing change path (table o sub)).map fun v =>
              table origin (Entries.replace es key v)
      | some _ => none
  | _ :: _, _ => none

def addEntry (key : String) (v : Value) : Value → Option Value
  | table origin es =>
      match Entries.get? es key with
      | none => some (table origin (es ++ [(key, v)]))
      | some _ => none
  | _ => none

def addDotted (key : String) (v : Value) : Value → Option Value
  | table .dotted es => addEntry key v (table .dotted es)
  | _ => none

def assign (path : List String) (key : String) (v : Value) (t : Value) : Option Value :=
  if path = [] then addEntry key v t else within .dotted (addDotted key v) path t

/-- Opens a table under a heading. It may have been implied before, but not written. -/
def openEntry (key : String) : Value → Option Value
  | table origin es =>
      match Entries.get? es key with
      | none => some (table origin (es ++ [(key, table .heading [])]))
      | some (table .implied sub) => some (table origin (Entries.replace es key (table .heading sub)))
      | some _ => none
  | _ => none

end Value

end DnsOverStreams
