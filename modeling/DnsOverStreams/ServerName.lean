import DnsOverStreams.Address.Text
import DnsOverStreams.Failure
/-!
The name under which a server shows its certificate: a host name or an address.
-/

namespace DnsOverStreams

inductive ServerName where
  | host (name : String)
  | ip (address : IpAddress)
  deriving DecidableEq, Repr

namespace ServerName

def maxHost : Nat := 253

def maxHostLabel : Nat := 63

def isHostChar (c : Char) : Bool :=
  c.isAlphanum || c == '_' || c == '-'

def isHostLabel (label : List Char) : Bool :=
  0 < label.length && label.length ≤ maxHostLabel && label.all isHostChar
    && label.head? != some '-' && label.getLast? != some '-'

def parts : List Char → List (List Char)
  | [] => [[]]
  | c :: cs =>
      if c = '.' then [] :: parts cs
      else
        match parts cs with
        | p :: ps => (c :: p) :: ps
        | [] => [[c]]

def withoutRoot (labels : List (List Char)) : List (List Char) :=
  if 1 < labels.length && labels.getLast? == some [] then labels.dropLast else labels

/-- A host name: labels of letters, digits, underscores and inner hyphens, the last of which is not a
number, so that no address is taken for a host. -/
def isHost (text : List Char) : Bool :=
  let labels := withoutRoot (parts text)
  text.length ≤ maxHost && labels.all isHostLabel
    && !(labels.getLast?.any fun label => label.all Char.isDigit)

def ofText? (text : String) : Option ServerName :=
  if isHost text.toList then some (host text) else (IpAddress.ofText? text).map ip

def parse (text : String) : Except Failure ServerName :=
  match ofText? text with
  | some name => .ok name
  | none => .error (.report ("invalid TLS server name " ++ text ++ ": invalid dns name"))

end ServerName

end DnsOverStreams
