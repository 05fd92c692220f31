namespace DnsOverStreams

inductive Protocol where
  | tcp
  | tls
  | quic
  deriving DecidableEq, Repr

namespace Protocol

def all : List Protocol := [.tcp, .tls, .quic]

def word : Protocol → String
  | .tcp => "tcp"
  | .tls => "tls"
  | .quic => "quic"

def ofWord? (text : String) : Option Protocol :=
  all.find? (·.word == text)

theorem ofWord?_word (p : Protocol) : ofWord? p.word = some p := by
  cases p <;> decide

theorem ofWord?_eq_some {text : String} {p : Protocol} (h : ofWord? text = some p) :
    p.word = text := by
  have := List.find?_some h
  simpa using this

def unknown (text : String) : String :=
  "unknown variant `" ++ text ++ "`, expected one of "
    ++ ", ".intercalate (all.map fun p => "`" ++ p.word ++ "`")

def negotiatedName : Protocol → Option String
  | .tcp => none
  | .tls => some "dot"
  | .quic => some "doq"

end Protocol

end DnsOverStreams
