import DnsOverStreams.Failure
/-!
The codes with which a connection over QUIC is closed, and the numbers that stand for them. Numbers
on such a connection lie below 2 to the 62nd; a number that does not fit 32 bits is no code, so it is
taken for the breach of the protocol that it is.
-/

namespace DnsOverStreams

inductive CloseCode where
  | noError
  | internalError
  | protocolError
  | requestCancelled
  | excessiveLoad
  | reserved
  | unknown (value : UInt32)
  deriving DecidableEq, Repr

namespace CloseCode

@[match_pattern] def noErrorValue : UInt32 := 0x0

@[match_pattern] def internalErrorValue : UInt32 := 0x1

@[match_pattern] def protocolErrorValue : UInt32 := 0x2

@[match_pattern] def requestCancelledValue : UInt32 := 0x3

@[match_pattern] def excessiveLoadValue : UInt32 := 0x4

@[match_pattern] def reservedValue : UInt32 := 0xd098ea5e

def value : CloseCode → UInt32
  | .noError => noErrorValue
  | .internalError => internalErrorValue
  | .protocolError => protocolErrorValue
  | .requestCancelled => requestCancelledValue
  | .excessiveLoad => excessiveLoadValue
  | .reserved => reservedValue
  | .unknown value => value

def number (c : CloseCode) : Nat :=
  c.value.toNat

def ofValue : UInt32 → CloseCode
  | noErrorValue => .noError
  | internalErrorValue => .internalError
  | protocolErrorValue => .protocolError
  | requestCancelledValue => .requestCancelled
  | excessiveLoadValue => .excessiveLoad
  | reservedValue => .reserved
  | value => .unknown value

def ofNumber (n : Nat) : CloseCode :=
  if n < UInt32.size then ofValue (UInt32.ofNat n) else .protocolError

def bound : Nat := 1 <<< 62

def ofNumber? (n : Nat) : Option CloseCode :=
  if n < bound then some (ofNumber n) else none

def text : CloseCode → String
  | .noError => "NoError"
  | .internalError => "InternalError"
  | .protocolError => "ProtocolError"
  | .requestCancelled => "RequestCancelled"
  | .excessiveLoad => "ExcessiveLoad"
  | .reserved => "ErrorReserved"
  | .unknown value => "Unknown(" ++ toString value.toNat ++ ")"

def named : List CloseCode :=
  [.noError, .internalError, .protocolError, .requestCancelled, .excessiveLoad, .reserved]

def ofText? (name : String) (value : UInt32) : Option CloseCode :=
  if name = "Unknown" then some (.unknown value) else named.find? (·.text == name)

end CloseCode

inductive CipherSuite where
  | aes128
  | aes256
  | chacha20
  deriving DecidableEq, Repr

namespace CipherSuite

def all : List CipherSuite := [.aes128, .aes256, .chacha20]

def word : CipherSuite → String
  | .aes128 => "TLS13_AES_128_GCM_SHA256"
  | .aes256 => "TLS13_AES_256_GCM_SHA384"
  | .chacha20 => "TLS13_CHACHA20_POLY1305_SHA256"

def ofWord? (text : String) : Option CipherSuite :=
  all.find? (·.word == text)

/-- The first packets over QUIC are protected with one suite, which must be among those offered. -/
def checkQuic (offered : List CipherSuite) : Except Failure Unit :=
  if offered.contains .aes128 then .ok () else .error .quicSuites

end CipherSuite

end DnsOverStreams
