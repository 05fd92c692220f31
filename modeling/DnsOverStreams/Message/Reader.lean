import DnsOverStreams.Message.Layout
/-!
Messages from bytes. Anything that is not a message gives nothing, and bytes after the last record
are left alone.
-/

namespace DnsOverStreams

namespace EdnsOption

/-- The code of the option that tells on behalf of which network a query is made. -/
def clientSubnet : UInt16 := 8

def addressLength? (family : UInt16) : Option Nat :=
  if family = 1 then some 4 else if family = 2 then some 16 else none

/-- Whether the bytes are a client subnet: a family, the lengths in bits of two prefixes, and the bytes
of the address that the first prefix reaches into, of which there are no more than an address has. What
comes after them does not matter. -/
def isClientSubnet : Bytes → Bool
  | f₁ :: f₂ :: sourcePrefix :: _ :: address =>
      let told := (sourcePrefix.toNat + 7) / 8
      (addressLength? (Bytes.toWord f₁ f₂)).any (told ≤ ·) && told ≤ address.length
  | _ => false

def allows (code : UInt16) (value : Bytes) : Bool :=
  code != clientSubnet || isClientSubnet value

/-- Reads the options in the data of a record of the given length. A code or a length that is cut off,
an option that claims to be longer than the whole data, or one that cannot have its value, is malformed;
an option whose value is cut off makes all of them void. -/
def readAll (length : Nat) (done : List EdnsOption) : Bytes → Option (List EdnsOption)
  | [] => some done.reverse
  | [_, _] => some []
  | c₁ :: c₂ :: n₁ :: n₂ :: rest =>
      let n := (Bytes.toWord n₁ n₂).toNat
      if n ≤ length then
        if n ≤ rest.length then
          if allows (Bytes.toWord c₁ c₂) (rest.take n) then
            readAll length (⟨Bytes.toWord c₁ c₂, rest.take n⟩ :: done) (rest.drop n)
          else none
        else some []
      else none
  | _ => none
termination_by bs => bs.length
decreasing_by
  simp only [List.length_drop, List.length_cons]
  omega

end EdnsOption

namespace RecordData

/-- Reads data of a type, where `length` bytes are announced. What is read may be longer or shorter
than that. -/
def readBody (message : Bytes) (recordType : UInt16) (length : Nat) (c : Cursor) :
    Option (RecordData × Cursor) :=
  if recordType = RecordType.a then do
    let (bytes, after) ← c.bytes 4
    let ip ← Ipv4.ofBytes? bytes
    some (.ipv4 ip, after)
  else if recordType = RecordType.aaaa then do
    let (bytes, after) ← c.bytes 16
    let ip ← Ipv6.ofBytes? bytes
    some (.ipv6 ip, after)
  else if recordType = RecordType.opt then do
    let (bytes, after) ← c.bytes length
    let options ← EdnsOption.readAll length [] bytes
    some (.options options, after)
  else do
    let layout ← Layout.of? recordType
    let (bytes, after) ← layout.read message length c
    some (.raw bytes, after)

/-- Reads the data of a record. Data of no bytes is empty whatever the type, and any other must take
exactly the announced length. -/
def read (message : Bytes) (recordType : UInt16) (length : Nat) (c : Cursor) :
    Option (RecordData × Cursor) :=
  if length = 0 then some (.empty, c)
  else do
    let (_, _) ← c.bytes length
    let (data, after) ← readBody message recordType length c
    if after.place = c.place + length then some (data, after) else none

end RecordData

def Question.read (message : Bytes) (c : Cursor) : Option (Question × Cursor) := do
  let (name, c) ← DomainName.read message c
  let (recordType, c) ← c.word
  let (recordClass, c) ← c.word
  some (⟨name, recordType, recordClass⟩, c)

/-- Reads a record. Extension data belongs to the root and to no other name. -/
def Record.read (message : Bytes) (c : Cursor) : Option (Record × Cursor) := do
  let (name, c) ← DomainName.read message c
  let (recordType, c) ← c.word
  if recordType = RecordType.opt && name ≠ DomainName.root then none
  else do
    let (recordClass, c) ← c.word
    let (ttl, c) ← c.long
    let (length, c) ← c.word
    let (data, c) ← RecordData.read message recordType length.toNat c
    some (⟨name, recordType, recordClass, ttl, data⟩, c)

namespace Flags

def bit (w : UInt16) (n : Nat) : Bool :=
  w.toNat >>> n % 2 == 1

def ofWord (w : UInt16) : Flags where
  response := bit w 15
  authoritative := bit w 10
  truncated := bit w 9
  recursionDesired := bit w 8
  recursionAvailable := bit w 7
  authentic := bit w 5
  checkingDisabled := bit w 4

end Flags

structure Header where
  id : UInt16
  flags : UInt16
  questions : UInt16
  answers : UInt16
  authority : UInt16
  additional : UInt16
  deriving DecidableEq, Repr

def Header.read (c : Cursor) : Option (Header × Cursor) := do
  let (id, c) ← c.word
  let (flags, c) ← c.word
  let (questions, c) ← c.word
  let (answers, c) ← c.word
  let (authority, c) ← c.word
  let (additional, c) ← c.word
  some (⟨id, flags, questions, answers, authority, additional⟩, c)

namespace Message

def ednsOf : List Record → Option (Option Edns)
  | [] => some none
  | [r] => some (some (Edns.ofRecord r))
  | _ => none

def isOpt (r : Record) : Bool :=
  r.recordType == RecordType.opt

def read (message : Bytes) : Option Message := do
  let (h, c) ← Header.read (Cursor.seek message 0)
  let opcode ← Opcode.ofCode? (h.flags.toNat >>> 11 % 16)
  let (questions, c) ← c.many (Question.read message) h.questions.toNat
  let (answers, c) ← c.many (Record.read message) h.answers.toNat
  let (authority, c) ← c.many (Record.read message) h.authority.toNat
  let (additional, _) ← c.many (Record.read message) h.additional.toNat
  let edns ← ednsOf (additional.filter isOpt)
  some
    { id := h.id
      opcode := opcode
      flags := Flags.ofWord h.flags
      lowCode := h.flags.toNat % 16
      questions := questions
      answers := answers
      authority := authority
      additional := additional.filter (!isOpt ·)
      edns := edns }

end Message

end DnsOverStreams
