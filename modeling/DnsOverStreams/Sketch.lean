import DnsOverStreams.Cursor
import DnsOverStreams.Frame
/-!
Replies put together byte by byte from a description, right or wrong, for a counterpart that is to
answer with them. What a description leaves open is taken from the query that is answered.
-/

namespace DnsOverStreams

structure RecordSketch where
  name : Bytes
  recordType : UInt16
  recordClass : UInt16
  ttl : UInt32
  data : Bytes
  announced : Option UInt16
  copies : Nat
  deriving DecidableEq, Repr

inductive QuestionSketch where
  | echo
  | upper
  | twice
  | none
  | given (bytes : Bytes)
  deriving DecidableEq, Repr

structure ReplySketch where
  verbatim : Option Bytes
  id : Option UInt16
  idStep : UInt16
  flags : UInt16
  counts : List (Option UInt16)
  question : QuestionSketch
  answers : List RecordSketch
  authority : List RecordSketch
  additional : List RecordSketch
  tail : Bytes
  cut : Nat
  deriving DecidableEq, Repr

structure FrameSketch where
  reply : ReplySketch
  announced : Option UInt16
  unframed : Bool
  cut : Nat
  extra : Bytes
  deriving DecidableEq, Repr

namespace RecordSketch

def bytes (r : RecordSketch) : Bytes :=
  let one := r.name ++ Bytes.ofWord r.recordType ++ Bytes.ofWord r.recordClass
    ++ Bytes.ofLong r.ttl ++ Bytes.ofWord (r.announced.getD (UInt16.ofNat r.data.length)) ++ r.data
  (List.replicate r.copies one).flatten

end RecordSketch

namespace ReplySketch

def nameLength : Bytes → Nat
  | [] => 0
  | b :: rest =>
      if b = 0 then 1
      else if 192 ≤ b then 2
      else 1 + b.toNat + nameLength (rest.drop b.toNat)
termination_by bs => bs.length
decreasing_by
  simp only [List.length_drop, List.length_cons]
  omega

def questionsLength : Nat → Bytes → Nat
  | 0, _ => 0
  | n + 1, bs =>
      let one := nameLength bs + 4
      one + questionsLength n (bs.drop one)

def wordAt (raw : Bytes) (place : Nat) : UInt16 :=
  match (Cursor.seek raw place).word with
  | some (w, _) => w
  | none => 0

def questionsOf (raw : Bytes) : Bytes :=
  let body := raw.drop 12
  body.take (questionsLength (wordAt raw 4).toNat body)

def upperByte (b : UInt8) : UInt8 :=
  if 97 ≤ b && b ≤ 122 then b - 32 else b

def questionPart (raw : Bytes) : QuestionSketch → Bytes × UInt16
  | .echo => (questionsOf raw, wordAt raw 4)
  | .upper => ((questionsOf raw).map upperByte, wordAt raw 4)
  | .twice => (questionsOf raw ++ questionsOf raw, wordAt raw 4 * 2)
  | .none => ([], 0)
  | .given bytes => (bytes, 1)

def countOf (records : List RecordSketch) : UInt16 :=
  UInt16.ofNat (records.foldr (·.copies + ·) 0)

def override : List UInt16 → List (Option UInt16) → List UInt16
  | c :: cs, o :: os => o.getD c :: override cs os
  | cs, _ => cs

def dropLast (n : Nat) (bs : Bytes) : Bytes :=
  bs.take (bs.length - n)

def bytes (s : ReplySketch) (raw : Bytes) : Bytes :=
  match s.verbatim with
  | some bs => bs
  | none =>
      let id := s.id.getD (wordAt raw 0 + s.idStep)
      let (question, questionCount) := questionPart raw s.question
      let counts := override
        [questionCount, countOf s.answers, countOf s.authority, countOf s.additional] s.counts
      let whole := Bytes.ofWord id ++ Bytes.ofWord s.flags ++ counts.flatMap Bytes.ofWord
        ++ question ++ s.answers.flatMap RecordSketch.bytes ++ s.authority.flatMap RecordSketch.bytes
        ++ s.additional.flatMap RecordSketch.bytes ++ s.tail
      dropLast s.cut whole

end ReplySketch

namespace FrameSketch

def bytes (s : FrameSketch) (raw : Bytes) : Bytes :=
  let body := s.reply.bytes raw
  let header := if s.unframed then []
    else Bytes.ofWord (s.announced.getD (UInt16.ofNat body.length))
  ReplySketch.dropLast s.cut (header ++ body) ++ s.extra

end FrameSketch

end DnsOverStreams
