import DnsOverStreams.Proofs.Query.ReadBack
import DnsOverStreams.Proofs.Reply.Acceptance

namespace DnsOverStreams

namespace DomainName

variable {m n : DomainName} {written : Bytes} {target : Nat}

theorem SameLetters.regular (h : m.SameLetters n) (hn : n.Regular) : m.Regular := by
  induction h with
  | nil => exact List.forall_mem_nil _
  | @cons k l m n hfirst hrest ih =>
      obtain ⟨hl, hn⟩ := List.forall_mem_cons.mp hn
      refine List.forall_mem_cons.mpr ⟨?_, ih hn⟩
      rwa [List.Forall₂.length_eq hfirst]

theorem SameLetters.size (h : m.SameLetters n) : m.size = n.size := by
  induction h with
  | nil => rfl
  | cons hfirst hrest ih => rw [size_cons, size_cons, ih, List.Forall₂.length_eq hfirst]

theorem SameLetters.proper (h : m.SameLetters n) (hn : n.Proper) : m.Proper where
  regular := h.regular hn.regular
  short := by
    rw [wireLength, h.size]
    exact hn.short

theorem reads_full (hn : n.Proper) (written : Bytes) : Reads DomainName.read written n.bytes n := by
  have hread := reads_written (Known.sound_nil written) .zero hn.regular
    (by rw [List.append_nil]; exact hn.short)
  rwa [List.append_nil] at hread

theorem sound_full (hn : n.Regular) (hreach : written.length < 0x4000) :
    Known.Sound [(n, written.length)] (written ++ n.bytes) := by
  intro m p hm
  obtain ⟨rfl, rfl⟩ := Prod.mk.inj (List.mem_singleton.mp hm)
  have hlength : (written ++ m.bytes).length = written.length + m.size + 1 := by
    rw [List.length_append, length_bytes, wireLength, Nat.add_assoc]
  refine ⟨hreach, by omega, fun tail bound hb => ?_⟩
  have hdrop : (written ++ m.bytes ++ tail).drop written.length = labelBytes m ++ [0] ++ tail := by
    rw [List.append_assoc, List.drop_left]
    rfl
  rw [hdrop, List.append_assoc written]
  refine ⟨_, (labelsAt_written (Known.sound_nil written) .zero hn (Nat.le_refl _) (fun b hmem => ?_)
    _ _).trans (by rw [List.append_nil])⟩
  have := hb b hmem
  omega

theorem reads_pointer (hn : n.Proper) (hk : Known.Sound [(n, target)] written) :
    Reads DomainName.read written (pointer target) n := by
  intro tail
  obtain ⟨hreach, htarget, hread⟩ := hk n target (List.mem_singleton_self _)
  obtain ⟨c, hc⟩ := hread (pointer target ++ tail) (some written.length) (by rintro b ⟨⟩; exact Nat.le_refl _)
  have hbound : ∀ b ∈ (none : Option Nat), written.length < b := by
    rintro b ⟨⟩
  unfold DomainName.read
  rw [List.append_assoc, labelsAt_pointer hbound hreach htarget hc]
  exact if_pos hn.short

end DomainName

def Question.bytes (q : Question) : Bytes :=
  q.name.bytes ++ Bytes.ofWord q.recordType ++ Bytes.ofWord q.recordClass

/-- A record of a reply. Its name is written in full, or as a pointer to the name that is asked for. -/
structure ReplyRecord where
  record : Record
  pointed : Bool
  deriving DecidableEq, Repr

namespace ReplyRecord

def bytes (r : ReplyRecord) : Bytes :=
  (if r.pointed then DomainName.pointer Message.headerLength else r.record.name.bytes) ++ r.record.rest

/-- A record with an address of its type or without data, or with options, that can stand in a reply. -/
structure Suits (asked : DomainName) (r : ReplyRecord) : Prop where
  proper : r.record.Proper
  pointed : r.pointed = true → r.record.name = asked

variable {asked : DomainName} {written : Bytes} {r : ReplyRecord} {rs : List ReplyRecord}

theorem Suits.reads (h : r.Suits asked) (hk : Known.Sound [(asked, Message.headerLength)] written) :
    Reads Record.read written r.bytes r.record.asRead := by
  refine h.proper.reads_of_name ?_
  split
  · rename_i hp
    rw [h.pointed hp]
    exact DomainName.reads_pointer (h.pointed hp ▸ h.proper.name) hk
  · exact DomainName.reads_full h.proper.name written

theorem readsAll (hrs : ∀ r ∈ rs, r.Suits asked)
    (hk : Known.Sound [(asked, Message.headerLength)] written) :
    ReadsAll Record.read written (rs.flatMap bytes) (rs.map (·.record.asRead)) := by
  induction rs generalizing written with
  | nil => exact readsAll_nil
  | cons r rs ih =>
      obtain ⟨hr, hrs⟩ := List.forall_mem_cons.mp hrs
      exact (ih hrs (hk.extend r.bytes)).cons (hr.reads hk)

end ReplyRecord

structure Echo where
  id : UInt16
  flags : UInt16
  question : Question
  answers : List ReplyRecord
  authority : List ReplyRecord
  additional : List ReplyRecord
  tail : Bytes
  deriving DecidableEq, Repr

namespace Echo

def bytes (e : Echo) : Bytes :=
  Message.headerBytes e.id e.flags 1 e.answers.length e.authority.length e.additional.length ++
    e.question.bytes ++ e.answers.flatMap (·.bytes) ++ e.authority.flatMap (·.bytes) ++
    e.additional.flatMap (·.bytes) ++ e.tail

/-- The records suit the question, the header can count them, and extension data is given at most once. -/
structure Suits (e : Echo) : Prop where
  answers : ∀ r ∈ e.answers, r.Suits e.question.name
  authority : ∀ r ∈ e.authority, r.Suits e.question.name
  additional : ∀ r ∈ e.additional, r.Suits e.question.name
  answersCount : e.answers.length ≤ Message.maxLength
  authorityCount : e.authority.length ≤ Message.maxLength
  additionalCount : e.additional.length ≤ Message.maxLength
  extended : (e.additional.filter (Message.isOpt ·.record)).length ≤ 1

/-- The reply is one to the question that was asked with the identifier. -/
structure Repeats (e : Echo) (id : UInt16) (q : Question) : Prop where
  id : e.id = id
  response : e.flags.toNat >>> 15 % 2 = 1
  opcode : e.flags.toNat >>> 11 % 16 = 0
  name : e.question.name.SameLetters q.name
  recordType : e.question.recordType = q.recordType
  recordClass : e.question.recordClass = q.recordClass

variable {e : Echo}

theorem Suits.edns (h : e.Suits) :
    ∃ edns, Message.ednsOf ((e.additional.map (·.record.asRead)).filter Message.isOpt) = some edns := by
  have hone := h.extended
  have hfilter : (e.additional.map (·.record.asRead)).filter Message.isOpt =
      (e.additional.filter (Message.isOpt ·.record)).map (·.record.asRead) := List.filter_map
  rw [hfilter]
  generalize e.additional.filter (Message.isOpt ·.record) = carriers at hone
  match carriers with
  | [] => exact ⟨none, rfl⟩
  | [r] => exact ⟨_, rfl⟩
  | _ :: _ :: _ => exact absurd (Nat.le_of_succ_le_succ hone) (Nat.not_succ_le_zero _)

theorem Suits.read (h : e.Suits) (hname : e.question.name.Proper) (opcode : Opcode)
    (hopcode : e.flags.toNat >>> 11 % 16 = opcode.code) :
    ∃ m, Message.read e.bytes = some m ∧ m.id = e.id ∧ m.opcode = opcode ∧
      m.flags = Flags.ofWord e.flags ∧ m.questions = [e.question] ∧
      m.answers = e.answers.map (·.record.asRead) := by
  obtain ⟨edns, hedns⟩ := h.edns
  generalize hh : Message.headerBytes e.id e.flags 1 e.answers.length e.authority.length
    e.additional.length = header
  have hlength : header.length = Message.headerLength := by rw [← hh]; rfl
  -- the name behind the header is what the records point to, and it stays there whatever is written
  have hk : Known.Sound [(e.question.name, Message.headerLength)] (header ++ e.question.bytes) := by
    rw [Question.bytes, List.append_assoc, ← List.append_assoc, ← hlength]
    exact (DomainName.sound_full hname.regular (by rw [hlength]; decide)).extend _
  have hquestion : ReadsAll Question.read header e.question.bytes [e.question] := by
    have hreads := readsAll_nil.cons (e.question.reads_of_name (DomainName.reads_full hname header))
    rwa [List.append_nil] at hreads
  have hbytes : e.bytes = header ++ e.question.bytes ++ e.answers.flatMap (·.bytes) ++
      e.authority.flatMap (·.bytes) ++ e.additional.flatMap (·.bytes) ++ e.tail := by
    rw [← hh]
    rfl
  have hread := Message.read_of_parts (h := ⟨e.id, e.flags, .ofNat 1, .ofNat e.answers.length,
      .ofNat e.authority.length, .ofNat e.additional.length⟩)
    (fun tail => by rw [← hh]; exact Header.read_headerBytes _ _ _ _ _ _ tail) hopcode hquestion
    (ReplyRecord.readsAll h.answers hk) (ReplyRecord.readsAll h.authority (hk.extend _))
    (ReplyRecord.readsAll h.additional ((hk.extend _).extend _)) rfl
    (by rw [List.length_map]; exact Message.toNat_count h.answersCount)
    (by rw [List.length_map]; exact Message.toNat_count h.authorityCount)
    (by rw [List.length_map]; exact Message.toNat_count h.additionalCount) hedns hbytes
  exact ⟨_, hread, rfl, rfl, rfl, rfl, rfl⟩

theorem Suits.accepted (h : e.Suits) {query : Message} {q : Question} (hq : query.questions = [q])
    (hname : q.name.Proper) (hopcode : query.opcode = .query) (hrepeats : e.Repeats query.id q) :
    ∃ reply, Reply.ofBytes query e.bytes = .ok reply ∧
      reply.message.answers = e.answers.map (·.record.asRead) := by
  obtain ⟨m, hread, hid, hm, hflags, hquestions, hanswers⟩ :=
    h.read (hrepeats.name.proper hname) .query hrepeats.opcode
  refine ⟨⟨m⟩, ?_, hanswers⟩
  have hresponse : m.flags.response = true := by
    rw [hflags]
    exact beq_iff_eq.mpr hrepeats.response
  have hsame : Message.sameQuestions m.questions query.questions = true := by
    rw [hq, Message.sameQuestions_singleton]
    exact ⟨e.question, hquestions, Question.same_iff.mpr
      ⟨DomainName.same_iff_sameLetters.mpr hrepeats.name, hrepeats.recordType, hrepeats.recordClass⟩⟩
  unfold Reply.ofBytes
  rw [hread]
  change Reply.check query m = _
  unfold Reply.check
  rw [hresponse, hid, hrepeats.id, hm, hopcode, hsame]
  simp

end Echo

namespace Query

variable {q : Query} {name : DomainName} {raw : Bytes}

theorem bytes_of_writeQuestions {p : Question} {asked : Bytes} {known : Known} {place : Nat}
    (h : Message.writeQuestions [] place [p] = .ok (asked, known)) : asked = p.bytes := by
  obtain ⟨⟨question, known'⟩, hquestion, h⟩ := ok_of_bind h
  obtain ⟨⟨bytes, known''⟩, hname, hquestion⟩ := ok_of_bind hquestion
  obtain ⟨-, rfl⟩ := DomainName.write_first (Message.write_of_writeName hname)
  cases hquestion
  dsimp only at h
  split at h
  · cases h
  · cases h
    exact List.append_nil _

theorem question_of_write {options : List EdnsOption} (h : (q.messageFor name options).write = .ok raw) :
    ∃ rest, raw.drop Message.headerLength = (q.question name).bytes ++ rest := by
  obtain ⟨qs, as, ns, ds, k₁, k₂, k₃, k₄, na, nn, nd, hq, -, -, -, rfl⟩ := Message.write_eq_ok h
  obtain rfl := bytes_of_writeQuestions hq
  simp only [List.append_assoc]
  exact ⟨_, List.drop_left' (length_headerBytes _ _ _ _ _ _)⟩

/-- Whatever text gave the name and whatever settings were made, every reply that repeats the question as it
was sent is accepted. -/
theorem accepts_every_echo {ps : List Protocol} (h : (q.prepareAll ps).pack = .ok raw) :
    ∃ m name rest, (q.prepareAll ps).message = .ok m ∧ m.write = .ok raw ∧
      DomainName.ofText q.name.toList = .ok name ∧
      raw.wordAt 0 = (q.prepareAll ps).id ∧
      raw.drop Message.headerLength = (q.question name).bytes ++ rest ∧
      ∀ e : Echo, e.Suits → e.Repeats (raw.wordAt 0) (q.question name) →
        ∃ reply, Reply.ofBytes m e.bytes = .ok reply ∧
          reply.message.answers = e.answers.map (·.record.asRead) := by
  obtain ⟨m, hm, hraw⟩ := ok_of_bind h
  obtain ⟨name, options, hn, rfl⟩ := message_eq_messageFor hm
  have hproper : name.Proper := ⟨DomainName.ofText_regular hn, short_of_write hraw⟩
  obtain ⟨hname, htype⟩ := prepareAll_keeps ps q
  have hquestion : (q.prepareAll ps).question name = q.question name := by
    rw [question, htype]
    rfl
  obtain ⟨rest, hrest⟩ := question_of_write hraw
  obtain ⟨hid, -⟩ := Message.fields_of_write hraw
  rw [hname] at hn
  rw [hquestion] at hrest
  refine ⟨_, name, rest, hm, hraw, hn, hid, hrest, fun e hsuits hrepeats => ?_⟩
  rw [hid] at hrepeats
  exact hsuits.accepted (congrArg ([·]) hquestion) hproper rfl hrepeats

/-- The name was given with an escaped dot and without the last one. One record points to the question, and the
other belongs to the root. -/
theorem accepts_every_echo_relative :
    let q : Query := ⟨"Ab\\.c", 1, 0, 7, 0⟩
    let asked : Question := ⟨[[97, 66, 46, 67]], 1, 1⟩
    let e : Echo := ⟨7, 0x8783, asked,
      [⟨⟨asked.name, 1, 1, 60, .ipv4 ⟨8, 8, 4, 4⟩⟩, true⟩,
        ⟨⟨DomainName.root, 28, 1, 60, .ipv6 .unspecified⟩, false⟩], [], [], []⟩
    ∃ m raw reply, (q.prepareAll [.tcp, .tls]).message = .ok m ∧ m.write = .ok raw ∧
      Reply.ofBytes m e.bytes = .ok reply ∧
      e.bytes = [0, 7, 135, 131, 0, 1, 0, 2, 0, 0, 0, 0, 4, 97, 66, 46, 67, 0, 0, 1, 0, 1,
        192, 12, 0, 1, 0, 1, 0, 0, 0, 60, 0, 4, 8, 8, 4, 4,
        0, 0, 28, 0, 1, 0, 0, 0, 60, 0, 16] ++ List.replicate 16 0 := by
  intro q asked e
  have hn : DomainName.ofText q.name.toList = .ok [[65, 98, 46, 99]] := by decide
  have hproper : asked.name.Proper :=
    ⟨fun l hl => by rw [List.mem_singleton.mp hl]; decide, by decide⟩
  have hpointed : ReplyRecord.Suits asked.name ⟨⟨asked.name, 1, 1, 60, .ipv4 ⟨8, 8, 4, 4⟩⟩, true⟩ :=
    ⟨⟨hproper, .ipv4 _, by decide, fun h => absurd h (by decide)⟩, fun _ => rfl⟩
  have hfull : ReplyRecord.Suits asked.name
      ⟨⟨DomainName.root, 28, 1, 60, .ipv6 .unspecified⟩, false⟩ :=
    ⟨⟨DomainName.root_proper, .ipv6 _, by decide, fun h => absurd h (by decide)⟩, fun h => by cases h⟩
  have hsuits : e.Suits :=
    { answers := List.forall_mem_cons.mpr ⟨hpointed, List.forall_mem_singleton.mpr hfull⟩
      authority := List.forall_mem_nil _
      additional := List.forall_mem_nil _
      answersCount := by decide
      authorityCount := by decide
      additionalCount := by decide
      extended := by decide }
  have hsame : asked.name.SameLetters [[65, 98, 46, 99]] :=
    DomainName.same_iff_sameLetters.mp (by decide)
  obtain ⟨zeros, raw, hpack, -⟩ := pack_of_name (q := q.prepareAll [.tcp, .tls]) hn (by decide)
  obtain ⟨m, name, rest, hm, hraw, hname, hid, -, haccepts⟩ := accepts_every_echo hpack
  cases hn.symm.trans hname
  obtain ⟨reply, hreply, -⟩ := haccepts e hsuits ⟨hid.symm, by decide, by decide, hsame, rfl, rfl⟩
  exact ⟨m, raw, reply, hm, hraw, hreply, by decide⟩

end Query

end DnsOverStreams
