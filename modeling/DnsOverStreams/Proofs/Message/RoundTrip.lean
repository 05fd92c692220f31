import DnsOverStreams.Proofs.Message.Fields
import DnsOverStreams.Proofs.Message.Written
/-!
A message that is written is read back: the header, the questions, and of the records those that there was
room for.
-/

namespace DnsOverStreams

namespace Message

theorem bitValue_eq (b : Bool) (n : Nat) : bitValue b n = b.toNat <<< n := by
  cases b <;> simp [bitValue]

theorem code_lt (o : Opcode) : o.code < 16 := by
  cases o <;> decide

theorem bit_eq {w : UInt16} {n : Nat} {b : Bool} (h : w.toNat >>> n % 2 = b.toNat) :
    Flags.bit w n = b := by
  rw [Flags.bit, h]
  cases b <;> rfl

theorem flagsWord_spec (m : Message) (truncated : Bool) :
    Flags.ofWord (m.flagsWord truncated) =
        { m.flags with truncated := m.flags.truncated || truncated } ∧
      (m.flagsWord truncated).toNat >>> 11 % 16 = m.opcode.code ∧
      (m.flagsWord truncated).toNat % 16 = m.lowCode % 16 := by
  have hcode := code_lt m.opcode
  have hr := Bool.toNat_le m.flags.response
  have ha := Bool.toNat_le m.flags.authoritative
  have ht := Bool.toNat_le (m.flags.truncated || truncated)
  have hd := Bool.toNat_le m.flags.recursionDesired
  have hv := Bool.toNat_le m.flags.recursionAvailable
  have hu := Bool.toNat_le m.flags.authentic
  have hc := Bool.toNat_le m.flags.checkingDisabled
  have hword : (m.flagsWord truncated).toNat =
      m.flags.response.toNat <<< 15 + m.opcode.code <<< 11 +
      m.flags.authoritative.toNat <<< 10 + (m.flags.truncated || truncated).toNat <<< 9 +
      m.flags.recursionDesired.toNat <<< 8 + m.flags.recursionAvailable.toNat <<< 7 +
      m.flags.authentic.toNat <<< 5 + m.flags.checkingDisabled.toNat <<< 4 +
      m.lowCode % 16 := by
    simp only [flagsWord, bitValue_eq, UInt16.toNat_ofNat']
    omega
  refine ⟨?_, by omega, by omega⟩
  rw [Flags.ofWord, Flags.mk.injEq]
  refine ⟨bit_eq ?_, bit_eq ?_, bit_eq ?_, bit_eq ?_, bit_eq ?_, bit_eq ?_, bit_eq ?_⟩
  all_goals omega

end Message

theorem Message.write_eq_ok {m : Message} {raw : Bytes} (h : m.write = .ok raw) :
    ∃ qs as ns ds k₁ k₂ k₃ k₄ na nn nd,
      writeQuestions [] headerLength m.questions = .ok (qs, k₁) ∧
      writeRecords k₁ (headerLength + qs.length) m.answers = .ok (as, k₂, na) ∧
      writeRecords k₂ (headerLength + qs.length + as.length) m.authority = .ok (ns, k₃, nn) ∧
      writeRecords k₃ (headerLength + qs.length + as.length + ns.length) m.lastSection =
        .ok (ds, k₄, nd) ∧
      raw = headerBytes m.id (m.flagsWord (na < m.answers.length || nn < m.authority.length ||
        nd < m.lastSection.length)) m.questions.length na nn nd ++ qs ++ as ++ ns ++ ds := by
  obtain ⟨⟨qs, k₁⟩, hq, h⟩ := ok_of_bind h
  obtain ⟨⟨as, k₂, na⟩, ha, h⟩ := ok_of_bind h
  obtain ⟨⟨ns, k₃, nn⟩, hn, h⟩ := ok_of_bind h
  obtain ⟨⟨ds, k₄, nd⟩, hd, h⟩ := ok_of_bind h
  cases h
  exact ⟨qs, as, ns, ds, k₁, k₂, k₃, k₄, na, nn, nd, hq, ha, hn, hd, rfl⟩

theorem Message.write_header {m : Message} {raw : Bytes} (h : m.write = .ok raw) :
    ∃ truncated qs as ns ds rest,
      raw = headerBytes m.id (m.flagsWord truncated) qs as ns ds ++ rest := by
  obtain ⟨qs, as, ns, ds, k₁, k₂, k₃, k₄, na, nn, nd, -, -, -, -, rfl⟩ := write_eq_ok h
  have hrest (header : Bytes) :
      header ++ qs ++ as ++ ns ++ ds = header ++ (qs ++ (as ++ (ns ++ ds))) := by
    simp only [List.append_assoc]
  exact ⟨_, _, _, _, _, _, hrest _⟩

theorem length_headerBytes (id flags : UInt16) (qs as ns ds : Nat) :
    (Message.headerBytes id flags qs as ns ds).length = Message.headerLength :=
  rfl

theorem Header.read_headerBytes (id flags : UInt16) (qs as ns ds : Nat) (tail : Bytes) :
    Header.read ⟨0, Message.headerBytes id flags qs as ns ds ++ tail⟩ =
      some (⟨id, flags, .ofNat qs, .ofNat as, .ofNat ns, .ofNat ds⟩, ⟨12, tail⟩) := by
  simp only [Message.headerBytes, List.append_assoc, Header.read, Cursor.word_ofWord_append,
    Option.bind_eq_bind, Option.bind_some, Nat.zero_add, Nat.reduceAdd]

namespace Edns

structure Proper (e : Edns) : Prop where
  highCode : e.highCode < 256
  version : e.version < 256
  payload : minPayload ≤ e.maxPayload
  options : ∀ o ∈ e.options, EdnsOption.allows o.code o.data = true
  length : (e.options.flatMap Message.optionBytes).length ≤ Message.maxLength

theorem Proper.toRecord {e : Edns} (h : e.Proper) : e.toRecord.Proper where
  name := DomainName.root_proper
  data := .options h.options
  length := h.length
  rootOnly := fun _ => rfl

theorem ofRecord_toRecord {e : Edns} (h : e.Proper) : ofRecord e.toRecord.asRead = e := by
  obtain ⟨highCode, version, dnssecOk, maxPayload, options⟩ := e
  obtain ⟨hhigh, hversion, hpayload, -, -⟩ := h
  dsimp only at hhigh hversion hpayload
  have httl : (UInt32.ofNat (highCode <<< 24 + version <<< 16 +
      if dnssecOk then 1 <<< 15 else 0)).toNat =
      highCode <<< 24 + version <<< 16 + dnssecOk.toNat <<< 15 := by
    have hdnssec : (if dnssecOk then 1 <<< 15 else 0) = dnssecOk.toNat <<< 15 := by
      cases dnssecOk <;> rfl
    have := Bool.toNat_le dnssecOk
    rw [hdnssec, UInt32.toNat_ofNat']
    omega
  have hb := Bool.toNat_le dnssecOk
  simp only [ofRecord, Edns.toRecord, Record.asRead, httl, Edns.mk.injEq]
  refine ⟨by omega, by omega, ?_, ?_, ?_⟩
  · have hbit : (highCode <<< 24 + version <<< 16 + dnssecOk.toNat <<< 15) >>> 15 % 2 =
        dnssecOk.toNat := by
      omega
    rw [hbit]
    cases dnssecOk <;> rfl
  · change (if maxPayload ≤ minPayload then minPayload else maxPayload) = maxPayload
    split
    · rename_i hle
      exact UInt16.le_antisymm hpayload hle
    · rfl
  · cases options <;> rfl

end Edns

namespace Message

theorem read_of_parts {raw header qs as ns ds tail : Bytes} {h : Header} {opcode : Opcode}
    {questions : List Question} {answers authority last : List Record} {edns : Option Edns}
    (hheader : ∀ tail, Header.read ⟨0, header ++ tail⟩ = some (h, ⟨header.length, tail⟩))
    (hopcode : h.flags.toNat >>> 11 % 16 = opcode.code)
    (hq : ReadsAll Question.read header qs questions)
    (ha : ReadsAll Record.read (header ++ qs) as answers)
    (hn : ReadsAll Record.read (header ++ qs ++ as) ns authority)
    (hd : ReadsAll Record.read (header ++ qs ++ as ++ ns) ds last)
    (hqs : h.questions.toNat = questions.length) (has : h.answers.toNat = answers.length)
    (hns : h.authority.toNat = authority.length) (hds : h.additional.toNat = last.length)
    (hedns : ednsOf (last.filter isOpt) = some edns) (hraw : raw = header ++ qs ++ as ++ ns ++ ds ++ tail) :
    Message.read raw = some
      { id := h.id, opcode := opcode, flags := Flags.ofWord h.flags, lowCode := h.flags.toNat % 16
        questions := questions, answers := answers, authority := authority
        additional := last.filter (!isOpt ·), edns := edns } := by
  have hread := hheader (qs ++ as ++ ns ++ ds ++ tail)
  have hquestions := hq (as ++ ns ++ ds ++ tail)
  have hanswers := ha (ns ++ ds ++ tail)
  have hauthority := hn (ds ++ tail)
  have hlast := hd tail
  simp only [List.append_assoc, List.length_append, Nat.add_assoc]
    at hread hquestions hanswers hauthority hlast hraw
  unfold Message.read
  rw [hraw]
  simp only [Cursor.seek, List.drop_zero, hread, hopcode, Opcode.ofCode?_code, hqs, has, hns, hds,
    hquestions, hanswers, hauthority, hlast, hedns, Option.bind_eq_bind, Option.bind_some]

variable {m : Message} {raw : Bytes}

/-- Messages whose parts can be written in full and be read without looking elsewhere. -/
structure Proper (m : Message) : Prop where
  lowCode : m.lowCode < 16
  questions : ∀ q ∈ m.questions, q.name.Proper
  answers : ∀ r ∈ m.answers, r.Proper
  authority : ∀ r ∈ m.authority, r.Proper
  additional : ∀ r ∈ m.additional, r.Proper ∧ isOpt r = false
  edns : ∀ e ∈ m.edns, e.Proper

def asRead (m : Message) : Message :=
  { m with
    answers := m.answers.map Record.asRead
    authority := m.authority.map Record.asRead
    additional := m.additional.map Record.asRead }

def room (m : Message) : Nat :=
  headerLength + (m.questions.map Question.room).sum + (m.answers.map Record.room).sum +
    (m.authority.map Record.room).sum + (m.lastSection.map Record.room).sum

/-- The bytes of a message from which no record was left out. -/
def WrittenWhole (m : Message) (raw : Bytes) : Prop :=
  ∃ qs as ns ds k₁ k₂ k₃ k₄,
    writeQuestions [] headerLength m.questions = .ok (qs, k₁) ∧
    writeRecords k₁ (headerLength + qs.length) m.answers = .ok (as, k₂, m.answers.length) ∧
    writeRecords k₂ (headerLength + qs.length + as.length) m.authority =
      .ok (ns, k₃, m.authority.length) ∧
    writeRecords k₃ (headerLength + qs.length + as.length + ns.length) m.lastSection =
      .ok (ds, k₄, m.lastSection.length) ∧
    raw = headerBytes m.id (m.flagsWord false) m.questions.length m.answers.length
      m.authority.length m.lastSection.length ++ qs ++ as ++ ns ++ ds

theorem WrittenWhole.write (h : WrittenWhole m raw) : m.write = .ok raw := by
  obtain ⟨qs, as, ns, ds, k₁, k₂, k₃, k₄, hq, ha, hn, hd, rfl⟩ := h
  simp only [Message.write, hq, ha, hn, hd, bind, Except.bind, Nat.lt_irrefl, decide_false,
    Bool.or_false]

theorem Proper.lastSection (hm : m.Proper) : ∀ r ∈ m.lastSection, r.Proper := by
  intro r hr
  rcases List.mem_append.mp hr with hr | hr
  · exact (hm.additional r hr).1
  · obtain ⟨e, he, rfl⟩ := Option.map_eq_some_iff.mp (Option.mem_toList.mp hr)
    exact (hm.edns e he).toRecord

theorem Proper.split_lastSection (hm : m.Proper) :
    ednsOf ((m.lastSection.map Record.asRead).filter isOpt) = some m.edns ∧
      (m.lastSection.map Record.asRead).filter (!isOpt ·) = m.additional.map Record.asRead := by
  have hplain : ∀ r ∈ m.additional.map Record.asRead, isOpt r = false := by
    intro r hr
    obtain ⟨s, hs, rfl⟩ := List.mem_map.mp hr
    exact (hm.additional s hs).2
  have hnone : (m.additional.map Record.asRead).filter isOpt = [] :=
    List.filter_eq_nil_iff.mpr fun r hr => Bool.eq_false_iff.mp (hplain r hr)
  have hall : (m.additional.map Record.asRead).filter (!isOpt ·) = m.additional.map Record.asRead :=
    List.filter_eq_self.mpr fun r hr => by rw [hplain r hr]; rfl
  unfold Message.lastSection
  rw [List.map_append, List.filter_append, List.filter_append, hnone, hall]
  cases he : m.edns with
  | none => exact ⟨rfl, List.append_nil _⟩
  | some e =>
      refine ⟨?_, List.append_nil _⟩
      change some (some (Edns.ofRecord e.toRecord.asRead)) = _
      rw [Edns.ofRecord_toRecord (hm.edns e he)]

theorem toNat_count {n : Nat} (h : n ≤ maxLength) : (UInt16.ofNat n).toNat = n := by
  unfold maxLength at h
  rw [UInt16.toNat_ofNat']
  omega

theorem WrittenWhole.counts (h : WrittenWhole m raw) :
    m.questions.length ≤ maxLength ∧ m.answers.length ≤ maxLength ∧
      m.authority.length ≤ maxLength ∧ m.lastSection.length ≤ maxLength := by
  obtain ⟨qs, as, ns, ds, k₁, k₂, k₃, k₄, hqs, has, hns, hds, -⟩ := h
  obtain ⟨hq, hquestions⟩ := writeQuestions_fits (by decide) hqs
  obtain ⟨ha, hanswers, -⟩ := writeRecords_fits hq has
  obtain ⟨hn, hauthority, -⟩ := writeRecords_fits ha hns
  obtain ⟨hd, hlast, -⟩ := writeRecords_fits hn hds
  omega

theorem writtenWhole_of_write (h : m.write = .ok raw) (hbit : Flags.bit (raw.wordAt 2) 9 = false) :
    WrittenWhole m raw := by
  obtain ⟨qs, as, ns, ds, k₁, k₂, k₃, k₄, na, nn, nd, hqs, has, hns, hds, rfl⟩ := write_eq_ok h
  obtain ⟨hq, -⟩ := writeQuestions_fits (by decide) hqs
  obtain ⟨ha, -, hanswers⟩ := writeRecords_fits hq has
  obtain ⟨hn, -, hauthority⟩ := writeRecords_fits ha hns
  obtain ⟨-, -, hlast⟩ := writeRecords_fits hn hds
  generalize htruncated : (decide (na < m.answers.length) || decide (nn < m.authority.length) ||
    decide (nd < m.lastSection.length)) = truncated at hbit ⊢
  have hword : Bytes.wordAt (headerBytes m.id (m.flagsWord truncated) m.questions.length na nn nd ++
      qs ++ as ++ ns ++ ds) 2 = m.flagsWord truncated := Bytes.toWord_bytes _
  have hflag : Flags.bit (m.flagsWord truncated) 9 = (m.flags.truncated || truncated) :=
    congrArg Flags.truncated (flagsWord_spec m truncated).1
  obtain ⟨-, rfl⟩ : m.flags.truncated = false ∧ truncated = false := by
    rw [hword, hflag] at hbit
    simpa using hbit
  -- no section was cut short, so the header counts all the records there are
  simp only [Bool.or_eq_false_iff, decide_eq_false_iff_not, Nat.not_lt] at htruncated
  obtain ⟨⟨h1, h2⟩, h3⟩ := htruncated
  obtain rfl := Nat.le_antisymm hanswers h1
  obtain rfl := Nat.le_antisymm hauthority h2
  obtain rfl := Nat.le_antisymm hlast h3
  exact ⟨qs, as, ns, ds, k₁, k₂, k₃, k₄, hqs, has, hns, hds, rfl⟩

theorem WrittenWhole.read (hm : m.Proper) (h : WrittenWhole m raw) :
    Message.read raw = some m.asRead := by
  obtain ⟨hq, ha, hn, hd⟩ := h.counts
  obtain ⟨qs, as, ns, ds, k₁, k₂, k₃, k₄, hqs, has, hns, hds, hraw⟩ := h
  obtain ⟨hflags, hopcode, hlow⟩ := flagsWord_spec m false
  generalize hh : headerBytes m.id (m.flagsWord false) m.questions.length m.answers.length
    m.authority.length m.lastSection.length = header at hraw
  have hlength : header.length = headerLength := by rw [← hh]; rfl
  rw [← hlength] at hqs has hns hds
  obtain ⟨hk₁, -, hquestions⟩ := writeQuestions_spec (Known.sound_nil header) hm.questions hqs
  rw [← List.length_append] at has hns hds
  have hanswers := writeRecords_spec hk₁ hm.answers has
  rw [← List.length_append] at hns hds
  have hauthority := writeRecords_spec hanswers.sound hm.authority hns
  rw [← List.length_append] at hds
  have hlast := writeRecords_spec hauthority.sound hm.lastSection hds
  obtain ⟨hedns, hadditional⟩ := hm.split_lastSection
  have hread := read_of_parts (h := ⟨m.id, m.flagsWord false, .ofNat m.questions.length,
    .ofNat m.answers.length, .ofNat m.authority.length, .ofNat m.lastSection.length⟩)
    (fun tail => by rw [← hh]; exact Header.read_headerBytes _ _ _ _ _ _ tail) hopcode hquestions
    hanswers.reads hauthority.reads hlast.reads (toNat_count hq)
    (by rw [List.take_length, List.length_map]; exact toNat_count ha)
    (by rw [List.take_length, List.length_map]; exact toNat_count hn)
    (by rw [List.take_length, List.length_map]; exact toNat_count hd)
    (by rw [List.take_length]; exact hedns) (hraw.trans (List.append_nil _).symm)
  rw [hread]
  simp only [List.take_length, hadditional, hflags, hlow, Nat.mod_eq_of_lt hm.lowCode,
    Bool.or_false]
  rfl

theorem writtenWhole_of_room (hm : m.Proper) (hroom : m.room ≤ maxLength) :
    ∃ raw, WrittenWhole m raw ∧ raw.length ≤ m.room := by
  unfold room at hroom ⊢
  -- what the header says is not known before the sections are written, only its length matters
  let header : Bytes := List.replicate headerLength 0
  have hlength : header.length = headerLength := List.length_replicate
  obtain ⟨qs, k₁, hqs⟩ := writeQuestions_isOk (Known.sound_nil header) hm.questions (by omega)
  obtain ⟨hk₁, hq, -⟩ := writeQuestions_spec (Known.sound_nil header) hm.questions hqs
  obtain ⟨as, k₂, has⟩ := writeRecords_isOk hk₁ hm.answers (by rw [List.length_append]; omega)
  obtain ⟨-, hk₂, ha, -⟩ := writeRecords_spec hk₁ hm.answers has
  rw [List.take_length] at ha
  obtain ⟨ns, k₃, hns⟩ := writeRecords_isOk hk₂ hm.authority
    (by rw [List.length_append, List.length_append]; omega)
  obtain ⟨-, hk₃, hn, -⟩ := writeRecords_spec hk₂ hm.authority hns
  rw [List.take_length] at hn
  obtain ⟨ds, k₄, hds⟩ := writeRecords_isOk hk₃ hm.lastSection
    (by rw [List.length_append, List.length_append, List.length_append]; omega)
  obtain ⟨-, -, hd, -⟩ := writeRecords_spec hk₃ hm.lastSection hds
  rw [List.take_length] at hd
  simp only [List.length_append, hlength] at hqs has hns hds
  refine ⟨_, ⟨qs, as, ns, ds, k₁, k₂, k₃, k₄, hqs, has, hns, hds, rfl⟩, ?_⟩
  simp only [List.length_append, length_headerBytes]
  omega

theorem write_read_of_room (hm : m.Proper) (hroom : m.room ≤ maxLength) :
    ∃ raw, m.write = .ok raw ∧ raw.length ≤ m.room ∧ Message.read raw = some m.asRead := by
  obtain ⟨raw, hwhole, hlength⟩ := writtenWhole_of_room hm hroom
  exact ⟨raw, hwhole.write, hlength, hwhole.read hm⟩

end Message

end DnsOverStreams
