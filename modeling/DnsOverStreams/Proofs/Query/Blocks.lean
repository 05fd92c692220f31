import DnsOverStreams.Proofs.Query.Sent
import Mathlib.Order.Bounds.Defs
import Mathlib.Order.Monotone.Defs
/-!
The bytes of a query with extension data, and the length of those that are padded.
-/

namespace DnsOverStreams

def Edns.fixedBytes (e : Edns) : Bytes :=
  [0] ++ Bytes.ofWord RecordType.opt ++ Bytes.ofWord e.maxPayload ++ Bytes.ofLong e.toRecord.ttl

namespace Message

variable {known : Known} {place : Nat}

theorem writeName_root (hroom : place ≤ maxLength) :
    writeName known place DomainName.root = .ok ([0], known) := by
  have hwrite : DomainName.write known place DomainName.root = .ok ([0], known) := by
    change Except.ok ([0], if place + 0 < DomainName.reach then known ++ [] else known) = _
    rw [List.append_nil, ite_self]
  have hfits : ¬ maxLength < place + DomainName.root.size := Nat.not_lt.mpr hroom
  unfold writeName
  rw [if_neg hfits, hwrite]
  rfl

def optionsLength (options : List EdnsOption) : Bytes :=
  Bytes.ofWord (UInt16.ofNat (options.flatMap optionBytes).length)

theorem writeRecords_edns (e : Edns)
    (hroom : place + 11 + (e.options.flatMap optionBytes).length ≤ maxLength) :
    writeRecords known place [e.toRecord] =
      .ok (e.fixedBytes ++ optionsLength e.options ++ e.options.flatMap optionBytes, known, 1) := by
  have hrecord : writeRecord known place e.toRecord =
      .ok (e.fixedBytes ++ optionsLength e.options ++ e.options.flatMap optionBytes, known) := by
    unfold writeRecord
    change (writeName known place DomainName.root >>= _) = _
    rw [writeName_root (by omega)]
    rfl
  have hlength : (e.fixedBytes ++ optionsLength e.options ++
      e.options.flatMap optionBytes).length = 11 + (e.options.flatMap optionBytes).length := by
    rw [List.length_append]
    rfl
  rw [writeRecords, hrecord]
  dsimp only
  rw [hlength, if_neg (by omega)]
  change Except.ok _ = _
  rw [List.append_nil]

end Message

namespace Query

variable {q : Query} {name : DomainName} {written : Bytes} {known : Known}

/-- The message of a query up to the length of its options, given the bytes of its name. -/
def beforeOptions (q : Query) (written : Bytes) : Bytes :=
  Message.headerBytes q.id 0x0100 1 0 0 1 ++
    (written ++ Bytes.ofWord q.recordType ++ Bytes.ofWord internet) ++ (q.edns []).fixedBytes

theorem length_beforeOptions (q : Query) (written : Bytes) :
    (q.beforeOptions written).length = written.length + 25 := by
  unfold beforeOptions
  simp only [List.length_append, Bytes.length_ofWord]
  change 12 + (written.length + 2 + 2) + 9 = _
  omega

theorem hasEdns_of_padding (hp : q.padding = true) : q.hasEdns = true := by
  have hflags : q.flags ≠ 0 := by
    intro h
    unfold padding at hp
    rw [h] at hp
    exact absurd hp (by decide)
  unfold hasEdns
  rw [bne_iff_ne.mpr hflags, Bool.or_true]

theorem write_messageFor (he : q.hasEdns = true)
    (hw : Message.writeName [] Message.headerLength name = .ok (written, known))
    (options : List EdnsOption)
    (hroom : written.length + 27 + (options.flatMap Message.optionBytes).length ≤
      Message.maxLength) :
    (q.messageFor name options).write = .ok (q.beforeOptions written ++
      Message.optionsLength options ++ options.flatMap Message.optionBytes) := by
  let asked : Bytes := written ++ Bytes.ofWord q.recordType ++ Bytes.ofWord internet
  have hlength : asked.length = written.length + 4 := by
    simp only [asked, List.length_append, Bytes.length_ofWord]
  have hquestion : Message.writeQuestion [] Message.headerLength ⟨name, q.recordType, internet⟩ =
      .ok (asked, known) := by
    unfold Message.writeQuestion
    rw [hw]
    rfl
  have hquestions : Message.writeQuestions [] Message.headerLength
      (q.messageFor name options).questions = .ok (asked, known) := by
    change Message.writeQuestions _ _ [_] = _
    rw [Message.writeQuestions_cons hquestion (by rw [hlength, Message.headerLength]; omega)]
    change Except.ok (_ ++ [], known) = _
    rw [List.append_nil]
  have hlast : (q.messageFor name options).lastSection = [(q.edns options).toRecord] := by
    change ((if q.hasEdns then some (q.edns options) else none).map Edns.toRecord).toList = _
    rw [if_pos he]
    rfl
  have hfits : Message.headerLength + asked.length + 11 +
      ((q.edns options).options.flatMap Message.optionBytes).length ≤ Message.maxLength := by
    rw [hlength, Message.headerLength]
    change _ + (options.flatMap _).length ≤ _
    omega
  apply Message.WrittenWhole.write
  unfold Message.WrittenWhole
  rw [hlast]
  refine ⟨asked, [], [], _, known, known, known, known, hquestions, rfl, rfl,
    Message.writeRecords_edns (q.edns options) hfits, ?_⟩
  simp only [beforeOptions, asked, List.append_assoc, List.append_nil]
  rfl

/-- How long padded messages are whose name takes so many bytes. -/
def paddedLength (encoded : Nat) : Nat :=
  (encoded + 31 + 127) / 128 * 128

theorem paddedLength_mono : Monotone paddedLength := by
  intro m n h
  unfold paddedLength
  omega

theorem paddedLength_cases {encoded : Nat} (h : encoded ≤ DomainName.maxWire) :
    paddedLength encoded = 128 ∨ paddedLength encoded = 256 ∨ paddedLength encoded = 384 := by
  unfold DomainName.maxWire at h
  unfold paddedLength
  omega

theorem paddingFor_le (length : Nat) : paddingFor length ≤ 127 :=
  Nat.le_of_lt_succ (Nat.mod_lt _ (by decide))

theorem paddedLength_eq {length : Nat} (h : length = written.length + 27) :
    length + optionHeader + paddingFor length = paddedLength written.length := by
  unfold optionHeader paddingFor paddedLength block optionHeader
  omega

theorem length_padded {length : Nat} (h : length = written.length + 27) :
    (q.beforeOptions written ++ Bytes.ofWord (UInt16.ofNat (4 + paddingFor length)) ++
      (Bytes.ofWord paddingCode ++ Bytes.ofWord (UInt16.ofNat (paddingFor length)) ++
        List.replicate (paddingFor length) 0)).length = paddedLength written.length := by
  rw [← paddedLength_eq h]
  simp only [List.length_append, length_beforeOptions, Bytes.length_ofWord, List.length_replicate]
  unfold optionHeader
  omega

theorem isLeast_paddedLength {length : Nat} (h : length = written.length + 27) :
    IsLeast {n | 128 ∣ n ∧ length + 4 ≤ n} (paddedLength written.length) := by
  constructor
  · refine ⟨Nat.dvd_mul_left _ _, ?_⟩
    rw [← paddedLength_eq h]
    exact Nat.le_add_right _ _
  · rintro n ⟨⟨k, rfl⟩, hn⟩
    unfold paddedLength
    omega

theorem paddingOption_bytes (length : Nat) :
    [paddingOption length].flatMap Message.optionBytes =
      Bytes.ofWord paddingCode ++ Bytes.ofWord (UInt16.ofNat (paddingFor length)) ++
        List.replicate (paddingFor length) 0 := by
  rw [List.flatMap_singleton, Message.optionBytes, paddingOption, List.length_replicate]

theorem write_plain (he : q.hasEdns = true)
    (hw : Message.writeName [] Message.headerLength name = .ok (written, known)) :
    (q.messageFor name []).write = .ok (q.beforeOptions written ++ Bytes.ofWord 0) := by
  obtain ⟨hshort, hname⟩ := Message.writeName_first hw
  have hroom : written.length + 27 + 0 ≤ Message.maxLength := by
    unfold DomainName.maxWire at hshort
    unfold Message.maxLength
    omega
  rw [write_messageFor he hw [] hroom, List.flatMap_nil, List.append_nil]
  rfl

theorem write_padded (he : q.hasEdns = true)
    (hw : Message.writeName [] Message.headerLength name = .ok (written, known)) (length : Nat) :
    (q.messageFor name [paddingOption length]).write =
      .ok (q.beforeOptions written ++ Bytes.ofWord (UInt16.ofNat (4 + paddingFor length)) ++
        (Bytes.ofWord paddingCode ++ Bytes.ofWord (UInt16.ofNat (paddingFor length)) ++
          List.replicate (paddingFor length) 0)) := by
  obtain ⟨hshort, hname⟩ := Message.writeName_first hw
  have hzeros := paddingFor_le length
  have hoption : ([paddingOption length].flatMap Message.optionBytes).length =
      4 + paddingFor length := by
    rw [paddingOption_bytes]
    simp only [List.length_append, Bytes.length_ofWord, List.length_replicate]
  have hroom : written.length + 27 + ([paddingOption length].flatMap Message.optionBytes).length ≤
      Message.maxLength := by
    unfold DomainName.maxWire at hshort
    unfold Message.maxLength
    omega
  rw [write_messageFor he hw _ hroom, Message.optionsLength, hoption, paddingOption_bytes]

theorem pack_of_padding {bytes : Bytes} (hp : q.padding = true)
    (hn : DomainName.ofText q.name.toList = .ok name)
    (hbytes : (q.messageFor name []).write = .ok bytes) :
    q.pack = (q.messageFor name [paddingOption bytes.length]).write := by
  unfold pack message
  rw [hn, hp]
  change (((q.messageFor name []).write >>= _) >>= _) = _
  rw [hbytes]
  rfl

/-- A padded query is a whole number of blocks, as few as hold it and the header of the option. How
many is decided by what the name takes, and only the options and their length tell it from the same
query without padding. -/
theorem pack_fills_blocks (hp : q.padding = true)
    (hn : DomainName.ofText q.name.toList = .ok name)
    (hw : Message.writeName [] Message.headerLength name = .ok (written, known)) :
    Monotone paddedLength ∧ ∃ bytes zeros raw,
      (q.messageFor name []).edns = some (q.edns []) ∧
      (q.messageFor name []).write = .ok bytes ∧ q.pack = .ok raw ∧
      IsLeast {n | 128 ∣ n ∧ bytes.length + 4 ≤ n} raw.length ∧
      raw.length = bytes.length + 4 + zeros ∧ zeros ≤ 127 ∧
      raw.length = paddedLength written.length ∧
      (raw.length = 128 ∨ raw.length = 256 ∨ raw.length = 384) ∧
      bytes = q.beforeOptions written ++ Bytes.ofWord 0 ∧
      raw = q.beforeOptions written ++ Bytes.ofWord (UInt16.ofNat (4 + zeros)) ++
        (Bytes.ofWord paddingCode ++ Bytes.ofWord (UInt16.ofNat zeros) ++
          List.replicate zeros 0) := by
  have he := hasEdns_of_padding hp
  obtain ⟨hshort, hname⟩ := Message.writeName_first hw
  have hplain := write_plain he hw
  obtain ⟨length, hlength⟩ : ∃ n, n = (q.beforeOptions written ++ Bytes.ofWord 0).length :=
    ⟨_, rfl⟩
  have hpack := (pack_of_padding hp hn hplain).trans (write_padded he hw _)
  rw [← hlength] at hpack
  rw [List.length_append, length_beforeOptions, Bytes.length_ofWord] at hlength
  have hbytes : (q.beforeOptions written ++ Bytes.ofWord 0).length = length := by
    rw [List.length_append, length_beforeOptions, Bytes.length_ofWord, hlength]
  have hblocks := length_padded (q := q) hlength
  have htotal := hblocks.trans (paddedLength_eq hlength).symm
  refine ⟨paddedLength_mono, _, paddingFor length, _, ?_, hplain, hpack, ?_, ?_,
    paddingFor_le length, hblocks, ?_, rfl, rfl⟩
  · change (if q.hasEdns then some (q.edns []) else none) = _
    rw [if_pos he]
  · rw [hbytes, hblocks]
    exact isLeast_paddedLength hlength
  · rw [hbytes, htotal]
    rfl
  · rw [hblocks]
    exact paddedLength_cases (hname ▸ hshort)

theorem pack_fills_blocks_past_boundary :
    let q : Query :=
      ⟨String.ofList (List.replicate 63 'a' ++ '.' :: List.replicate 32 'b'), 28, 1, 7, 0⟩
    ∃ raw, q.pack = .ok raw ∧ raw.length = 256 := by
  intro q
  have hn : DomainName.ofText q.name.toList =
      .ok [List.replicate 63 97, List.replicate 32 98] := by decide +kernel
  obtain ⟨written, known, hw, hlength⟩ : ∃ written known, Message.writeName [] Message.headerLength
      [List.replicate 63 97, List.replicate 32 98] = .ok (written, known) ∧
        written.length = 98 := ⟨_, _, rfl, by decide⟩
  obtain ⟨-, bytes, zeros, raw, -, -, hpack, -, -, -, hraw, -⟩ :=
    pack_fills_blocks (q := q) (by decide) hn hw
  refine ⟨raw, hpack, ?_⟩
  rw [hraw, hlength]
  rfl

end Query

end DnsOverStreams
