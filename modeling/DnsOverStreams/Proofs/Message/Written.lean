import DnsOverStreams.Message.Reader
import DnsOverStreams.Message.Writer
import DnsOverStreams.Proofs.DomainName.Written
import Mathlib.Algebra.Ring.Nat
/-!
Questions and records that are written are read from where they stand. Of the data of records, these are
addresses and options, which mean the same wherever they stand, and no data at all.
-/

namespace DnsOverStreams

structure DomainName.Proper (n : DomainName) : Prop where
  regular : n.Regular
  short : n.wireLength ≤ maxWire

theorem DomainName.root_proper : DomainName.Proper root :=
  ⟨fun _ hl => absurd hl List.not_mem_nil, by decide⟩

theorem Question.reads_of_name (q : Question) {written name : Bytes}
    (h : Reads DomainName.read written name q.name) :
    Reads Question.read written
      (name ++ Bytes.ofWord q.recordType ++ Bytes.ofWord q.recordClass) q := by
  intro tail
  have hname := h (Bytes.ofWord q.recordType ++ (Bytes.ofWord q.recordClass ++ tail))
  simp only [List.append_assoc] at hname ⊢
  simp only [Question.read, hname, Option.bind_eq_bind, Option.bind_some, Cursor.word_ofWord_append,
    List.length_append, Bytes.length_ofWord, Nat.add_assoc]

namespace Message

variable {known later : Known} {written bytes : Bytes} {n : DomainName} {q : Question} {r : Record}

theorem write_of_writeName {place : Nat} (h : writeName known place n = .ok (bytes, later)) :
    DomainName.write known place n = .ok (bytes, later) := by
  unfold writeName at h
  split at h
  · cases h
  · cases hw : DomainName.write known place n with
    | error e => rw [hw] at h; cases h
    | ok x => rw [hw] at h; cases h; rfl

theorem writeName_spec (hk : known.Sound written) (hn : n.Proper)
    (h : writeName known written.length n = .ok (bytes, later)) :
    later.Sound (written ++ bytes) ∧ bytes.length ≤ n.wireLength ∧
      Reads DomainName.read written bytes n := by
  obtain ⟨hlater, hlength, hread⟩ := DomainName.write_spec hk hn.regular (write_of_writeName h)
  exact ⟨hlater, hlength, hread hn.short⟩

theorem writeName_first {place : Nat} (h : writeName [] place n = .ok (bytes, known)) :
    n.wireLength ≤ DomainName.maxWire ∧ bytes.length = n.wireLength := by
  obtain ⟨hshort, rfl⟩ := DomainName.write_first (write_of_writeName h)
  exact ⟨hshort, n.length_bytes⟩

theorem writeName_isOk (known : Known) {place : Nat} (hn : n.Proper)
    (hroom : place + n.wireLength ≤ maxLength) :
    ∃ bytes later, writeName known place n = .ok (bytes, later) := by
  obtain ⟨bytes, later, hw⟩ := DomainName.write_isOk hn.short known place
  have hle : ¬ maxLength < place + n.size := by
    unfold DomainName.wireLength at hroom
    omega
  unfold writeName
  rw [if_neg hle, hw]
  exact ⟨bytes, later, rfl⟩

theorem writeQuestion_spec (hk : known.Sound written) (hq : q.name.Proper)
    (h : writeQuestion known written.length q = .ok (bytes, later)) :
    later.Sound (written ++ bytes) ∧ bytes.length ≤ q.name.wireLength + 4 ∧
      Reads Question.read written bytes q := by
  obtain ⟨⟨name, known'⟩, hw, h⟩ := ok_of_bind h
  cases h
  obtain ⟨hlater, hlength, hread⟩ := writeName_spec hk hq hw
  refine ⟨?_, ?_, q.reads_of_name hread⟩
  · rw [List.append_assoc name, ← List.append_assoc]
    exact hlater.extend _
  · simp only [List.length_append, Bytes.length_ofWord]
    omega

end Message

/-- Data that records of a type can have, without any name in it. -/
inductive RecordData.Fits : UInt16 → RecordData → Prop
  | empty (t : UInt16) : Fits t .empty
  | ipv4 (ip : Ipv4) : Fits RecordType.a (.ipv4 ip)
  | ipv6 (ip : Ipv6) : Fits RecordType.aaaa (.ipv6 ip)
  | options {os : List EdnsOption} (ho : ∀ o ∈ os, EdnsOption.allows o.code o.data = true) :
      Fits RecordType.opt (.options os)

/-- What is read of data that was written: options of no bytes are no data. -/
def RecordData.asRead : RecordData → RecordData
  | .options [] => .empty
  | d => d

def Record.asRead (r : Record) : Record :=
  { r with data := r.data.asRead }

namespace EdnsOption

theorem length_optionBytes (o : EdnsOption) :
    (Message.optionBytes o).length = o.data.length + 4 := by
  simp only [Message.optionBytes, List.length_append, Bytes.length_ofWord]
  omega

theorem readAll_flatMap {length : Nat} {os : List EdnsOption} (done : List EdnsOption)
    (hlength : length ≤ Message.maxLength) (hos : (os.flatMap Message.optionBytes).length ≤ length)
    (ho : ∀ o ∈ os, allows o.code o.data = true) :
    readAll length done (os.flatMap Message.optionBytes) = some (done.reverse ++ os) := by
  induction os generalizing done with
  | nil => simp [readAll]
  | cons o os ih =>
      rw [List.flatMap_cons, List.length_append, length_optionBytes] at hos
      have hword : (UInt16.ofNat o.data.length).toNat = o.data.length := by
        unfold Message.maxLength at hlength
        rw [UInt16.toNat_ofNat']
        omega
      have hbytes : (o :: os).flatMap Message.optionBytes =
          UInt8.ofNat (o.code.toNat / 256) :: UInt8.ofNat (o.code.toNat % 256) ::
          UInt8.ofNat ((UInt16.ofNat o.data.length).toNat / 256) ::
          UInt8.ofNat ((UInt16.ofNat o.data.length).toNat % 256) ::
          (o.data ++ os.flatMap Message.optionBytes) := by
        simp [Message.optionBytes, Bytes.ofWord]
      rw [hbytes, readAll]
      simp only [Bytes.toWord_bytes]
      simp only [hword]
      rw [if_pos (by omega), if_pos (by simp), List.take_left, List.drop_left,
        if_pos (ho o List.mem_cons_self),
        ih _ (by omega) fun p hp => ho p (List.mem_cons_of_mem _ hp)]
      simp

end EdnsOption

namespace RecordData

variable {t : UInt16} {d : RecordData}

theorem read_of_body {message tail : Bytes} {place : Nat} {bytes : Bytes} (hne : bytes.length ≠ 0)
    (h : readBody message t bytes.length ⟨place, bytes ++ tail⟩ =
      some (d, ⟨place + bytes.length, tail⟩)) :
    read message t bytes.length ⟨place, bytes ++ tail⟩ = some (d, ⟨place + bytes.length, tail⟩) := by
  rw [read, if_neg hne]
  simp only [Cursor.bytes_append place rfl, h, Option.bind_eq_bind, Option.bind_some, if_true]

theorem read_dataBytes (hf : Fits t d) (hlength : (Message.dataBytes d).length ≤ Message.maxLength)
    (message : Bytes) (place : Nat) (tail : Bytes) :
    read message t (Message.dataBytes d).length ⟨place, Message.dataBytes d ++ tail⟩ =
      some (d.asRead, ⟨place + (Message.dataBytes d).length, tail⟩) := by
  cases hf with
  | empty t => rfl
  | ipv4 ip =>
      have hlen : ip.bytes.length = 4 := rfl
      refine read_of_body (Nat.succ_ne_zero _) ?_
      rw [Message.dataBytes, readBody, if_pos rfl, Cursor.bytes_append place hlen]
      rfl
  | ipv6 ip =>
      have hlen : ip.bytes.length = 16 := by
        rw [Ipv6.bytes, Ipv6.length_flatMap_ofWord, ip.length_segments]
      refine read_of_body (by rw [Message.dataBytes, hlen]; decide) ?_
      rw [Message.dataBytes, readBody, if_neg (by decide), if_pos rfl,
        Cursor.bytes_append place hlen, hlen]
      simp only [Option.bind_eq_bind, Option.bind_some, Ipv6.ofBytes?_bytes]
      rfl
  | options ho =>
      rename_i os
      cases os with
      | nil => rfl
      | cons o os =>
          have hall : EdnsOption.readAll ((o :: os).flatMap Message.optionBytes).length []
              ((o :: os).flatMap Message.optionBytes) = some (o :: os) :=
            EdnsOption.readAll_flatMap [] hlength (Nat.le_refl _) ho
          refine read_of_body (by simp [Message.dataBytes, EdnsOption.length_optionBytes]) ?_
          rw [readBody, if_neg (by decide), if_neg (by decide), if_pos rfl,
            Cursor.bytes_append place rfl]
          simp only [Option.bind_eq_bind, Option.bind_some, Message.dataBytes, hall]
          rfl

end RecordData

structure Record.Proper (r : Record) : Prop where
  name : r.name.Proper
  data : r.data.Fits r.recordType
  length : (Message.dataBytes r.data).length ≤ Message.maxLength
  rootOnly : r.recordType = RecordType.opt → r.name = DomainName.root

def Record.rest (r : Record) : Bytes :=
  Bytes.ofWord r.recordType ++ Bytes.ofWord r.recordClass ++ Bytes.ofLong r.ttl ++
    Bytes.ofWord (UInt16.ofNat (Message.dataBytes r.data).length) ++ Message.dataBytes r.data

theorem Record.Proper.reads_of_name {r : Record} (hr : r.Proper) {written name : Bytes}
    (h : Reads DomainName.read written name r.name) :
    Reads Record.read written (name ++ r.rest) r.asRead := by
  intro tail
  have hword : (UInt16.ofNat (Message.dataBytes r.data).length).toNat =
      (Message.dataBytes r.data).length := by
    have := hr.length
    unfold Message.maxLength at this
    rw [UInt16.toNat_ofNat']
    omega
  have hroot : ¬ (decide (r.recordType = RecordType.opt) &&
      decide (r.name ≠ DomainName.root)) = true := by
    simpa using hr.rootOnly
  have hname := h (r.rest ++ tail)
  simp only [rest, List.append_assoc] at hname ⊢
  simp only [Record.read, hname, Option.bind_eq_bind, Option.bind_some, Cursor.word_ofWord_append,
    Cursor.long_ofLong_append, if_neg hroot, hword, RecordData.read_dataBytes hr.data hr.length]
  simp only [List.length_append, Bytes.length_ofWord, Bytes.length_ofLong, Nat.add_assoc]
  rfl

namespace Message

variable {known later : Known} {written bytes : Bytes} {r : Record}

theorem writeRecord_spec (hk : known.Sound written) (hr : r.Proper)
    (h : writeRecord known written.length r = .ok (bytes, later)) :
    later.Sound (written ++ bytes) ∧
      bytes.length ≤ r.name.wireLength + 10 + (dataBytes r.data).length ∧
      Reads Record.read written bytes r.asRead := by
  obtain ⟨⟨name, known'⟩, hw, h⟩ := ok_of_bind h
  cases h
  obtain ⟨hlater, hlength, hread⟩ := writeName_spec hk hr.name hw
  have hread := hr.reads_of_name hread
  unfold Record.rest at hread
  simp only [List.append_assoc] at hread ⊢
  refine ⟨?_, ?_, hread⟩
  · rw [← List.append_assoc]
    exact hlater.extend _
  · simp only [List.length_append, Bytes.length_ofWord, Bytes.length_ofLong]
    omega

end Message

def Question.room (q : Question) : Nat :=
  q.name.wireLength + 4

def Record.room (r : Record) : Nat :=
  r.name.wireLength + 10 + (Message.dataBytes r.data).length

/-- Several items that are read one after the other where the bytes stand. -/
def ReadsAll {α : Type} (item : Bytes → Cursor → Option (α × Cursor)) (written bytes : Bytes)
    (xs : List α) : Prop :=
  ∀ tail, Cursor.many ⟨written.length, bytes ++ tail⟩ (item (written ++ bytes ++ tail)) xs.length =
    some (xs, ⟨written.length + bytes.length, tail⟩)

section

variable {α : Type} {item : Bytes → Cursor → Option (α × Cursor)} {written front bytes : Bytes}

theorem readsAll_nil : ReadsAll item written [] [] :=
  fun _ => rfl

theorem ReadsAll.cons {x : α} {xs : List α} (h : Reads item written front x)
    (hs : ReadsAll item (written ++ front) bytes xs) :
    ReadsAll item written (front ++ bytes) (x :: xs) := by
  intro tail
  have hx := h (bytes ++ tail)
  have hxs := hs tail
  simp only [List.append_assoc, List.length_append] at hx hxs ⊢
  simp only [List.length_cons, Cursor.many, hx, hxs, Option.bind_eq_bind, Option.bind_some,
    Nat.add_assoc]

end

namespace Message

variable {known later : Known} {written bytes : Bytes} {qs : List Question} {rs : List Record}

theorem writeQuestions_cons {place : Nat} {front : Bytes} {known' : Known} {q : Question}
    (hw : writeQuestion known place q = .ok (front, known'))
    (hfit : place + front.length ≤ maxLength) :
    writeQuestions known place (q :: qs) =
      (writeQuestions known' (place + front.length) qs).map fun (rest, later) =>
        (front ++ rest, later) := by
  rw [writeQuestions, hw]
  change (if maxLength < place + front.length then _ else _) = _
  rw [if_neg (Nat.not_lt.mpr hfit)]
  cases writeQuestions known' (place + front.length) qs <;> rfl

theorem writeQuestions_spec (hk : known.Sound written) (hq : ∀ q ∈ qs, q.name.Proper)
    (h : writeQuestions known written.length qs = .ok (bytes, later)) :
    later.Sound (written ++ bytes) ∧ bytes.length ≤ (qs.map Question.room).sum ∧
      ReadsAll Question.read written bytes qs := by
  induction qs generalizing known written bytes with
  | nil =>
      cases h
      rw [List.append_nil]
      exact ⟨hk, Nat.le_refl _, readsAll_nil⟩
  | cons q qs ih =>
      obtain ⟨⟨front, known'⟩, hw, h⟩ := ok_of_bind h
      obtain ⟨hfront, hlength, hread⟩ := writeQuestion_spec hk (hq q List.mem_cons_self) hw
      dsimp only at h
      split at h
      · cases h
      · rw [← List.length_append] at h
        obtain ⟨⟨rest, known''⟩, hws, h⟩ := ok_of_bind h
        cases h
        obtain ⟨hlater, hlengths, hreads⟩ :=
          ih hfront (fun p hp => hq p (List.mem_cons_of_mem _ hp)) hws
        rw [List.append_assoc] at hlater
        refine ⟨hlater, ?_, hreads.cons hread⟩
        rw [List.map_cons, List.sum_cons, List.length_append]
        exact Nat.add_le_add hlength hlengths

theorem writeQuestions_isOk (hk : known.Sound written) (hq : ∀ q ∈ qs, q.name.Proper)
    (hroom : written.length + (qs.map Question.room).sum ≤ maxLength) :
    ∃ bytes later, writeQuestions known written.length qs = .ok (bytes, later) := by
  induction qs generalizing known written with
  | nil => exact ⟨[], known, rfl⟩
  | cons q qs ih =>
      have hproper := hq q List.mem_cons_self
      rw [List.map_cons, List.sum_cons, Question.room] at hroom
      have hname : written.length + q.name.wireLength ≤ maxLength := by omega
      obtain ⟨name, known', hn⟩ := writeName_isOk known hproper hname
      have hw : writeQuestion known written.length q =
          .ok (name ++ Bytes.ofWord q.recordType ++ Bytes.ofWord q.recordClass, known') := by
        rw [writeQuestion, hn]
        rfl
      obtain ⟨hfront, hlength, -⟩ := writeQuestion_spec hk hproper hw
      obtain ⟨rest, later, hws⟩ := ih hfront (fun p hp => hq p (List.mem_cons_of_mem _ hp))
        (by rw [List.length_append]; omega)
      rw [List.length_append] at hws
      rw [writeQuestions_cons hw (by omega), hws]
      exact ⟨_, _, rfl⟩

/-- The first of the records stand in the bytes, as many as were written. -/
structure Recorded (rs : List Record) (written bytes : Bytes) (later : Known) (count : Nat) :
    Prop where
  count_le : count ≤ rs.length
  sound : later.Sound (written ++ bytes)
  length : bytes.length ≤ ((rs.take count).map Record.room).sum
  reads : ReadsAll Record.read written bytes ((rs.take count).map Record.asRead)

theorem recorded_none (hk : known.Sound written) : Recorded rs written [] known 0 where
  count_le := Nat.zero_le _
  sound := by rwa [List.append_nil]
  length := Nat.zero_le _
  reads := readsAll_nil

theorem writeRecords_spec {count : Nat} (hk : known.Sound written) (hr : ∀ r ∈ rs, r.Proper)
    (h : writeRecords known written.length rs = .ok (bytes, later, count)) :
    Recorded rs written bytes later count := by
  induction rs generalizing known written bytes count with
  | nil => cases h; exact recorded_none hk
  | cons r rs ih =>
      rw [writeRecords] at h
      cases hw : writeRecord known written.length r with
      | error e =>
          rw [hw] at h
          cases e with
          | full => cases h; exact recorded_none hk
          | name e => cases h
      | ok x =>
          obtain ⟨front, known'⟩ := x
          rw [hw] at h
          dsimp only at h
          split at h
          · cases h; exact recorded_none hk
          · obtain ⟨hfront, hlength, hread⟩ := writeRecord_spec hk (hr r List.mem_cons_self) hw
            rw [← List.length_append] at h
            obtain ⟨⟨rest, known'', more⟩, hws, h⟩ := ok_of_bind h
            cases h
            obtain ⟨hcount, hlater, hlengths, hreads⟩ :=
              ih hfront (fun p hp => hr p (List.mem_cons_of_mem _ hp)) hws
            rw [List.append_assoc] at hlater
            refine ⟨Nat.succ_le_succ hcount, hlater, ?_, ?_⟩
            · rw [List.take_succ_cons, List.map_cons, List.sum_cons, List.length_append]
              exact Nat.add_le_add hlength hlengths
            · rw [List.take_succ_cons, List.map_cons]
              exact hreads.cons hread

theorem writeRecords_isOk (hk : known.Sound written) (hr : ∀ r ∈ rs, r.Proper)
    (hroom : written.length + (rs.map Record.room).sum ≤ maxLength) :
    ∃ bytes later, writeRecords known written.length rs = .ok (bytes, later, rs.length) := by
  induction rs generalizing known written with
  | nil => exact ⟨[], known, rfl⟩
  | cons r rs ih =>
      have hproper := hr r List.mem_cons_self
      rw [List.map_cons, List.sum_cons, Record.room] at hroom
      have hname : written.length + r.name.wireLength ≤ maxLength := by omega
      obtain ⟨name, known', hn⟩ := writeName_isOk known hproper.name hname
      obtain ⟨front, hw⟩ : ∃ front, writeRecord known written.length r = .ok (front, known') := by
        rw [writeRecord, hn]
        exact ⟨_, rfl⟩
      obtain ⟨hfront, hlength, -⟩ := writeRecord_spec hk hproper hw
      obtain ⟨rest, later, hws⟩ := ih hfront (fun p hp => hr p (List.mem_cons_of_mem _ hp))
        (by rw [List.length_append]; omega)
      rw [List.length_append] at hws
      refine ⟨front ++ rest, later, ?_⟩
      rw [writeRecords, hw]
      dsimp only
      rw [if_neg (by omega), hws]
      rfl

theorem writeQuestions_fits {place : Nat} (hplace : place ≤ maxLength)
    (h : writeQuestions known place qs = .ok (bytes, later)) :
    place + bytes.length ≤ maxLength ∧ qs.length ≤ bytes.length := by
  induction qs generalizing known place bytes with
  | nil => cases h; exact ⟨hplace, Nat.le_refl _⟩
  | cons q qs ih =>
      obtain ⟨⟨front, known'⟩, hw, h⟩ := ok_of_bind h
      obtain ⟨⟨name, known''⟩, -, hw⟩ := ok_of_bind hw
      cases hw
      dsimp only at h
      split at h
      · cases h
      · rename_i hfit
        obtain ⟨⟨rest, later'⟩, hws, h⟩ := ok_of_bind h
        cases h
        obtain ⟨hend, hcount⟩ := ih (Nat.not_lt.mp hfit) hws
        simp only [List.length_append, List.length_cons, Bytes.length_ofWord] at hend ⊢
        omega

theorem writeRecords_fits {place count : Nat} (hplace : place ≤ maxLength)
    (h : writeRecords known place rs = .ok (bytes, later, count)) :
    place + bytes.length ≤ maxLength ∧ count ≤ bytes.length ∧ count ≤ rs.length := by
  induction rs generalizing known place bytes count with
  | nil => cases h; exact ⟨hplace, Nat.le_refl _, Nat.le_refl _⟩
  | cons r rs ih =>
      rw [writeRecords] at h
      cases hw : writeRecord known place r with
      | error e =>
          rw [hw] at h
          cases e with
          | full => cases h; exact ⟨hplace, Nat.le_refl _, Nat.zero_le _⟩
          | name e => cases h
      | ok x =>
          obtain ⟨⟨name, known'⟩, -, hrecord⟩ := ok_of_bind hw
          cases hrecord
          rw [hw] at h
          dsimp only at h
          split at h
          · cases h; exact ⟨hplace, Nat.le_refl _, Nat.zero_le _⟩
          · rename_i hfit
            obtain ⟨⟨rest, later', more⟩, hws, h⟩ := ok_of_bind h
            cases h
            obtain ⟨hend, hcount, hle⟩ := ih (Nat.not_lt.mp hfit) hws
            simp only [List.length_append, List.length_cons, Bytes.length_ofWord] at hend ⊢
            omega

end Message

end DnsOverStreams
