import DnsOverStreams.Proofs.Message.Fields
import DnsOverStreams.Proofs.Message.Written
import Mathlib.Data.List.Forall2
/-!
Where the records of a message stand. Whatever the bytes are, a reader goes on from a place in them, the
names that it reads are proper, and of a record it takes the type, the class, the time to live, the length
and so many bytes of data, which follow the name.
-/

namespace DnsOverStreams

namespace Cursor

variable {bs : Bytes} {place n : Nat} {after : Cursor}

theorem drop_of_cons {b : UInt8} {rest : Bytes} (h : b :: rest = bs.drop place) :
    rest = bs.drop (place + 1) := by
  rw [← List.drop_drop, ← h]
  rfl

theorem byte_seek {b : UInt8} (h : (seek bs place).byte = some (b, after)) :
    after = seek bs (place + 1) := by
  unfold seek at h ⊢
  match hd : bs.drop place with
  | [] => rw [hd] at h; cases h
  | a :: rest =>
      rw [hd] at h
      cases h
      rw [← drop_of_cons hd.symm]

theorem long_eq_words (c : Cursor) :
    c.long = c.word.bind fun hi => hi.2.word.map fun lo => (Bytes.toLong hi.1 lo.1, lo.2) := by
  obtain ⟨p, rest⟩ := c
  match rest with
  | [] => rfl
  | [_] => rfl
  | [_, _] => rfl
  | [_, _, _] => rfl
  | _ :: _ :: _ :: _ :: _ => rfl

theorem long_seek {l : UInt32} (h : (seek bs place).long = some (l, after)) :
    l = Bytes.toLong (bs.wordAt place) (bs.wordAt (place + 2)) ∧ after = seek bs (place + 4) := by
  simp only [long_eq_words, Option.bind_eq_some_iff, Option.map_eq_some_iff] at h
  obtain ⟨⟨hi, c⟩, hhi, ⟨lo, c'⟩, hlo, h⟩ := h
  obtain ⟨-, rfl, rfl⟩ := word_eq_some hhi
  obtain ⟨-, rfl, rfl⟩ := word_eq_some hlo
  cases h
  exact ⟨rfl, rfl⟩

theorem bytes_seek {front : Bytes} (h : (seek bs place).bytes n = some (front, after)) :
    front.length = n ∧ front = (bs.drop place).take n ∧ after = seek bs (place + n) := by
  unfold bytes seek at h
  dsimp only at h
  split at h
  · rename_i hlength
    cases h
    exact ⟨hlength, rfl, by rw [seek, List.drop_drop]⟩
  · cases h

end Cursor

namespace DomainName

variable {message rest : Bytes} {bound : Option Nat} {start place : Nat} {n : DomainName}
variable {after : Cursor}

theorem labelsAt_seek (hrest : rest = message.drop place)
    (h : labelsAt message bound start place rest = some (n, after)) :
    n.Regular ∧ ∃ p, after = .seek message p := by
  have hnil : Regular [] := fun _ hl => absurd hl List.not_mem_nil
  -- the induction follows the labels, and a pointer to the name that it stands for
  fun_induction labelsAt message bound start place rest generalizing n after with
  | case1 => cases h
  | case2 => cases h
  | case3 bound start place hb tail =>
      cases h
      rw [Cursor.drop_of_cons hrest]
      exact ⟨hnil, _, rfl⟩
  | case4 bound start place hb b tail hpos hsmall label hlabel labels c hlabels =>
      rename_i ih
      cases h
      have hlater : tail.drop b.toNat = message.drop (place + 1 + b.toNat) := by
        rw [Cursor.drop_of_cons hrest, List.drop_drop]
      obtain ⟨hregular, hplace⟩ := ih hlater hlabels
      refine ⟨fun l hl => ?_, hplace⟩
      rcases List.mem_cons.mp hl with rfl | hl
      · rw [hlabel]
        rw [UInt8.lt_iff_toNat_lt] at hsmall
        rw [← UInt8.toNat_inj] at hpos
        exact ⟨Nat.pos_of_ne_zero hpos, Nat.le_of_lt_succ hsmall⟩
      · exact hregular l hl
  | case5 => cases h
  | case6 => cases h
  | case7 => cases h
  | case8 => cases h
  | case9 bound start place hb b hpos hlarge hpointer low tail target hback labels c hlabels =>
      rename_i ih
      cases h
      rw [Cursor.drop_of_cons (Cursor.drop_of_cons hrest)]
      exact ⟨(ih rfl hlabels).1, _, rfl⟩
  | case10 => cases h
  | case11 => cases h

theorem read_seek (h : DomainName.read message (.seek message place) = some (n, after)) :
    n.Proper ∧ ∃ p, after = .seek message p := by
  unfold DomainName.read at h
  split at h
  · rename_i labels c hlabels
    split at h
    · rename_i hshort
      cases h
      obtain ⟨hregular, hplace⟩ := labelsAt_seek rfl hlabels
      exact ⟨⟨hregular, hshort⟩, hplace⟩
    · cases h
  · cases h

end DomainName

variable {bs : Bytes} {place : Nat} {after : Cursor}

theorem Question.read_seek {q : Question} (h : Question.read bs (.seek bs place) = some (q, after)) :
    q.name.Proper ∧ ∃ p, after = .seek bs p := by
  simp only [Question.read, Option.bind_eq_bind, Option.bind_eq_some_iff] at h
  obtain ⟨⟨name, c⟩, hname, ⟨t, c'⟩, htype, ⟨k, c''⟩, hclass, h⟩ := h
  obtain ⟨hproper, p, rfl⟩ := DomainName.read_seek hname
  obtain ⟨-, -, rfl⟩ := Cursor.word_eq_some htype
  obtain ⟨-, -, rfl⟩ := Cursor.word_eq_some hclass
  cases h
  exact ⟨hproper, _, rfl⟩

theorem Question.many_seek {n : Nat} {qs : List Question}
    (h : (Cursor.seek bs place).many (Question.read bs) n = some (qs, after)) :
    (∀ q ∈ qs, q.name.Proper) ∧ ∃ p, after = .seek bs p := by
  induction n generalizing place qs with
  | zero =>
      cases h
      exact ⟨List.forall_mem_nil _, place, rfl⟩
  | succ n ih =>
      simp only [Cursor.many, Option.bind_eq_bind, Option.bind_eq_some_iff] at h
      obtain ⟨⟨q, c⟩, hq, ⟨qs', c'⟩, hqs, h⟩ := h
      obtain ⟨hproper, p, rfl⟩ := Question.read_seek hq
      cases h
      obtain ⟨hrest, hplace⟩ := ih hqs
      exact ⟨List.forall_mem_cons.mpr ⟨hproper, hrest⟩, hplace⟩

theorem Message.names_of_read {m : Message} (h : Message.read bs = some m) :
    ∀ q ∈ m.questions, q.name.Proper := by
  obtain ⟨-, -, -, -, c, hmany⟩ := Message.read_eq_some h
  exact (Question.many_seek hmany).1

namespace Part

theorem textAt_seek {text : Bytes} (h : textAt (.seek bs place) = some (text, after)) :
    ∃ p, after = .seek bs p := by
  simp only [textAt, Option.bind_eq_bind, Option.bind_eq_some_iff] at h
  obtain ⟨⟨n, c⟩, hn, h⟩ := h
  obtain rfl := Cursor.byte_seek hn
  exact ⟨_, (Cursor.bytes_seek h).2.2⟩

theorem skip_seek {part : Part} (h : part.skip bs (.seek bs place) = some after) :
    ∃ p, after = .seek bs p := by
  cases part with
  | bytes count =>
      obtain ⟨⟨front, c⟩, hc, rfl⟩ := Option.map_eq_some_iff.mp h
      exact ⟨_, (Cursor.bytes_seek hc).2.2⟩
  | name =>
      obtain ⟨⟨name, c⟩, hc, rfl⟩ := Option.map_eq_some_iff.mp h
      exact (DomainName.read_seek hc).2
  | text =>
      obtain ⟨⟨text, c⟩, hc, rfl⟩ := Option.map_eq_some_iff.mp h
      exact textAt_seek hc
  | flags =>
      obtain ⟨⟨text, c⟩, hc, rfl⟩ := Option.map_eq_some_iff.mp h
      exact textAt_seek (Option.filter_eq_some_iff.mp hc).1

theorem skipAll_seek {parts : List Part} (h : skipAll bs parts (.seek bs place) = some after) :
    ∃ p, after = .seek bs p := by
  induction parts generalizing place with
  | nil => exact ⟨place, (Option.some.inj h).symm⟩
  | cons part parts ih =>
      obtain ⟨c, hc, h⟩ := Option.bind_eq_some_iff.mp h
      obtain ⟨p, rfl⟩ := skip_seek hc
      exact ih h

end Part

theorem Layout.read_seek {layout : Layout} {n : Nat} {data : Bytes}
    (h : layout.read bs n (.seek bs place) = some (data, after)) : ∃ p, after = .seek bs p := by
  simp only [Layout.read, Option.bind_eq_bind, Option.bind_eq_some_iff] at h
  obtain ⟨c, hc, ⟨ending, c'⟩, hending, h⟩ := h
  obtain ⟨p, rfl⟩ := Part.skipAll_seek hc
  obtain ⟨-, -, rfl⟩ := Cursor.bytes_seek hending
  split at h
  · cases h
    exact ⟨_, rfl⟩
  · cases h

/-- What data of a type is read as. Only data of the types of addresses is read as an address. -/
inductive RecordData.Holds : UInt16 → Bytes → RecordData → Prop where
  | empty (t : UInt16) : Holds t [] .empty
  | ipv4 (ip : Ipv4) : Holds RecordType.a ip.bytes (.ipv4 ip)
  | ipv6 (ip : Ipv6) : Holds RecordType.aaaa ip.bytes (.ipv6 ip)
  | options {bytes : Bytes} (hne : bytes ≠ []) (os : List EdnsOption) :
      Holds RecordType.opt bytes (.options os)
  | raw {t : UInt16} {bytes : Bytes} (h4 : t ≠ RecordType.a) (h6 : t ≠ RecordType.aaaa) (raw : Bytes) :
      Holds t bytes (.raw raw)

theorem Ipv6.flatMap_words {bytes : Bytes} (heven : bytes.length % 2 = 0) :
    (Ipv6.words bytes).flatMap Bytes.ofWord = bytes := by
  fun_induction Ipv6.words bytes with
  | case1 hi lo rest ih =>
      rw [List.flatMap_cons, Bytes.ofWord_toWord, ih (by simpa [Nat.add_assoc] using heven)]
      rfl
  | case2 bytes hshort =>
      rcases bytes with _ | ⟨hi, _ | ⟨lo, rest⟩⟩
      · rfl
      · cases heven
      · exact (hshort hi lo rest rfl).elim

theorem Ipv6.ofBytes?_eq_some {bytes : Bytes} {ip : Ipv6} (h : Ipv6.ofBytes? bytes = some ip) :
    bytes = ip.bytes := by
  unfold Ipv6.ofBytes? at h
  split at h
  · rename_i hlength
    unfold Ipv6.ofList? at h
    split at h
    · cases h
      exact (flatMap_words (by rw [hlength])).symm
    · cases h
  · cases h

namespace RecordData

variable {t : UInt16} {n : Nat} {data : RecordData}

theorem readBody_seek (hn : n ≠ 0) (hlength : ((bs.drop place).take n).length = n)
    (h : readBody bs t n (.seek bs place) = some (data, after)) :
    (∃ p, after = .seek bs p) ∧
      (after.place = place + n → data.Holds t ((bs.drop place).take n)) := by
  unfold readBody at h
  split at h
  · rename_i ht
    simp only [Option.bind_eq_bind, Option.bind_eq_some_iff] at h
    obtain ⟨⟨front, c⟩, hc, ip, hip, h⟩ := h
    obtain ⟨-, rfl, rfl⟩ := Cursor.bytes_seek hc
    cases h
    refine ⟨⟨_, rfl⟩, fun hplace => ?_⟩
    -- an address has its own length, which the place after it compares with the one announced
    obtain rfl : 4 = n := Nat.add_left_cancel hplace
    have hbytes : (bs.drop place).take 4 = ip.bytes := Ipv4.ofBytes?_eq_some hip
    rw [ht, hbytes]
    exact .ipv4 ip
  · rename_i h4
    split at h
    · rename_i ht
      simp only [Option.bind_eq_bind, Option.bind_eq_some_iff] at h
      obtain ⟨⟨front, c⟩, hc, ip, hip, h⟩ := h
      obtain ⟨-, rfl, rfl⟩ := Cursor.bytes_seek hc
      cases h
      refine ⟨⟨_, rfl⟩, fun hplace => ?_⟩
      obtain rfl : 16 = n := Nat.add_left_cancel hplace
      have hbytes : (bs.drop place).take 16 = ip.bytes := Ipv6.ofBytes?_eq_some hip
      rw [ht, hbytes]
      exact .ipv6 ip
    · rename_i h6
      split at h
      · rename_i ht
        simp only [Option.bind_eq_bind, Option.bind_eq_some_iff] at h
        obtain ⟨⟨front, c⟩, hc, os, -, h⟩ := h
        obtain ⟨-, -, rfl⟩ := Cursor.bytes_seek hc
        cases h
        have hne : (bs.drop place).take n ≠ [] := by
          rw [← List.length_pos_iff, hlength]
          exact Nat.pos_of_ne_zero hn
        rw [ht]
        exact ⟨⟨_, rfl⟩, fun _ => .options hne os⟩
      · simp only [Option.bind_eq_bind, Option.bind_eq_some_iff] at h
        obtain ⟨layout, -, ⟨raw, c⟩, hraw, h⟩ := h
        cases h
        exact ⟨Layout.read_seek hraw, fun _ => .raw h4 h6 raw⟩

theorem read_seek (h : RecordData.read bs t n (.seek bs place) = some (data, after)) :
    ((bs.drop place).take n).length = n ∧ after = .seek bs (place + n) ∧
      data.Holds t ((bs.drop place).take n) := by
  unfold RecordData.read at h
  split at h
  · rename_i hn
    cases h
    rw [hn]
    exact ⟨rfl, rfl, .empty t⟩
  · rename_i hn
    simp only [Option.bind_eq_bind, Option.bind_eq_some_iff] at h
    obtain ⟨⟨front, c⟩, hc, ⟨data', c'⟩, hbody, h⟩ := h
    obtain ⟨hlength, rfl, -⟩ := Cursor.bytes_seek hc
    obtain ⟨⟨p, rfl⟩, hdata⟩ := readBody_seek hn hlength hbody
    dsimp only at h
    split at h
    · rename_i hplace
      cases h
      obtain rfl : p = place + n := hplace
      exact ⟨hlength, rfl, hdata rfl⟩
    · cases h

end RecordData

/-- A record as it stands in the bytes, without its name and its class. -/
structure RecordBytes where
  recordType : UInt16
  ttl : UInt32
  data : Bytes
  deriving DecidableEq, Repr

namespace RecordBytes

/-- The record stands in the bytes from one place to another. Its name, in full or with a pointer, comes
first. -/
def Stands (bs : Bytes) (place : Nat) (r : RecordBytes) (later : Nat) : Prop :=
  ∃ name p, DomainName.read bs (.seek bs place) = some (name, .seek bs p) ∧
    r.recordType = bs.wordAt p ∧
    r.ttl = Bytes.toLong (bs.wordAt (p + 4)) (bs.wordAt (p + 6)) ∧
    r.data = (bs.drop (p + 10)).take (bs.wordAt (p + 8)).toNat ∧
    r.data.length = (bs.wordAt (p + 8)).toNat ∧
    later = p + 10 + r.data.length

inductive StandAll (bs : Bytes) : Nat → List RecordBytes → Nat → Prop where
  | nil (place : Nat) : StandAll bs place [] place
  | cons {place next later : Nat} {r : RecordBytes} {rs : List RecordBytes}
      (first : r.Stands bs place next) (rest : StandAll bs next rs later) :
      StandAll bs place (r :: rs) later

structure ReadAs (r : RecordBytes) (record : Record) : Prop where
  recordType : record.recordType = r.recordType
  ttl : record.ttl = r.ttl
  data : record.data.Holds r.recordType r.data

end RecordBytes

theorem Record.read_seek {record : Record} (h : Record.read bs (.seek bs place) = some (record, after)) :
    ∃ r p, RecordBytes.Stands bs place r p ∧ r.ReadAs record ∧ after = .seek bs p := by
  simp only [Record.read, Option.bind_eq_bind, Option.bind_eq_some_iff] at h
  obtain ⟨⟨name, c⟩, hname, ⟨t, c₁⟩, htype, h⟩ := h
  split at h
  · cases h
  · simp only [Option.bind_eq_some_iff] at h
    obtain ⟨⟨k, c₂⟩, hclass, ⟨ttl, c₃⟩, httl, ⟨n, c₄⟩, hlength, ⟨data, c₅⟩, hdata, h⟩ := h
    obtain ⟨-, p, rfl⟩ := DomainName.read_seek hname
    obtain ⟨-, rfl, rfl⟩ := Cursor.word_eq_some htype
    obtain ⟨-, -, rfl⟩ := Cursor.word_eq_some hclass
    obtain ⟨rfl, rfl⟩ := Cursor.long_seek httl
    obtain ⟨-, rfl, rfl⟩ := Cursor.word_eq_some hlength
    obtain ⟨hfits, rfl, hholds⟩ := RecordData.read_seek hdata
    cases h
    refine ⟨⟨bs.wordAt p, _, _⟩, _, ⟨name, p, hname, rfl, rfl, rfl, hfits, rfl⟩, ⟨rfl, rfl, hholds⟩, ?_⟩
    rw [hfits]

theorem Record.many_seek {n : Nat} {records : List Record}
    (h : (Cursor.seek bs place).many (Record.read bs) n = some (records, after)) :
    ∃ rs p, RecordBytes.StandAll bs place rs p ∧ List.Forall₂ RecordBytes.ReadAs rs records ∧
      rs.length = n ∧ after = .seek bs p := by
  induction n generalizing place records with
  | zero =>
      cases h
      exact ⟨[], place, .nil place, .nil, rfl, rfl⟩
  | succ n ih =>
      simp only [Cursor.many, Option.bind_eq_bind, Option.bind_eq_some_iff] at h
      obtain ⟨⟨record, c⟩, hrecord, ⟨records', c'⟩, hrecords, h⟩ := h
      obtain ⟨r, p, hstands, hread, rfl⟩ := Record.read_seek hrecord
      cases h
      obtain ⟨rs, p', hall, hreads, hlength, rfl⟩ := ih hrecords
      exact ⟨r :: rs, p', .cons hstands hall, .cons hread hreads, congrArg (· + 1) hlength, rfl⟩

end DnsOverStreams
