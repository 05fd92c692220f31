import DnsOverStreams.Proofs.Query.Blocks
import DnsOverStreams.Proofs.Query.ReadBack
/-!
Which queries can be encoded. That is decided by the text of the name alone, and so is the failure of those
that cannot; what is encoded has three blocks at most.
-/

namespace DnsOverStreams

namespace DomainName

/-- Why a text gives no name that can be sent: it spells none, or one that is too long when it is written. -/
inductive Unsendable (text : List Char) : NameError → Prop where
  | misspelled {e : NameError} (h : ofText text = .error e) : Unsendable text e
  | long {name : DomainName} (h : ofText text = .ok name) (hlong : maxWire < name.wireLength) :
      Unsendable text (.longName name.wireLength)

theorem sendable_or_not (text : List Char) :
    (∃ name, ofText text = .ok name ∧ name.wireLength ≤ maxWire) ∨ ∃ e, Unsendable text e := by
  cases h : ofText text with
  | error e => exact .inr ⟨e, .misspelled h⟩
  | ok name =>
      rcases Nat.lt_or_ge maxWire name.wireLength with hlong | hshort
      · exact .inr ⟨_, .long h hlong⟩
      · exact .inl ⟨name, rfl, hshort⟩

theorem write_long {n : DomainName} (h : maxWire < n.wireLength) (place : Nat) :
    write [] place n = .error (.longName n.wireLength) := by
  unfold write
  rw [split_nil]
  exact if_neg (Nat.not_le.mpr h)

end DomainName

namespace Query

variable {q : Query} {name : DomainName} {raw : Bytes} {cause : WriteError} {e : NameError}

theorem write_of_long (q : Query) (hn : DomainName.ofText q.name.toList = .ok name)
    (hlong : DomainName.maxWire < name.wireLength) (options : List EdnsOption) :
    (q.messageFor name options).write = .error (.name (.longName name.wireLength)) := by
  have hroom : ¬ Message.maxLength < Message.headerLength + name.size := by
    have hsize := DomainName.ofText_size hn
    unfold DomainName.maxWire at hsize
    unfold Message.maxLength Message.headerLength
    omega
  have hname : Message.writeName [] Message.headerLength name =
      .error (.name (.longName name.wireLength)) := by
    unfold Message.writeName
    rw [if_neg hroom, DomainName.write_long hlong]
    rfl
  have hquestions : Message.writeQuestions [] Message.headerLength
      (q.messageFor name options).questions = .error (.name (.longName name.wireLength)) := by
    change Message.writeQuestion [] Message.headerLength ⟨name, _, _⟩ >>= _ = _
    unfold Message.writeQuestion
    rw [hname]
    rfl
  unfold Message.write
  rw [hquestions]
  rfl

theorem pack_of_unsendable (h : DomainName.Unsendable q.name.toList e) :
    q.pack = .error (.name e) := by
  unfold pack message
  cases h with
  | misspelled hn =>
      rw [hn]
      rfl
  | @long name hn hlong =>
      rw [hn]
      change ((if q.padding then _ else Except.ok (q.messageFor name [])) >>= _) = _
      -- with padding the message is written once before, to be measured
      split
      · rw [write_of_long q hn hlong]
        rfl
      · exact write_of_long q hn hlong []

theorem pack_eq_error_iff :
    q.pack = .error cause ↔ ∃ e, DomainName.Unsendable q.name.toList e ∧ cause = .name e := by
  constructor
  · intro h
    rcases DomainName.sendable_or_not q.name.toList with ⟨name, hn, hshort⟩ | ⟨e, he⟩
    · obtain ⟨zeros, raw, hpack, -⟩ := pack_of_name hn hshort
      cases hpack.symm.trans h
    · cases (pack_of_unsendable he).symm.trans h
      exact ⟨e, he, rfl⟩
  · rintro ⟨e, he, rfl⟩
    exact pack_of_unsendable he

theorem pack_isOk_iff :
    (∃ raw, q.pack = .ok raw) ↔
      ∃ name, DomainName.ofText q.name.toList = .ok name ∧ name.wireLength ≤ DomainName.maxWire := by
  constructor
  · rintro ⟨raw, h⟩
    exact name_of_pack h
  · rintro ⟨name, hn, hshort⟩
    obtain ⟨zeros, raw, hpack, -⟩ := pack_of_name hn hshort
    exact ⟨raw, hpack⟩

theorem length_of_plain (hp : q.padding = false) (hname : name.Proper)
    (hn : DomainName.ofText q.name.toList = .ok name) (h : q.pack = .ok raw) : raw.length ≤ 3 * block := by
  obtain ⟨raw', hraw, hlength, -⟩ := Message.write_read_of_room (messageFor_proper q hname modest_nil)
    (Nat.le_trans (room_messageFor q hname modest_nil) (by decide))
  have hpack : q.pack = (q.messageFor name []).write := by
    unfold pack message
    rw [hn, hp]
    rfl
  cases (hpack.trans hraw).symm.trans h
  have hroom : (q.messageFor name []).room ≤ Message.headerLength + (name.wireLength + 4) + 11 := by
    change _ + ((((if q.hasEdns then some (q.edns []) else none).map Edns.toRecord).toList).map
      Record.room).sum ≤ _
    split
    · exact Nat.le_refl _
    · exact Nat.le_add_right _ _
  have hshort := hname.short
  unfold DomainName.maxWire at hshort
  unfold Message.headerLength at hroom
  unfold block
  omega

theorem length_of_padded (hp : q.padding = true) (hname : name.Proper)
    (hn : DomainName.ofText q.name.toList = .ok name) (h : q.pack = .ok raw) : raw.length ≤ 3 * block := by
  have hroom : Message.headerLength + name.wireLength ≤ Message.maxLength :=
    Nat.le_trans (Nat.add_le_add_left hname.short _) (by decide)
  obtain ⟨written, known, hw⟩ := Message.writeName_isOk [] hname hroom
  obtain ⟨hshort, hwritten⟩ := Message.writeName_first hw
  have he := hasEdns_of_padding hp
  have hplain := write_plain he hw
  have hlength : (q.beforeOptions written ++ Bytes.ofWord 0).length = written.length + 27 := by
    rw [List.length_append, length_beforeOptions, Bytes.length_ofWord]
  cases ((pack_of_padding hp hn hplain).trans (write_padded he hw _)).symm.trans h
  rw [length_padded hlength, hwritten]
  rcases paddedLength_cases hshort with h | h | h <;> rw [h] <;> decide

theorem length_of_pack (h : q.pack = .ok raw) : raw.length ≤ 3 * block := by
  obtain ⟨name, hn, hshort⟩ := name_of_pack h
  have hname : name.Proper := ⟨DomainName.ofText_regular hn, hshort⟩
  cases hp : q.padding with
  | false => exact length_of_plain hp hname hn h
  | true => exact length_of_padded hp hname hn h

end Query

end DnsOverStreams
