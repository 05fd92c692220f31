import DnsOverStreams.Proofs.Query.Sent
import Mathlib.Data.Nat.Bitwise

namespace DnsOverStreams

namespace Query

variable {q : Query} {name : DomainName}

theorem prepare_keeps (p : Protocol) (q : Query) :
    (q.prepare p).name = q.name ∧ (q.prepare p).recordType = q.recordType := by
  cases p <;> exact ⟨rfl, rfl⟩

theorem prepareAll_keeps (ps : List Protocol) (q : Query) :
    (q.prepareAll ps).name = q.name ∧ (q.prepareAll ps).recordType = q.recordType := by
  induction ps generalizing q with
  | nil => exact ⟨rfl, rfl⟩
  | cons p ps ih =>
      obtain ⟨hname, htype⟩ := prepare_keeps p q
      obtain ⟨hnames, htypes⟩ := ih (q.prepare p)
      exact ⟨hnames.trans hname, htypes.trans htype⟩

theorem flagged_iff {flag : UInt16} {i : Nat} (hflag : flag.toNat = 2 ^ i) (flags : UInt16) :
    (flags &&& flag != 0) = true ↔ flags.toNat.testBit i = true := by
  have hbit : (flags &&& flag).toNat = (flags.toNat.testBit i).toNat * 2 ^ i := by
    rw [UInt16.toNat_and, hflag]
    exact Nat.and_two_pow _ i
  rw [bne_iff_ne, ne_eq, ← UInt16.toNat_inj, hbit]
  cases flags.toNat.testBit i <;> simp

theorem dnssec_iff (q : Query) : q.dnssec = true ↔ q.flags.toNat.testBit 1 = true :=
  flagged_iff rfl q.flags

theorem hasEdns_iff (q : Query) : q.hasEdns = true ↔ 0 < q.maxSize ∨ q.flags ≠ 0 := by
  simp only [hasEdns, Bool.or_eq_true, bne_iff_ne, UInt16.pos_iff_ne_zero]

def optionsOf (q : Query) (zeros : Nat) : List EdnsOption :=
  if q.padding then [⟨paddingCode, List.replicate zeros 0⟩] else []

theorem pack_of_name (hn : DomainName.ofText q.name.toList = .ok name)
    (hshort : name.wireLength ≤ DomainName.maxWire) :
    ∃ zeros raw, q.pack = .ok raw ∧
      Message.read raw = some (q.messageFor name (q.optionsOf zeros)) := by
  obtain ⟨options, raw, hmessage, hwrite, -, hread⟩ := message_sent hn hshort
  have hpack : q.pack = .ok raw := by
    unfold pack
    rw [hmessage]
    exact hwrite
  obtain ⟨name', hn', hshape⟩ := message_eq_ok hmessage
  cases hn.symm.trans hn'
  rcases hshape with ⟨hplain, hm⟩ | ⟨bytes, hpadded, -, hm⟩
  · exact ⟨0, raw, hpack, by rw [hread, hm, optionsOf, hplain]; rfl⟩
  · exact ⟨paddingFor bytes.length, raw, hpack, by rw [hread, hm, optionsOf, hpadded]; rfl⟩

theorem short_of_write {options : List EdnsOption} {raw : Bytes}
    (h : (q.messageFor name options).write = .ok raw) : name.wireLength ≤ DomainName.maxWire := by
  obtain ⟨⟨asked, known⟩, hquestions, -⟩ := ok_of_bind h
  obtain ⟨⟨question, known'⟩, hquestion, -⟩ := ok_of_bind hquestions
  obtain ⟨⟨bytes, known''⟩, hname, -⟩ := ok_of_bind hquestion
  -- nothing is known at the first name
  exact (Message.writeName_first hname).1

theorem name_of_write {m : Message} {raw : Bytes} (hm : q.message = .ok m)
    (hraw : m.write = .ok raw) :
    ∃ name, DomainName.ofText q.name.toList = .ok name ∧ name.wireLength ≤ DomainName.maxWire := by
  obtain ⟨name, options, hn, rfl⟩ := message_eq_messageFor hm
  exact ⟨name, hn, short_of_write hraw⟩

theorem length_of_write {m : Message} {raw : Bytes} (hm : q.message = .ok m)
    (hraw : m.write = .ok raw) : raw.length ≤ maxSent := by
  obtain ⟨name, hn, hshort⟩ := name_of_write hm hraw
  obtain ⟨options, raw', hm', hraw', hlength, -⟩ := message_sent hn hshort
  cases hm.symm.trans hm'
  cases hraw.symm.trans hraw'
  exact hlength

theorem name_of_pack {raw : Bytes} (h : q.pack = .ok raw) :
    ∃ name, DomainName.ofText q.name.toList = .ok name ∧ name.wireLength ≤ DomainName.maxWire := by
  obtain ⟨m, hm, hraw⟩ := ok_of_bind h
  exact name_of_write hm hraw

/-- The message asks just what the query does, in the class of the internet, and has extension data if the
query wants any. -/
structure Conveys (q : Query) (name : DomainName) (m : Message) : Prop where
  id : m.id = q.id
  opcode : m.opcode = .query
  flags : m.flags =
    { response := false, authoritative := false, truncated := false, recursionDesired := true
      recursionAvailable := false, authentic := false, checkingDisabled := false }
  responseCode : m.responseCode = 0
  questions : m.questions = [⟨name, q.recordType, 1⟩]
  answers : m.answers = []
  authority : m.authority = []
  additional : m.additional = []
  edns : m.edns.isSome = true ↔ 0 < q.maxSize ∨ q.flags ≠ 0
  version : ∀ e ∈ m.edns, e.version = 0
  payload : ∀ e ∈ m.edns, e.maxPayload.toNat = max q.maxSize.toNat 512
  dnssec : ∀ e ∈ m.edns, e.dnssecOk = true ↔ q.flags.toNat.testBit 1 = true
  options : ∀ e ∈ m.edns, ∃ zeros, e.options =
    if q.padding then [⟨paddingCode, List.replicate zeros 0⟩] else []

theorem toNat_payload (n : UInt16) : (max n Edns.minPayload).toNat = max n.toNat 512 := by
  change (if n ≤ Edns.minPayload then Edns.minPayload else n).toNat = _
  have hmin : Edns.minPayload.toNat = 512 := rfl
  split
  · rename_i h
    rw [UInt16.le_iff_toNat_le, hmin] at h
    rw [hmin, Nat.max_eq_right h]
  · rename_i h
    rw [UInt16.le_iff_toNat_le, hmin] at h
    rw [Nat.max_eq_left (Nat.le_of_not_le h)]

theorem conveys_messageFor (q : Query) (name : DomainName) (zeros : Nat) :
    q.Conveys name (q.messageFor name (q.optionsOf zeros)) := by
  have hedns : (q.messageFor name (q.optionsOf zeros)).edns =
      if q.hasEdns then some (q.edns (q.optionsOf zeros)) else none := rfl
  have hsome (e : Edns) (he : e ∈ (q.messageFor name (q.optionsOf zeros)).edns) :
      e = q.edns (q.optionsOf zeros) := by
    rw [hedns, Option.mem_def, Option.ite_none_right_eq_some] at he
    exact (Option.some.inj he.2).symm
  refine ⟨rfl, rfl, rfl, ?_, rfl, rfl, rfl, rfl, ?_, fun e he => ?_, fun e he => ?_, fun e he => ?_,
    fun e he => ?_⟩
  · unfold Message.responseCode
    rw [hedns]
    cases q.hasEdns <;> rfl
  · rw [← hasEdns_iff, hedns]
    cases q.hasEdns <;> simp
  · rw [hsome e he]
    rfl
  · rw [hsome e he]
    exact toNat_payload q.maxSize
  · rw [hsome e he]
    exact dnssec_iff q
  · rw [hsome e he]
    exact ⟨zeros, rfl⟩

/-- A query is packed, whatever settings were made, just when its name can be written, and it is read back
as the message that conveys it. -/
theorem pack_reads_back (q : Query) (ps : List Protocol) :
    ((∃ raw, (q.prepareAll ps).pack = .ok raw) ↔
      ∃ name, DomainName.ofText q.name.toList = .ok name ∧
        name.wireLength ≤ DomainName.maxWire) ∧
    ∀ name raw, DomainName.ofText q.name.toList = .ok name → (q.prepareAll ps).pack = .ok raw →
      (q.prepareAll ps).recordType = q.recordType ∧
        ∃ m, Message.read raw = some m ∧ (q.prepareAll ps).Conveys name m := by
  obtain ⟨hname, htype⟩ := prepareAll_keeps ps q
  rw [← hname]
  refine ⟨⟨fun ⟨raw, hraw⟩ => name_of_pack hraw, fun ⟨name, hn, hshort⟩ => ?_⟩, ?_⟩
  · obtain ⟨zeros, raw, hpack, -⟩ := pack_of_name hn hshort
    exact ⟨raw, hpack⟩
  · intro name raw hn hraw
    obtain ⟨name', hn', hshort⟩ := name_of_pack hraw
    cases hn.symm.trans hn'
    obtain ⟨zeros, raw', hpack, hread⟩ := pack_of_name hn hshort
    cases hraw.symm.trans hpack
    exact ⟨htype, _, hread, conveys_messageFor _ _ _⟩

theorem pack_reads_back_padded :
    let q : Query := ⟨"Ab\\.c.", 28, 0x8000, 7, 0⟩
    ∃ raw m, (q.prepareAll [.quic, .tls]).pack = .ok raw ∧ Message.read raw = some m ∧
      m.id = 0 ∧ m.questions = [⟨[[65, 98, 46, 99]], 28, 1⟩] ∧
      ∀ e ∈ m.edns, e.maxPayload.toNat = 65535 ∧ e.dnssecOk = true := by
  intro q
  have hn : DomainName.ofText "Ab\\.c.".toList = .ok [[65, 98, 46, 99]] := by decide
  obtain ⟨hpacks, hreads⟩ := pack_reads_back q [.quic, .tls]
  obtain ⟨raw, hpack⟩ := hpacks.mpr ⟨_, hn, by decide⟩
  obtain ⟨-, m, hread, h⟩ := hreads _ raw hn hpack
  exact ⟨raw, m, hpack, hread, h.id, h.questions, fun e he =>
    ⟨h.payload e he, (h.dnssec e he).mpr (by decide)⟩⟩

end Query

end DnsOverStreams
