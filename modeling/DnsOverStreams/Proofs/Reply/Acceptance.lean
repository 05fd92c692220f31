import DnsOverStreams.Reply
import DnsOverStreams.Proofs.DomainName.Case
import DnsOverStreams.Proofs.Message.Fields
import DnsOverStreams.Proofs.Query.Sent

namespace DnsOverStreams

/-- The bytes say that one question is asked, and after the header they ask the given one. -/
def Asks (bs : Bytes) (q : Question) : Prop :=
  bs.wordAt 4 = 1 ∧ ∃ asked c, Question.read bs (.seek bs 12) = some (asked, c) ∧
    asked.name.SameLetters q.name ∧ asked.recordType = q.recordType ∧
    asked.recordClass = q.recordClass

/-- What is made of bytes that arrive as the reply to a message. Of several defects the first counts. -/
def Judged (id : UInt16) (opcode : Opcode) (q : Question) (bs : Bytes) :
    Except InvalidReply Reply → Prop
  | .ok reply =>
      Message.read bs = some reply.message ∧ 12 ≤ bs.length ∧ bs.wordAt 0 = id ∧
        bs.responseBit = 1 ∧ bs.opcodeBits = opcode.code ∧ Asks bs q
  | .error .malformed => Message.read bs = none
  | .error .notAReply => (Message.read bs).isSome = true ∧ bs.responseBit = 0
  | .error (.idMismatch expected actual) =>
      (Message.read bs).isSome = true ∧ bs.responseBit = 1 ∧
        expected = id ∧ actual = bs.wordAt 0 ∧ actual ≠ id
  | .error .opcodeMismatch =>
      (Message.read bs).isSome = true ∧ bs.responseBit = 1 ∧ bs.wordAt 0 = id ∧
        bs.opcodeBits ≠ opcode.code
  | .error .questionMismatch =>
      (Message.read bs).isSome = true ∧ bs.responseBit = 1 ∧ bs.wordAt 0 = id ∧
        bs.opcodeBits = opcode.code ∧ ¬ Asks bs q

namespace Opcode

theorem code_inj {o p : Opcode} (h : o.code = p.code) : o = p := by
  cases o <;> cases p <;> first | rfl | cases h

end Opcode

namespace Message

variable {bs : Bytes} {m : Message} {q : Question}

theorem sameQuestions_singleton {ps : List Question} :
    sameQuestions ps [q] = true ↔ ∃ p, ps = [p] ∧ p.same q = true := by
  constructor
  · intro h
    obtain ⟨p, rfl⟩ := List.length_eq_one_iff.mp (sameQuestions_length h)
    exact ⟨p, rfl, by simpa [sameQuestions] using h⟩
  · rintro ⟨p, rfl, h⟩
    simpa [sameQuestions] using h

theorem sameQuestions_iff_asks (h : Message.read bs = some m) :
    sameQuestions m.questions [q] = true ↔ Asks bs q := by
  obtain ⟨-, -, -, -, c, hmany⟩ := read_eq_some h
  rw [sameQuestions_singleton]
  constructor
  · rintro ⟨asked, hq, hsame⟩
    rw [hq] at hmany
    have hcount : bs.wordAt 4 = 1 := UInt16.toNat_inj.mp (Cursor.many_eq_some hmany).symm
    rw [hcount] at hmany
    obtain ⟨hname, htype, hclass⟩ := Question.same_iff.mp hsame
    exact ⟨hcount, asked, c, Cursor.many_one hmany, DomainName.same_iff_sameLetters.mp hname,
      htype, hclass⟩
  · rintro ⟨hcount, asked, c', hread, hname, htype, hclass⟩
    rw [hcount] at hmany
    obtain ⟨p, hp⟩ := List.length_eq_one_iff.mp (Cursor.many_eq_some hmany)
    rw [hp] at hmany
    cases (Cursor.many_one hmany).symm.trans hread
    exact ⟨asked, hp, Question.same_iff.mpr
      ⟨DomainName.same_iff_sameLetters.mpr hname, htype, hclass⟩⟩

theorem response_eq (h : Message.read bs = some m) :
    m.flags.response = (bs.responseBit == 1) := by
  obtain ⟨-, -, hflags, -⟩ := read_eq_some h
  rw [hflags]
  rfl

theorem opcode_eq_iff (h : Message.read bs = some m) (o : Opcode) :
    m.opcode = o ↔ bs.opcodeBits = o.code := by
  obtain ⟨-, -, -, hopcode, -⟩ := read_eq_some h
  rw [← hopcode]
  exact ⟨congrArg Opcode.code, Opcode.code_inj⟩

theorem fields_of_write {raw : Bytes} (h : m.write = .ok raw) :
    raw.wordAt 0 = m.id ∧ raw.opcodeBits = m.opcode.code := by
  obtain ⟨truncated, qs, as, ns, ds, rest, rfl⟩ := write_header h
  have hid : Bytes.wordAt (headerBytes m.id (m.flagsWord truncated) qs as ns ds ++ rest) 0 = m.id :=
    Bytes.toWord_bytes m.id
  have hflags : Bytes.wordAt (headerBytes m.id (m.flagsWord truncated) qs as ns ds ++ rest) 2 =
      m.flagsWord truncated := Bytes.toWord_bytes _
  refine ⟨hid, ?_⟩
  rw [Bytes.opcodeBits, hflags]
  exact (flagsWord_spec m truncated).2.1

end Message

namespace Reply

theorem judged_ofBytes (query : Message) {q : Question} (hq : query.questions = [q]) (bs : Bytes) :
    Judged query.id query.opcode q bs (ofBytes query bs) := by
  unfold ofBytes
  cases hm : Message.read bs with
  | none => exact hm
  | some m =>
      obtain ⟨hlong, hid, -⟩ := Message.read_eq_some hm
      have hsome : (Message.read bs).isSome = true := by rw [hm]; rfl
      have hbit : bs.responseBit < 2 := Nat.mod_lt _ (by decide)
      have hresponse := Message.response_eq hm
      have hopcode := Message.opcode_eq_iff hm query.opcode
      have hasks : _ ↔ Asks bs q := Message.sameQuestions_iff_asks hm
      change Judged _ _ _ _ (check query m)
      unfold check
      rw [hresponse, hid, hq]
      split
      · rename_i h
        refine ⟨hsome, ?_⟩
        simp only [Bool.not_eq_eq_eq_not, Bool.not_true, beq_eq_false_iff_ne] at h
        omega
      · rename_i h
        have hone : bs.responseBit = 1 := by simpa using h
        split
        · rename_i hne
          exact ⟨hsome, hone, rfl, rfl, hne⟩
        · rename_i heq
          have heq : bs.wordAt 0 = query.id := not_not.mp heq
          split
          · rename_i hne
            exact ⟨hsome, hone, heq, fun h => hne (hopcode.mpr h)⟩
          · rename_i hop
            have hop := hopcode.mp (not_not.mp hop)
            split
            · rename_i hne
              refine ⟨hsome, hone, heq, hop, fun h => ?_⟩
              rw [hasks.mpr h] at hne
              cases hne
            · rename_i hsame
              refine ⟨hm, hlong, heq, hone, hop, hasks.mp ?_⟩
              simpa using hsame

/-- The reply to a query is judged by the identifier, the opcode and the question that were sent. -/
theorem ofBytes_judges_as_sent {p : Option Protocol} {q : Query} {m : Message}
    (h : (q.preparedFor p).message = .ok m) (bs : Bytes) :
    (∀ raw, m.write = .ok raw →
      raw.wordAt 0 = q.sentId p ∧ raw.opcodeBits = Opcode.query.code) ∧
    ∃ name, DomainName.ofText q.name.toList = .ok name ∧
      Judged (q.sentId p) .query (q.question name) bs (ofBytes m bs) := by
  obtain ⟨name, options, hname, rfl⟩ := Query.message_eq_messageFor h
  obtain ⟨hsame, htype, hid⟩ := Query.preparedFor_spec p q
  rw [hsame] at hname
  refine ⟨fun raw hraw => ?_, name, hname, ?_⟩
  · obtain ⟨hwritten, hopcode⟩ := Message.fields_of_write hraw
    exact ⟨hwritten.trans hid, hopcode⟩
  · have hjudged := judged_ofBytes ((q.preparedFor p).messageFor name options) rfl bs
    unfold Query.question at hjudged ⊢
    rw [← hid, ← htype]
    exact hjudged

theorem ofBytes_judges_as_sent_root :
    Judged 7 .query ⟨DomainName.root, 1, internet⟩ [0, 7, 128, 0, 0, 0, 0, 0, 0, 0, 0, 0]
      (.error .questionMismatch) := by
  obtain ⟨-, name, hname, h⟩ := ofBytes_judges_as_sent (p := none) (q := ⟨".", 1, 0, 7, 0⟩) rfl
    [0, 7, 128, 0, 0, 0, 0, 0, 0, 0, 0, 0]
  cases hname
  exact h

end Reply

end DnsOverStreams
