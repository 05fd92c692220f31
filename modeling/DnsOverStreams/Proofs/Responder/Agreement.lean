import DnsOverStreams.Proofs.Message.Places
import DnsOverStreams.Proofs.Responder.Replies

namespace DnsOverStreams

namespace Responder

variable {query : Message} {raw bytes : Bytes}

/-- The question is for the addresses of the known name, in whatever case its letters are. -/
def AsksKnown (q : Question) : Prop :=
  q.name.SameLetters knownName ∧ q.recordType = RecordType.a

theorem all_knows_iff {qs : List Question} : qs.all knows = true ↔ ∀ q ∈ qs, AsksKnown q := by
  rw [List.all_eq_true]
  exact forall₂_congr fun q _ => knows_iff

theorem write_eq_ok {m : Message} (h : write m = .ok (some bytes)) : m.write = .ok bytes := by
  unfold write at h
  cases hm : m.write with
  | error e => rw [hm] at h; cases h
  | ok bytes' => rw [hm] at h; cases h; rfl

theorem written_of_reply (hread : Message.read raw = some query)
    (h : reply raw .answer = .ok (some bytes)) : (answer query).write = .ok bytes := by
  rw [reply, hread] at h
  exact write_eq_ok h

theorem accepted_of_whole (hread : Message.read raw = some query)
    (h : (answer query).WrittenWhole bytes) :
    Reply.ofBytes query bytes = .ok ⟨answer query⟩ := by
  have hanswer := h.read (answer_proper (Message.names_of_read hread))
  rw [asRead_answer] at hanswer
  rw [Reply.ofBytes, hanswer]
  exact check_answer query

theorem whole_of_questions (query : Message) {asked : Bytes} {known : Known}
    (h : Message.writeQuestions [] Message.headerLength query.questions = .ok (asked, known))
    (id : UInt16) (code : Nat) : ∃ forged, (frameFor query id code).WrittenWhole forged :=
  ⟨_, asked, [], [], [], known, known, known, known, h, rfl, rfl, rfl, rfl⟩

theorem forged_of_written (hread : Message.read raw = some query)
    (h : (answer query).write = .ok bytes) :
    ∃ forged, reply raw .forgeRefused = .ok (some forged) ∧
      Reply.ofBytes query forged = .error (.idMismatch query.id (query.id + 1)) := by
  obtain ⟨asked, -, -, -, known, -, -, -, -, -, -, hquestions, -⟩ := Message.write_eq_ok h
  obtain ⟨forged, hforged⟩ :=
    whole_of_questions query hquestions (query.id + 1) ResponseCode.refused
  have hcode : ResponseCode.refused < 16 := by decide
  have hproper := frameFor_proper (Message.names_of_read hread) (query.id + 1) hcode
  have hback : Message.read forged = some (forgeRefused query) := hforged.read hproper
  refine ⟨forged, ?_, ?_⟩
  · rw [reply, hread]
    change write (frameFor _ _ _) = _
    rw [write, hforged.write]
  · rw [Reply.ofBytes, hback]
    exact check_forgeRefused query

/-- Whatever bytes can be read as a message, with any opcode and any questions: if the answer is not truncated
it is accepted, with the code 3 if there is no such name, and a forged one never is. -/
theorem reply_agrees (hread : Message.read raw = some query)
    (hreply : reply raw .answer = .ok (some bytes)) (hwhole : Flags.bit (bytes.wordAt 2) 9 = false) :
    (∃ r, Reply.ofBytes query bytes = .ok r ∧
      ((∃ q ∈ query.questions, ¬ AsksKnown q) →
        r.addresses4 = .error (.responseCode 3)) ∧
      (query.questions = [] → r.addresses4 = .error .noData) ∧
      (query.questions ≠ [] → (∀ q ∈ query.questions, AsksKnown q) →
        r.addresses4 = .ok (query.questions.flatMap fun _ => [⟨8, 8, 8, 8⟩, ⟨8, 8, 4, 4⟩]))) ∧
    ∃ forged, reply raw .forgeRefused = .ok (some forged) ∧
      Reply.ofBytes query forged = .error (.idMismatch query.id (query.id + 1)) := by
  have hwrite := written_of_reply hread hreply
  refine ⟨⟨_, accepted_of_whole hread (Message.writtenWhole_of_write hwrite hwhole), ?_, ?_, ?_⟩,
    forged_of_written hread hwrite⟩
  · rintro ⟨q, hmem, hq⟩
    refine addresses4_of_unknown (Bool.eq_false_iff.mpr fun hall => ?_)
    exact hq (all_knows_iff.mp hall q hmem)
  · intro hnone
    rw [addresses4_of_known (by rw [hnone]; rfl), if_pos hnone]
  · intro hsome hall
    rw [addresses4_of_known (all_knows_iff.mpr hall), if_neg hsome]
    rfl

/-- A message that is itself a response, with a status opcode. Its first name is written in other letters, and
the second is a pointer to it. -/
theorem reply_agrees_twice :
    let query : Message := ⟨7, .status, .ofWord 0x9000, 0,
      List.replicate 2 ⟨[[68, 110, 115], [71, 111, 111, 103, 108, 101]], 1, 1⟩, [], [], [], none⟩
    let raw : Bytes := [0, 7, 144, 0, 0, 2, 0, 0, 0, 0, 0, 0,
      3, 68, 110, 115, 6, 71, 111, 111, 103, 108, 101, 0, 0, 1, 0, 1, 192, 12, 0, 1, 0, 1]
    ∃ bytes r, Message.read raw = some query ∧ reply raw .answer = .ok (some bytes) ∧
      Reply.ofBytes query bytes = .ok r ∧
      r.addresses4 = .ok [⟨8, 8, 8, 8⟩, ⟨8, 8, 4, 4⟩, ⟨8, 8, 8, 8⟩, ⟨8, 8, 4, 4⟩] := by
  intro query raw
  have hread : Message.read raw = some query := by cbv
  obtain ⟨bytes, hreply, hwhole⟩ : ∃ bytes, reply raw .answer = .ok (some bytes) ∧
      Flags.bit (bytes.wordAt 2) 9 = false := by
    rw [reply, hread]
    exact ⟨_, rfl, by decide⟩
  have hknown : ∀ q ∈ query.questions, AsksKnown q := all_knows_iff.mp (by decide)
  obtain ⟨⟨r, hr, -, -, haddresses⟩, -⟩ := reply_agrees hread hreply hwhole
  exact ⟨bytes, r, hread, hreply, hr, haddresses (List.cons_ne_nil _ _) hknown⟩

end Responder

end DnsOverStreams
