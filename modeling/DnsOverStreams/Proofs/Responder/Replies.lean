import DnsOverStreams.Reply
import DnsOverStreams.Responder
import DnsOverStreams.Proofs.DomainName.Case
import DnsOverStreams.Proofs.Message.RoundTrip

namespace DnsOverStreams

namespace Responder

variable {query : Message}

theorem knownName_proper : knownName.Proper := by
  refine ⟨fun l hl => ?_, by decide⟩
  rcases List.mem_cons.mp hl with rfl | hl
  · decide
  · rw [List.mem_singleton.mp hl]
    decide

theorem addressRecords_proper : ∀ r ∈ addressRecords, r.Proper ∧ r.asRead = r := by
  intro r hr
  obtain ⟨ip, -, rfl⟩ := List.mem_map.mp hr
  have hlength : 4 ≤ Message.maxLength := by decide
  have htype : ¬ RecordType.a = RecordType.opt := by decide
  exact ⟨⟨knownName_proper, .ipv4 ip, hlength, fun h => absurd h htype⟩, rfl⟩

theorem mem_answers {r : Record} (hr : r ∈ (answer query).answers) : r ∈ addressRecords := by
  obtain ⟨q, -, hr⟩ := List.mem_flatMap.mp hr
  exact hr

theorem frameFor_proper (hq : ∀ q ∈ query.questions, q.name.Proper) (id : UInt16) {code : Nat}
    (hcode : code < 16) : (frameFor query id code).Proper where
  lowCode := hcode
  questions := hq
  answers := fun _ h => absurd h List.not_mem_nil
  authority := fun _ h => absurd h List.not_mem_nil
  additional := fun _ h => absurd h List.not_mem_nil
  edns := fun _ h => by cases h

theorem answer_proper (hq : ∀ q ∈ query.questions, q.name.Proper) : (answer query).Proper where
  lowCode := by
    change (if query.questions.all knows then ResponseCode.noError
      else ResponseCode.nonExistentDomain) < 16
    split <;> decide
  questions := hq
  answers := fun r hr => (addressRecords_proper r (mem_answers hr)).1
  authority := fun _ h => absurd h List.not_mem_nil
  additional := fun _ h => absurd h List.not_mem_nil
  edns := fun _ h => by cases h

theorem asRead_answer (query : Message) : (answer query).asRead = answer query := by
  have hanswers : (answer query).answers.map Record.asRead = (answer query).answers :=
    (List.map_congr_left fun r hr => (addressRecords_proper r (mem_answers hr)).2).trans
      (List.map_id _)
  rw [Message.asRead, hanswers]
  rfl

theorem knows_iff {p : Question} :
    knows p = true ↔ p.name.SameLetters knownName ∧ p.recordType = RecordType.a := by
  rw [knows, Bool.and_eq_true, DomainName.same_iff_sameLetters, beq_iff_eq]

theorem addresses4_of_unknown (h : query.questions.all knows = false) :
    (⟨answer query⟩ : Reply).addresses4 = .error (.responseCode ResponseCode.nonExistentDomain) := by
  have hcode : (answer query).responseCode = if query.questions.all knows then ResponseCode.noError
      else ResponseCode.nonExistentDomain := rfl
  rw [Reply.addresses4, Reply.collect, hcode, h]
  rfl

theorem addresses4_of_known (h : query.questions.all knows = true) :
    (⟨answer query⟩ : Reply).addresses4 =
      if query.questions = [] then .error .noData
      else .ok (query.questions.flatMap fun _ => knownAddresses) := by
  have hcode : (answer query).responseCode = if query.questions.all knows then ResponseCode.noError
      else ResponseCode.nonExistentDomain := rfl
  have hanswers : (answer query).answers =
      (query.questions.filter knows).flatMap fun _ => addressRecords := rfl
  rw [Reply.addresses4, Reply.collect, hcode, hanswers, h,
    List.filter_eq_self.mpr (List.all_eq_true.mp h), List.filterMap_flatMap]
  cases query.questions with
  | nil => rfl
  | cons p qs =>
      rw [if_neg (List.cons_ne_nil p qs)]
      rfl

theorem check_answer (query : Message) : Reply.check query (answer query) = .ok ⟨answer query⟩ := by
  have hsame : Message.sameQuestions (answer query).questions query.questions = true :=
    Message.sameQuestions_refl query.questions
  unfold Reply.check
  rw [hsame]
  simp [answer, frameFor]

theorem check_forgeRefused (query : Message) :
    Reply.check query (forgeRefused query) = .error (.idMismatch query.id (query.id + 1)) := by
  have hid : query.id + 1 ≠ query.id := by
    intro h
    have hnat := congrArg UInt16.toNat h
    have hlt := query.id.toNat_lt
    rw [UInt16.toNat_add, UInt16.toNat_one] at hnat
    omega
  unfold Reply.check
  rw [if_neg (by simp [forgeRefused, frameFor])]
  exact if_pos hid

end Responder

end DnsOverStreams
