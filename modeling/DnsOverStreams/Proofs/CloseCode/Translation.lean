import DnsOverStreams.CloseCode
import Mathlib.Algebra.Group.Nat.Defs
/-!
Codes as numbers and numbers as codes. A number of 32 bits comes through as it is. A code may be made with
the value of one that has a name, and only such a code does not come back as it was: it comes back as the
one that has the name.
-/

namespace DnsOverStreams

namespace CloseCode

/-- The values that have a name, each with the code it stands for. -/
def assigned : List (UInt32 × CloseCode) :=
  [(0, .noError), (1, .internalError), (2, .protocolError), (3, .requestCancelled), (4, .excessiveLoad),
   (0xd098ea5e, .reserved)]

variable {v w : UInt32} {e : UInt32 × CloseCode} {n : Nat}

@[simp] theorem value_unknown (v : UInt32) : (unknown v).value = v := rfl

theorem value_of_assigned : ∀ e ∈ assigned, e.2.value = e.1 := by
  decide

theorem ofValue_of_assigned : ∀ e ∈ assigned, ofValue e.1 = e.2 := by
  decide

theorem ofValue_of_unassigned (h : ∀ e ∈ assigned, v ≠ e.1) : ofValue v = .unknown v := by
  simp only [assigned, List.forall_mem_cons] at h
  obtain ⟨h0, h1, h2, h3, h4, hreserved, -⟩ := h
  unfold ofValue
  split
  · exact absurd rfl h0
  · exact absurd rfl h1
  · exact absurd rfl h2
  · exact absurd rfl h3
  · exact absurd rfl h4
  · exact absurd rfl hreserved
  · rfl

theorem ne_unknown_of_assigned (h : e ∈ assigned) (v : UInt32) : e.2 ≠ .unknown v := by
  intro heq
  simp only [assigned, List.mem_cons, List.not_mem_nil, or_false] at h
  obtain rfl | rfl | rfl | rfl | rfl | rfl := h <;> cases heq

theorem assigned_or_unknown (c : CloseCode) : (∃ e ∈ assigned, e.2 = c) ∨ ∃ v, c = .unknown v := by
  cases c with
  | unknown v => exact .inr ⟨v, rfl⟩
  | noError | internalError | protocolError | requestCancelled | excessiveLoad | reserved =>
      exact .inl (by decide)

@[simp] theorem value_ofValue (v : UInt32) : (ofValue v).value = v := by
  unfold ofValue
  split <;> rfl

theorem ofValue_injective : Function.Injective ofValue :=
  Function.LeftInverse.injective value_ofValue

theorem ofValue_eq_unknown_iff : ofValue v = .unknown w ↔ v = w ∧ ∀ e ∈ assigned, w ≠ e.1 := by
  constructor
  · intro h
    obtain rfl : v = w := by simpa using congrArg value h
    refine ⟨rfl, ?_⟩
    rintro e he rfl
    exact ne_unknown_of_assigned he _ ((ofValue_of_assigned e he).symm.trans h)
  · rintro ⟨rfl, h⟩
    exact ofValue_of_unassigned h

theorem ofValue_value_eq_self_iff (c : CloseCode) :
    ofValue c.value = c ↔ ∀ e ∈ assigned, c ≠ .unknown e.1 := by
  obtain ⟨e, he, rfl⟩ | ⟨v, rfl⟩ := assigned_or_unknown c
  · rw [value_of_assigned e he, ofValue_of_assigned e he]
    exact iff_of_true rfl fun e' _ => ne_unknown_of_assigned he e'.1
  · simp [ofValue_eq_unknown_iff]

theorem ofNumber_of_lt (h : n < 2 ^ 32) : ofNumber n = ofValue (UInt32.ofNat n) :=
  if_pos h

theorem ofNumber_of_ge (h : 2 ^ 32 ≤ n) : ofNumber n = .protocolError :=
  if_neg (Nat.not_lt.mpr h)

theorem number_ofNumber_of_lt (h : n < 2 ^ 32) : (ofNumber n).number = n := by
  rw [ofNumber_of_lt h, number, value_ofValue]
  exact UInt32.toNat_ofNat_of_lt' h

theorem ofNumber_number (c : CloseCode) : ofNumber c.number = ofValue c.value := by
  rw [number, ofNumber_of_lt c.value.toNat_lt, UInt32.ofNat_toNat]

theorem unassigned_of_ofNumber (h : ofNumber n = .unknown v) :
    v.toNat = n ∧ ∀ e ∈ assigned, v ≠ e.1 := by
  rcases Nat.lt_or_ge n (2 ^ 32) with hfits | hfits
  · rw [ofNumber_of_lt hfits] at h
    obtain ⟨rfl, hv⟩ := ofValue_eq_unknown_iff.mp h
    exact ⟨UInt32.toNat_ofNat_of_lt' hfits, hv⟩
  · rw [ofNumber_of_ge hfits] at h
    cases h

theorem ofNumber?_of_lt (h : n < 2 ^ 62) : ofNumber? n = some (ofNumber n) :=
  if_pos h

theorem ofNumber?_number (c : CloseCode) : ofNumber? c.number = some (ofValue c.value) := by
  have hlt : c.number < 2 ^ 62 := Nat.lt_trans c.value.toNat_lt (by decide)
  rw [ofNumber?_of_lt hlt, ofNumber_number]

/-- A number that fits 32 bits comes back as it was, any other as that of a breach of the protocol. A code
comes back as it was unless it has the value of a named one, which it then comes back as; so the numbers of
two codes are the same just if the codes come back the same. -/
theorem numbers_and_codes_come_back :
    (∀ n < 2 ^ 62, ∃ c, ofNumber? n = some c ∧
      if n < 2 ^ 32 then c.number = n else c = .protocolError ∧ c.number = 2) ∧
    (∀ c, ∃ d, ofNumber? c.number = some d ∧ (d = c ↔ ∀ e ∈ assigned, c ≠ .unknown e.1) ∧
      ∀ e ∈ assigned, c = .unknown e.1 → d = e.2 ∧ d.number = e.1.toNat) ∧
    (∀ c d : CloseCode, c.number = d.number ↔ ofNumber? c.number = ofNumber? d.number) ∧
    ∀ n v, ofNumber? n = some (.unknown v) → v.toNat = n ∧ ∀ e ∈ assigned, v ≠ e.1 := by
  refine ⟨fun n hn => ⟨ofNumber n, ofNumber?_of_lt hn, ?_⟩, fun c => ?_, fun c d => ?_, fun n v h => ?_⟩
  · split
    · rename_i hfits
      exact number_ofNumber_of_lt hfits
    · rename_i hfits
      rw [ofNumber_of_ge (Nat.not_lt.mp hfits)]
      exact ⟨rfl, rfl⟩
  · refine ⟨ofValue c.value, ofNumber?_number c, ofValue_value_eq_self_iff c, ?_⟩
    rintro e he rfl
    exact ⟨ofValue_of_assigned e he, congrArg UInt32.toNat (value_ofValue e.1)⟩
  · rw [ofNumber?_number, ofNumber?_number, Option.some_inj, ofValue_injective.eq_iff]
    exact UInt32.toNat_inj
  · rw [ofNumber?, Option.ite_none_right_eq_some, Option.some_inj] at h
    exact unassigned_of_ofNumber h.2

theorem numbers_and_codes_come_back_renamed :
    (2 ^ 32 < 2 ^ 62 ∧ ∃ c, ofNumber? (2 ^ 32) = some c ∧ c = .protocolError ∧ c.number = 2) ∧
    ((3, requestCancelled) ∈ assigned ∧ ofNumber? (unknown 3).number = some .requestCancelled ∧
      requestCancelled ≠ .unknown 3 ∧ requestCancelled.number = 3) ∧
    ofNumber? 0x42 = some (.unknown 0x42) ∧ ∀ e ∈ assigned, 0x42 ≠ e.1 := by
  obtain ⟨numbers, codes, -, unnamed⟩ := numbers_and_codes_come_back
  have hthree : (3, requestCancelled) ∈ assigned := by decide
  obtain ⟨d, hd, hkept, hnamed⟩ := codes (.unknown 3)
  obtain ⟨rfl, hnumber⟩ := hnamed _ hthree rfl
  have hother : requestCancelled ≠ .unknown 3 := fun h => hkept.mp h _ hthree rfl
  exact ⟨⟨by decide, numbers (2 ^ 32) (by decide)⟩, ⟨hthree, hd, hother, hnumber⟩, rfl,
    (unnamed 0x42 0x42 rfl).2⟩

end CloseCode

end DnsOverStreams
