import DnsOverStreams.DomainName.Basic
import Mathlib.Data.List.Forall2

namespace DnsOverStreams

/-- The second byte is the lower case form of the first, an ASCII capital. -/
def Lowers (a b : UInt8) : Prop :=
  65 ≤ a ∧ a ≤ 90 ∧ b = a + 32

/-- The bytes differ at most in the case of an ASCII letter. -/
def SameLetter (a b : UInt8) : Prop :=
  a = b ∨ Lowers a b ∨ Lowers b a

theorem lowerByte_of_capital {a : UInt8} (h : 65 ≤ a ∧ a ≤ 90) : lowerByte a = a + 32 := by
  unfold lowerByte
  rw [if_pos (by simpa using h)]

theorem lowerByte_of_other {a : UInt8} (h : ¬ (65 ≤ a ∧ a ≤ 90)) : lowerByte a = a := by
  unfold lowerByte
  rw [if_neg (by simpa using h)]

theorem not_capital_lowered {a : UInt8} (h : 65 ≤ a ∧ a ≤ 90) : ¬ (65 ≤ a + 32 ∧ a + 32 ≤ 90) := by
  simp only [UInt8.le_iff_toNat_le, UInt8.toNat_add, UInt8.reduceToNat] at *
  omega

theorem lowerByte_eq_iff {a b : UInt8} : lowerByte a = lowerByte b ↔ SameLetter a b := by
  by_cases ha : 65 ≤ a ∧ a ≤ 90 <;> by_cases hb : 65 ≤ b ∧ b ≤ 90
  · rw [lowerByte_of_capital ha, lowerByte_of_capital hb, UInt8.add_left_inj]
    refine ⟨.inl, ?_⟩
    rintro (rfl | ⟨-, -, rfl⟩ | ⟨-, -, rfl⟩)
    · rfl
    · exact absurd hb (not_capital_lowered ha)
    · exact absurd ha (not_capital_lowered hb)
  · rw [lowerByte_of_capital ha, lowerByte_of_other hb]
    refine ⟨fun h => .inr (.inl ⟨ha.1, ha.2, h.symm⟩), ?_⟩
    rintro (rfl | ⟨-, -, rfl⟩ | ⟨h, h', -⟩)
    · exact absurd ha hb
    · rfl
    · exact absurd ⟨h, h'⟩ hb
  · rw [lowerByte_of_other ha, lowerByte_of_capital hb]
    refine ⟨fun h => .inr (.inr ⟨hb.1, hb.2, h⟩), ?_⟩
    rintro (rfl | ⟨h, h', -⟩ | ⟨-, -, rfl⟩)
    · exact absurd hb ha
    · exact absurd ⟨h, h'⟩ ha
    · rfl
  · rw [lowerByte_of_other ha, lowerByte_of_other hb]
    refine ⟨.inl, ?_⟩
    rintro (rfl | ⟨h, h', -⟩ | ⟨h, h', -⟩)
    · rfl
    · exact absurd ⟨h, h'⟩ ha
    · exact absurd ⟨h, h'⟩ hb

namespace Label

def SameLetters (k l : Label) : Prop :=
  List.Forall₂ SameLetter k l

theorem fold_eq_iff {k l : Label} : k.fold = l.fold ↔ k.SameLetters l := by
  induction k generalizing l with
  | nil => cases l <;> simp [fold, SameLetters]
  | cons a k ih =>
      cases l with
      | nil => simp [fold, SameLetters]
      | cons b l =>
          simp only [fold, SameLetters, List.map_cons, List.cons.injEq, List.forall₂_cons,
            lowerByte_eq_iff] at ih ⊢
          rw [ih]

end Label

namespace DomainName

def SameLetters (m n : DomainName) : Prop :=
  List.Forall₂ Label.SameLetters m n

theorem same_iff_sameLetters {m n : DomainName} : m.same n = true ↔ m.SameLetters n := by
  rw [same_iff]
  induction m generalizing n with
  | nil => cases n <;> simp [SameLetters]
  | cons k m ih =>
      cases n with
      | nil => simp [SameLetters]
      | cons l n =>
          simp only [SameLetters, List.map_cons, List.cons.injEq, List.forall₂_cons,
            Label.fold_eq_iff] at ih ⊢
          rw [ih]

end DomainName

end DnsOverStreams
