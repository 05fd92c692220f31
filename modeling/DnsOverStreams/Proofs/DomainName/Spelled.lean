import DnsOverStreams.DomainName.Text
import DnsOverStreams.Proofs.DomainName.Written

namespace DnsOverStreams

namespace Label

theorem length_le_utf8Length (text : List Char) : text.length ≤ utf8Length text := by
  induction text with
  | nil => exact Nat.le_refl _
  | cons c cs ih =>
      have := c.utf8Size_pos
      simp only [utf8Length, List.foldr_cons, List.length_cons] at ih ⊢
      omega

theorem ofText_length {text : List Char} {l : Label} (h : ofText text = .ok l) :
    0 < l.length ∧ l.length ≤ DomainName.maxLabel := by
  unfold ofText at h
  split at h
  · cases h
  · rename_i hshort
    split at h
    · rename_i hformed
      cases h
      rw [ofChars, List.length_map]
      have := length_le_utf8Length text
      refine ⟨?_, by omega⟩
      cases text with
      | nil => cases hformed
      | cons c cs => exact Nat.succ_pos _
    · cases h

end Label

namespace DomainName

section

variable {P : DomainName → Prop} (start : P [])
variable (ends : ∀ s t : Scan, P s.labels → s.endLabel = .ok t → P t.labels)
variable {s t : Scan}

include ends

namespace Scan

theorem step_labels {c : Char} (hs : P s.labels) (h : s.step c = .ok t) : P t.labels := by
  unfold step at h
  split at h
  · split at h
    · exact ends s t hs h
    · split at h
      · cases h; exact hs
      · split at h
        · cases h
        · cases h; exact hs
  · split at h
    · obtain ⟨d, -, h⟩ := ok_of_bind h
      cases h
      exact hs
    · cases h; exact hs
  · obtain ⟨d, -, h⟩ := ok_of_bind h
    cases h
    exact hs
  · obtain ⟨d, -, h⟩ := ok_of_bind h
    cases h
    exact hs

theorem run_labels {text : List Char} (hs : P s.labels) (h : s.run text = .ok t) : P t.labels := by
  induction text generalizing s with
  | nil => cases h; exact hs
  | cons c cs ih =>
      obtain ⟨u, hc, h⟩ := ok_of_bind h
      exact ih (step_labels ends hs hc) h

theorem finish_labels {n : DomainName} (hs : P s.labels) (h : s.finish = .ok n) : P n := by
  unfold finish at h
  split at h
  · cases h; exact hs
  · obtain ⟨t, ht, h⟩ := ok_of_bind h
    cases h
    exact ends s t hs ht

end Scan

include start

theorem ofText_labels {text : List Char} {n : DomainName} (h : ofText text = .ok n) : P n := by
  unfold ofText at h
  split at h
  · cases h; exact start
  · obtain ⟨s, hs, h⟩ := ok_of_bind h
    exact Scan.finish_labels ends (Scan.run_labels ends start hs) h

end

namespace Scan

variable {s t : Scan}

theorem endLabel_regular (hs : Regular s.labels) (h : s.endLabel = .ok t) : Regular t.labels := by
  unfold endLabel at h
  obtain ⟨l, hl, h⟩ := ok_of_bind h
  dsimp only at h
  split at h
  · cases h
  · cases h
    refine Regular.append_iff.mpr ⟨hs, fun k hk => ?_⟩
    rw [List.mem_singleton.mp hk]
    exact Label.ofText_length hl

theorem endLabel_size (h : s.endLabel = .ok t) : size t.labels ≤ maxWire := by
  unfold endLabel at h
  obtain ⟨l, hl, h⟩ := ok_of_bind h
  dsimp only at h
  split at h
  · cases h
  · rename_i hsize
    cases h
    exact Nat.le_of_not_lt hsize

end Scan

variable {text : List Char} {n : DomainName}

theorem ofText_regular (h : ofText text = .ok n) : n.Regular :=
  ofText_labels (fun _ hl => absurd hl List.not_mem_nil) (fun _ _ => Scan.endLabel_regular) h

/-- A name that is spelled out may still lack room for the byte that ends it. -/
theorem ofText_size (h : ofText text = .ok n) : n.size ≤ maxWire :=
  ofText_labels (P := fun n => n.size ≤ maxWire) (Nat.zero_le _)
    (fun _ _ _ => Scan.endLabel_size) h

end DomainName

end DnsOverStreams
