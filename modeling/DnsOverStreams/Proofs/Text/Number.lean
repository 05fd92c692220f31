import DnsOverStreams.Text.Reader
import Mathlib.Algebra.Group.Nat.Defs

namespace DnsOverStreams.Reader

variable {α β : Type} {radix bound n : Nat} {limit : Option Nat} {cs rest : List Char} {ds : List Nat}
variable {c : Char}

theorem bind_eq {r : Reader α} {f : α → Reader β} {a : α} (h : r cs = some (a, rest)) :
    (r >>= f) cs = f a rest := by
  change (r cs >>= fun p => f p.1 p.2) = _
  rw [h]
  rfl

theorem bind_none {r : Reader α} (f : α → Reader β) (h : r cs = none) : (r >>= f) cs = none := by
  change (r cs >>= fun p => f p.1 p.2) = _
  rw [h]
  rfl

theorem of_bind {r : Reader α} {f : α → Reader β} {b : β} (h : (r >>= f) cs = some (b, rest)) :
    ∃ a middle, r cs = some (a, middle) ∧ f a middle = some (b, rest) := by
  change (r cs >>= fun p => f p.1 p.2) = _ at h
  obtain ⟨⟨a, middle⟩, hr, hf⟩ := Option.bind_eq_some_iff.mp h
  exact ⟨a, middle, hr, hf⟩

theorem given_self (c : Char) (cs : List Char) : given c (c :: cs) = some ((), cs) :=
  if_pos rfl

theorem given_other {d : Char} (h : d ≠ c) (cs : List Char) : given c (d :: cs) = none :=
  if_neg h

theorem given_none (h : c ∉ cs) : given c cs = none := by
  cases cs with
  | nil => rfl
  | cons d cs => exact given_other (Ne.symm (List.ne_of_not_mem_cons h)) cs

/-- What follows does not go on with the digits before it. -/
def Parts (radix : Nat) (rest : List Char) : Prop :=
  ∀ c ∈ rest.head?, digit? radix c = none

theorem parts_cons (h : digit? radix c = none) (rest : List Char) : Parts radix (c :: rest) := by
  rintro d ⟨⟩
  exact h

def Spells (radix : Nat) (cs : List Char) (ds : List Nat) : Prop :=
  cs.map (digit? radix) = ds.map some

theorem Spells.length_eq (h : Spells radix cs ds) : cs.length = ds.length := by
  simpa using congrArg List.length h

theorem digits_of_parts (h : Parts radix rest) : digits radix rest = ([], rest) := by
  cases rest with
  | nil => rfl
  | cons c rest =>
      unfold digits
      rw [h c rfl]

theorem digits_suffix (radix : Nat) (cs : List Char) : (digits radix cs).2 <:+ cs := by
  induction cs with
  | nil => exact List.suffix_refl _
  | cons c cs ih =>
      unfold digits
      split
      · exact ih.trans (List.suffix_cons c cs)
      · exact List.suffix_refl _

theorem digits_append (h : Spells radix cs ds) (hrest : Parts radix rest) :
    digits radix (cs ++ rest) = (ds, rest) := by
  induction cs generalizing ds with
  | nil =>
      cases List.map_eq_nil_iff.mp h.symm
      exact digits_of_parts hrest
  | cons c cs ih =>
      obtain ⟨d, ds, rfl, hc, hcs⟩ := List.map_eq_cons_iff.mp h.symm
      rw [List.cons_append, digits, ← hc]
      dsimp only
      rw [ih hcs.symm]

theorem Parts.of_le {small : Nat} (h : Parts radix rest) (hle : small ≤ radix) : Parts small rest := by
  intro c hc
  have hnone := h c hc
  unfold digit? at hnone ⊢
  rw [Option.filter_eq_none_iff] at hnone ⊢
  intro d hd hlt
  exact hnone d hd (by simp only [decide_eq_true_eq] at hlt ⊢; omega)

theorem Spells.not_mem (h : Spells radix cs ds) (hc : digit? radix c = none) : c ∉ cs := by
  intro hmem
  obtain ⟨d, -, hd⟩ := List.mem_map.mp (h ▸ List.mem_map_of_mem hmem : digit? radix c ∈ ds.map some)
  cases hd.trans hc

theorem digit?_digitChar {d : Nat} (hd : d < radix) (hr : radix ≤ 16) :
    digit? radix (Nat.digitChar d) = some d := by
  have hvalue : ∀ d : Fin 16, digitValue? (Nat.digitChar d) = some d.val := by decide
  unfold digit?
  rw [hvalue ⟨d, Nat.lt_of_lt_of_le hd hr⟩]
  simpa using hd

theorem valueOf_concat (radix : Nat) (ds : List Nat) (d : Nat) :
    valueOf radix (ds ++ [d]) = valueOf radix ds * radix + d := by
  simp [valueOf]

theorem spells_toDigits (hr : 1 < radix) (hr' : radix ≤ 16) (n : Nat) :
    ∃ ds, Spells radix (Nat.toDigits radix n) ds ∧ valueOf radix ds = n ∧
      (0 < n → ds.head? ≠ some 0) := by
  induction n using Nat.strongRecOn with
  | ind n ih =>
      rcases Nat.lt_or_ge n radix with hlt | hge
      · refine ⟨[n], ?_, Nat.zero_add n ▸ by simp [valueOf], fun hpos h => ?_⟩
        · rw [Nat.toDigits_of_lt_base hlt]
          exact congrArg (· :: []) (digit?_digitChar hlt hr')
        · exact Nat.ne_of_gt hpos (Option.some.inj h)
      · have hquotient : n / radix < n := Nat.div_lt_self (by omega) hr
        obtain ⟨ds, hds, hvalue, hhead⟩ := ih _ hquotient
        have hpos : 0 < n / radix := Nat.div_pos hge (by omega)
        have hmod : n % radix < radix := Nat.mod_lt _ (by omega)
        refine ⟨ds ++ [n % radix], ?_, ?_, fun _ h => hhead hpos ?_⟩
        · rw [Nat.toDigits_of_base_le hr hge]
          unfold Spells
          rw [List.map_append, List.map_append, hds, List.map_singleton, List.map_singleton,
            digit?_digitChar hmod hr']
        · rw [valueOf_concat, hvalue, Nat.mul_comm]
          exact Nat.div_add_mod n radix
        · cases ds with
          | nil => exact absurd hvalue (Nat.ne_of_lt hpos)
          | cons d ds => exact h

theorem not_mem_toDigits (hr : 1 < radix) (hr' : radix ≤ 16) (hc : digit? radix c = none) (n : Nat) :
    c ∉ Nat.toDigits radix n := by
  obtain ⟨ds, hds, -⟩ := spells_toDigits hr hr' n
  exact hds.not_mem hc

theorem number_none (limit : Option Nat) (zeros : Bool) (bound : Nat) (h : Parts radix cs) :
    number radix limit zeros bound cs = none := by
  unfold number
  rw [digits_of_parts h]
  exact if_pos (.inl rfl)

theorem number_suffix {zeros : Bool} (h : number radix limit zeros bound cs = some (n, rest)) :
    rest <:+ cs := by
  unfold number at h
  dsimp only at h
  split at h
  · cases h
  · split at h
    · cases h
    · split at h
      · cases h
        exact digits_suffix radix cs
      · cases h

theorem number_toDigits (hr : 1 < radix) (hr' : radix ≤ 16) (zeros : Bool) (hbound : n < bound)
    (hlimit : ∀ k ∈ limit, 0 < k ∧ n < radix ^ k) (hrest : Parts radix rest) :
    number radix limit zeros bound (Nat.toDigits radix n ++ rest) = some (n, rest) := by
  obtain ⟨ds, hds, hvalue, hhead⟩ := spells_toDigits hr hr' n
  have hlength := hds.length_eq
  have hne : ds ≠ [] := by
    rintro rfl
    exact Nat.toDigits_ne_nil (List.length_eq_zero_iff.mp hlength)
  have hshort : limit.any (· < ds.length) = false := by
    cases limit with
    | none => rfl
    | some k =>
        obtain ⟨hk, hlt⟩ := hlimit k rfl
        have := (Nat.length_toDigits_le_iff hr hk).mpr hlt
        exact decide_eq_false (by omega)
  have hzeros : (!zeros && ds.head? == some 0 && decide (1 < ds.length)) = false := by
    rcases Nat.eq_zero_or_pos n with rfl | hpos
    · rw [Nat.toDigits_zero] at hlength
      simp [← hlength]
    · simp [hhead hpos]
  unfold number
  rw [digits_append hds hrest]
  dsimp only
  rw [if_neg (by simp [hne, hshort]), if_neg (by rw [hzeros]; decide), hvalue, if_pos hbound]

end DnsOverStreams.Reader
