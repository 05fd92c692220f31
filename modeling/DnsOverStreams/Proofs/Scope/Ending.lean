import DnsOverStreams.Scope.Basic
/-!
When a scope ends: the first moment at which something ends it is the moment from which on it has failed.
A scope with a token of its own ends when the scope it is derived from does, until that token is canceled.
-/

namespace DnsOverStreams

namespace Tokens

/-- The token was never canceled and is not to be. -/
def Spare (ts : Tokens) (t : Token) : Prop :=
  ∀ c ∈ ts.canceled, c.1 ≠ t

theorem canceled_cancelAll (ts : Tokens) (us : List Token) (m : Moment) :
    (ts.cancelAll us m).canceled = (us.map fun t => (t, m)).reverse ++ ts.canceled := by
  induction us generalizing ts with
  | nil => rfl
  | cons u us ih =>
      change (Tokens.cancelAll (ts.cancel u m) us m).canceled = _
      rw [ih]
      simp [cancel]

theorem made_cancelAll (ts : Tokens) (us : List Token) (m : Moment) :
    (ts.cancelAll us m).made = ts.made := by
  induction us generalizing ts with
  | nil => rfl
  | cons u us ih => exact ih (ts.cancel u m)

theorem mem_cancelAll {ts : Tokens} {us : List Token} {m : Moment} {c : Token × Moment} :
    c ∈ (ts.cancelAll us m).canceled ↔ c ∈ ts.canceled ∨ (c.1 ∈ us ∧ c.2 = m) := by
  obtain ⟨t, e⟩ := c
  simp only [canceled_cancelAll, List.mem_append, List.mem_reverse, List.mem_map, Prod.mk.injEq]
  constructor
  · rintro (⟨u, hu, rfl, rfl⟩ | h)
    · exact .inr ⟨hu, rfl⟩
    · exact .inl h
  · rintro (h | ⟨hu, rfl⟩)
    · exact .inr h
    · exact .inl ⟨t, hu, rfl, rfl⟩

theorem Spare.cancelAll {ts : Tokens} {us : List Token} {t : Token} (h : ts.Spare t) (hu : t ∉ us)
    (m : Moment) : (ts.cancelAll us m).Spare t := by
  intro c hc
  rcases mem_cancelAll.mp hc with hc | ⟨hc, -⟩
  · exact h c hc
  · rintro rfl
    exact hu hc

theorem Spare.isCanceled {ts : Tokens} {t : Token} (h : ts.Spare t) (m : Moment) :
    ts.isCanceled t m = false := by
  refine List.any_eq_false.mpr fun c hc => ?_
  simp [h c hc]

end Tokens

namespace Scope

variable {s : Scope} {ts : Tokens} {m e : Moment}

theorem mem_ends_iff :
    e ∈ s.ends ts ↔ (∃ t ∈ s.tokens, (t, e) ∈ ts.canceled) ∨ ∃ d ∈ s.deadline, e = .sharp d := by
  simp only [ends, List.mem_append, List.mem_map, List.mem_filter, List.contains_iff_mem,
    Option.mem_toList]
  constructor
  · rintro (⟨⟨t, e'⟩, ⟨hc, ht⟩, rfl⟩ | ⟨d, hd, rfl⟩)
    · exact .inl ⟨t, ht, hc⟩
    · exact .inr ⟨d, hd, rfl⟩
  · rintro (⟨t, ht, hc⟩ | ⟨d, hd, rfl⟩)
    · exact .inl ⟨(t, e), ⟨hc, ht⟩, rfl⟩
    · exact .inr ⟨d, hd, rfl⟩

theorem endsAt_eq_some_iff :
    s.endsAt ts = some e ↔ e ∈ s.ends ts ∧ ∀ f ∈ s.ends ts, e ≤ f :=
  List.min?_eq_some_iff

theorem endsAt_eq_none_iff : s.endsAt ts = none ↔ s.ends ts = [] :=
  List.min?_eq_none_iff

theorem failure_isSome_iff_endsAt :
    (s.failure ts m).isSome = true ↔ ∃ e ∈ s.endsAt ts, e ≤ m := by
  rw [failure_isSome_iff]
  constructor
  · rintro ⟨f, hf, hle⟩
    cases h : s.endsAt ts with
    | none => simp [endsAt_eq_none_iff.mp h] at hf
    | some e => exact ⟨e, rfl, Moment.le_trans ((endsAt_eq_some_iff.mp h).2 f hf) hle⟩
  · rintro ⟨e, h, hle⟩
    exact ⟨e, (endsAt_eq_some_iff.mp h).1, hle⟩

theorem lt_of_failure_eq_none (h : s.failure ts m = none) (he : e ∈ s.ends ts) : ¬ e ≤ m := by
  intro hle
  have := failure_isSome_iff.mpr ⟨e, he, hle⟩
  simp [h] at this

theorem mem_ends_cancelAll {us : List Token} (h : e ∈ s.ends (ts.cancelAll us m)) :
    e ∈ s.ends ts ∨ e = m := by
  rcases mem_ends_iff.mp h with ⟨t, ht, hc⟩ | hd
  · rcases Tokens.mem_cancelAll.mp hc with hc | ⟨-, rfl⟩
    · exact .inl (mem_ends_iff.mpr (.inl ⟨t, ht, hc⟩))
    · exact .inr rfl
  · exact .inl (mem_ends_iff.mpr (.inr hd))

theorem failure_isSome_mono {us : Tokens} {n : Moment} (h : (s.failure ts m).isSome = true)
    (hm : m ≤ n) (hc : ∀ c ∈ ts.canceled, c ∈ us.canceled) :
    (s.failure us n).isSome = true := by
  obtain ⟨e, he, hle⟩ := failure_isSome_iff.mp h
  refine failure_isSome_iff.mpr ⟨e, ?_, Moment.le_trans hle hm⟩
  rcases mem_ends_iff.mp he with ⟨t, ht, hmem⟩ | hd
  · exact mem_ends_iff.mpr (.inl ⟨t, ht, hc _ hmem⟩)
  · exact mem_ends_iff.mpr (.inr hd)

theorem failure_cancel_isSome (hs : s.tokens ≠ []) (ts : Tokens) (m : Moment) :
    (s.failure (s.cancel ts m) m).isSome = true := by
  obtain ⟨t, rest, h⟩ := List.exists_cons_of_ne_nil hs
  refine failure_isSome_iff.mpr ⟨m, mem_ends_iff.mpr (.inl ⟨t, ?_, ?_⟩), Moment.le_refl m⟩
  · rw [h]
    exact List.mem_cons_self
  · unfold cancel
    rw [h]
    exact List.mem_cons_self

theorem isCanceled_withCancel {us : Tokens} (h : ts.Spare us.fresh) :
    (s.withCancel us).isCanceled ts m = s.isCanceled ts m := by
  simp only [isCanceled, withCancel, List.any_cons, h.isCanceled, Bool.false_or]

theorem failure_withCancel {us : Tokens} (h : ts.Spare us.fresh) :
    (s.withCancel us).failure ts m = s.failure ts m := by
  rw [failure, failure, isCanceled_withCancel h]
  rfl

theorem endsAt_withCancel {us : Tokens} (h : ts.Spare us.fresh) :
    (s.withCancel us).endsAt ts = s.endsAt ts := by
  have hends : (s.withCancel us).ends ts = s.ends ts := by
    have hkept (c : Token × Moment) (hc : c ∈ ts.canceled) :
        (s.withCancel us).tokens.contains c.1 = s.tokens.contains c.1 := by
      simp [withCancel, h c hc]
    exact congrArg (·.map Prod.snd ++ s.deadline.toList.map Moment.sharp) (List.filter_congr hkept)
  rw [endsAt, endsAt, hends]

end Scope

end DnsOverStreams
