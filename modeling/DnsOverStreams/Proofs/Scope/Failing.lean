import DnsOverStreams.Proofs.Scope.Lineage
/-!
When scopes fail, told from the history alone: a scope fails as canceled when it, or something that
it comes from, was canceled, and otherwise when the earliest deadline that was given on the way to
it has come. A scope that has failed never recovers.
-/

namespace DnsOverStreams

theorem Scope.failure_congr {s : Scope} {ts us : Tokens} {m : Moment}
    (h : s.isCanceled ts m = s.isCanceled us m) : s.failure ts m = s.failure us m := by
  simp only [failure, h]

namespace Forest

variable {f g k : Forest} {h : History} {m n : Nat} {s : Scope}

namespace Bears

theorem isExpired_iff (hb : f.Bears h) (hs : f.scopes[n]? = some s) :
    s.isExpired f.moment = true ↔ ∃ d, IsLeast (h.limits n) d ∧ d ≤ f.now := by
  simp only [← (hb.earliest hs).eq_some_iff]
  cases hd : s.deadline with
  | none => simp [Scope.isExpired, hd]
  | some d =>
      simp only [Scope.isExpired, hd, Option.any_some, Option.some.injEq, exists_eq_left']
      exact decide_eq_true_iff

theorem failures_cancel (hb : f.Bears h) (hn : ¬ ∃ c, h.Alike m c ∧ h.Leads c n) :
    (f.step (.cancel m)).failures[n]? = f.failures[n]? := by
  cases hm : f.scopes[m]? with
  | none => simp [Forest.step, hm]
  | some r =>
      have hc (s : Scope) (hs : f.scopes[n]? = some s) :
          s.isCanceled (r.cancel f.tokens f.moment) f.moment = s.isCanceled f.tokens f.moment := by
        have := (hb.cancel hm).isCanceled_iff hs
        rw [History.canceled_cons_iff, or_iff_right hn, ← hb.isCanceled_iff hs] at this
        exact Bool.coe_iff_coe.mp this
      simp only [Forest.step, hm, failures, List.getElem?_map]
      cases hs : f.scopes[n]? with
      | none => rfl
      | some s => exact congrArg some (Scope.failure_congr (hc s hs))

end Bears

/-- A forest that went on has all the scopes and all the canceled tokens that it had before. -/
structure Before (f g : Forest) : Prop where
  scopes : ∀ (n : Nat) (s : Scope), f.scopes[n]? = some s → g.scopes[n]? = some s
  canceled : ∀ c ∈ f.tokens.canceled, c ∈ g.tokens.canceled
  now : f.now ≤ g.now

namespace Before

theorem refl (f : Forest) : f.Before f :=
  ⟨fun _ _ h => h, fun _ h => h, Nat.le_refl _⟩

theorem trans (hfg : f.Before g) (hgk : g.Before k) : f.Before k where
  scopes n s hs := hgk.scopes n s (hfg.scopes n s hs)
  canceled c hc := hgk.canceled c (hfg.canceled c hc)
  now := Nat.le_trans hfg.now hgk.now

theorem append (f : Forest) (made : Token) (s : Scope) :
    f.Before { f with tokens.made := made, scopes := f.scopes ++ [s] } where
  scopes _ _ hr := (List.getElem?_append_left (List.getElem?_eq_some_iff.mp hr).1).trans hr
  canceled _ hc := hc
  now := Nat.le_refl _

theorem step (f : Forest) (x : ForestStep) : f.Before (f.step x) := by
  unfold Forest.step
  split
  · exact append f _ _
  · split
    · exact append f _ _
    · exact refl f
  · split
    · exact append f _ _
    · exact refl f
  · split
    · exact append f _ _
    · exact refl f
  · split
    · exact append f _ _
    · exact refl f
  · split
    · refine ⟨fun _ _ hs => hs, fun c hc => ?_, Nat.le_refl _⟩
      unfold Scope.cancel
      split
      · exact List.mem_cons_of_mem _ hc
      · exact hc
    · exact refl f
  · exact ⟨fun _ _ hs => hs, fun _ hc => hc, Nat.le_add_right f.now _⟩

theorem steps (f : Forest) (xs : List ForestStep) : f.Before (f.steps xs) := by
  induction xs generalizing f with
  | nil => exact refl f
  | cons x xs ih => exact (step f x).trans (ih (f.step x))

theorem moment (h : f.Before g) : f.moment ≤ g.moment.settle :=
  Moment.le_settle_iff.mpr h.now

theorem isCanceled (h : f.Before g) (hc : s.isCanceled f.tokens f.moment = true) :
    s.isCanceled g.tokens g.moment = true := by
  simp only [Scope.isCanceled, Tokens.isCanceled, List.any_eq_true, Bool.and_eq_true, beq_iff_eq,
    decide_eq_true_eq] at hc ⊢
  obtain ⟨t, ht, c, hmem, rfl, hle⟩ := hc
  exact ⟨c.1, ht, c, h.canceled c hmem, rfl, Moment.le_trans hle h.moment⟩

theorem isExpired (h : f.Before g) (he : s.isExpired f.moment = true) :
    s.isExpired g.moment = true := by
  cases hd : s.deadline with
  | none => simp [Scope.isExpired, hd] at he
  | some d =>
      simp only [Scope.isExpired, hd, Option.any_some, decide_eq_true_eq] at he ⊢
      exact Nat.le_trans he h.now

theorem failure (h : f.Before g) {e : Failure} (he : s.failure f.tokens f.moment = some e) :
    s.failure g.tokens g.moment = some e ∨
      e = .deadlineExceeded ∧ s.failure g.tokens g.moment = some .canceled := by
  unfold Scope.failure at he ⊢
  split at he
  · rename_i hc
    rw [if_pos (h.isCanceled hc)]
    exact .inl he
  · split at he
    · rename_i hx
      cases he
      rw [if_pos (h.isExpired hx)]
      split
      · exact .inr ⟨rfl, rfl⟩
      · exact .inl rfl
    · cases he

theorem failures (h : f.Before g) {e : Failure} (he : f.failures[n]? = some (some e)) :
    g.failures[n]? = some (some e) ∨
      e = .deadlineExceeded ∧ g.failures[n]? = some (some .canceled) := by
  simp only [Forest.failures, List.getElem?_map, Option.map_eq_some_iff] at he ⊢
  obtain ⟨s, hs, he⟩ := he
  rcases h.failure he with hg | ⟨rfl, hg⟩
  · exact .inl ⟨s, h.scopes n s hs, hg⟩
  · exact .inr ⟨rfl, s, h.scopes n s hs, hg⟩

end Before

/-- What is shown of the scopes follows from what was done with them, and is as lasting as that. -/
theorem failures_follow_history (ss : List ForestStep) :
    let f := empty.steps ss
    let h := History.empty.steps ss
    f.scopes.length = h.origins.length ∧
      (∀ n failure, f.failures[n]? = some failure →
        (failure = some .canceled ↔ h.Canceled n) ∧
        (failure = some .deadlineExceeded ↔
          ¬ h.Canceled n ∧ ∃ d, IsLeast (h.limits n) d ∧ d ≤ f.now) ∧
        (failure = none ↔ ¬ h.Canceled n ∧ ¬ ∃ d, IsLeast (h.limits n) d ∧ d ≤ f.now)) ∧
      (∀ n deadline, f.deadlines[n]? = some deadline →
        (∀ d, deadline = some d ↔ IsLeast (h.limits n) d) ∧
        (deadline = none ↔ h.limits n = ∅)) ∧
      (∀ m n d, h.Leads m n → f.deadlines[m]? = some (some d) →
        ∃ e ≤ d, f.deadlines[n]? = some (some e)) ∧
      (∀ m n, h.Ancestor n m ∨ h.Siblings m n →
        (f.step (.cancel m)).failures[n]? = f.failures[n]?) ∧
      ∀ (more : List ForestStep) (n : Nat) (e : Failure), f.failures[n]? = some (some e) →
        (f.steps more).failures[n]? = some (some e) ∨
          e = .deadlineExceeded ∧
            (f.steps more).failures[n]? = some (some .canceled) := by
  intro f h
  have hb : f.Bears h := bears_empty.steps ss
  refine ⟨hb.length, ?failure, ?deadline, ?parent, ?apart, ?lasting⟩
  case failure =>
    intro n failure hn
    obtain ⟨s, hs, rfl⟩ := Option.map_eq_some_iff.mp (List.getElem?_map .. ▸ hn)
    rw [← hb.isCanceled_iff hs, ← hb.isExpired_iff hs, Scope.failure]
    cases s.isCanceled f.tokens f.moment <;> cases s.isExpired f.moment <;> simp
  case deadline =>
    intro n deadline hn
    obtain ⟨s, hs, rfl⟩ := Option.map_eq_some_iff.mp (List.getElem?_map .. ▸ hn)
    exact ⟨fun d => (hb.earliest hs).eq_some_iff, (hb.earliest hs).eq_none_iff⟩
  case parent =>
    intro m n d hl hm
    obtain ⟨r, hr, hd⟩ := Option.map_eq_some_iff.mp (List.getElem?_map .. ▸ hm)
    obtain ⟨s, hs⟩ := hb.exists_of_leads hr hl
    have hd' : d ∈ h.limits m := And.left ((hb.earliest hr).eq_some_iff.mp hd)
    obtain ⟨e, he, hs'⟩ := (hb.earliest hs).exists_le (History.limits_subset hl hd')
    exact ⟨e, he, by simp [deadlines, hs, hs']⟩
  case apart =>
    intro m n hmn
    exact hb.failures_cancel (hmn.elim hb.apart_of_ancestor hb.apart_of_siblings)
  case lasting => exact fun more n e he => (Before.steps f more).failures he

theorem failures_follow_history_family :
    let ss : List ForestStep :=
      [.root, .withTimeout 0 5, .clone 1, .withDeadline 2 9, .advance 5, .cancel 1]
    (empty.steps ss).failures = [none, some .canceled, some .canceled, some .canceled] ∧
      (History.empty.steps ss).Canceled 3 ∧
      IsLeast ((History.empty.steps ss).limits 3) 5 ∧
      ((empty.steps ss).step (.cancel 3)).failures[0]? = some none := by
  intro ss
  obtain ⟨-, failure, deadline, -, apart, -⟩ := failures_follow_history ss
  refine ⟨by decide, (failure 3 _ rfl).1.mp (by decide),
    ((deadline 3 _ rfl).1 5).mp (by decide), ?_⟩
  have above : (History.empty.steps ss).Ancestor 0 3 :=
    ⟨2, 3, .tail (.tail .refl (.inr ⟨some 5, rfl⟩)) (.inl rfl), ⟨some 9, rfl⟩, .refl⟩
  exact (apart 3 0 (.inl above)).trans (by decide)

end Forest

end DnsOverStreams
