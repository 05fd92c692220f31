import DnsOverStreams.Proofs.Scope.Ending
import DnsOverStreams.Proofs.Scope.History
import Mathlib.Order.Bounds.Basic
/-!
Scopes and where they come from. The tokens of a scope are those of all that it comes from, and only
clones have a token in common; so what cancels a scope can be told from the history alone, and
likewise its deadline, which is the earliest one given on the way to it.
-/

namespace DnsOverStreams

namespace Origin

def parent? : Origin → Option Nat
  | new => none
  | clone parent => some parent
  | derived parent _ => some parent

def limit? : Origin → Option Time
  | new => none
  | clone _ => none
  | derived _ limit => limit

end Origin

namespace History

variable {h : History} {m n : Nat} {o : Origin}

theorem parent_iff (ho : h.origins[n]? = some o) :
    h.Clones m n ∨ h.Derives m n ↔ o.parent? = some m := by
  unfold Clones Derives
  rw [ho]
  cases o <;> simp [Origin.parent?]

theorem leads_iff (ho : h.origins[n]? = some o) :
    h.Leads m n ↔ m = n ∨ ∃ p, o.parent? = some p ∧ h.Leads m p := by
  refine (Relation.ReflTransGen.cases_tail_iff _ m n).trans (or_congr eq_comm ?_)
  refine exists_congr fun p => ?_
  rw [and_comm, parent_iff ho]
  rfl

theorem mem_limits_iff (ho : h.origins[n]? = some o) {t : Time} :
    t ∈ h.limits n ↔ o.limit? = some t ∨ ∃ p, o.parent? = some p ∧ t ∈ h.limits p := by
  constructor
  · rintro ⟨a, p, ha, hl⟩
    rcases (leads_iff ho).mp hl with rfl | ⟨q, hq, hl⟩
    · obtain rfl : o = .derived p (some t) := Option.some.inj (ho.symm.trans ha)
      exact .inl rfl
    · exact .inr ⟨q, hq, a, p, ha, hl⟩
  · rintro (hl | ⟨q, hq, a, p, ha, hl⟩)
    · cases o with
      | new => cases hl
      | clone p => cases hl
      | derived p limit =>
          obtain rfl : limit = some t := hl
          exact ⟨n, p, ho, .refl⟩
    · exact ⟨a, p, ha, (leads_iff ho).mpr (.inr ⟨q, hq, hl⟩)⟩

theorem limits_subset (hl : h.Leads m n) : h.limits m ⊆ h.limits n := by
  rintro t ⟨a, p, ha, hm⟩
  exact ⟨a, p, ha, hm.trans hl⟩

theorem canceled_cons_iff :
    History.Canceled { h with canceled := m :: h.canceled } n ↔
      (∃ a, h.Alike m a ∧ h.Leads a n) ∨ h.Canceled n := by
  unfold Canceled
  simp only [List.mem_cons, exists_eq_or_imp]
  rfl

end History

def Earliest (s : Set Time) : Option Time → Prop
  | some t => IsLeast s t
  | none => s = ∅

namespace Earliest

variable {s : Set Time} {o : Option Time}

theorem eq_some_iff (h : Earliest s o) {t : Time} : o = some t ↔ IsLeast s t := by
  cases o with
  | none =>
      obtain rfl : s = ∅ := h
      simp [IsLeast]
  | some u => simpa using ⟨fun hu => hu ▸ h, fun ht => IsLeast.unique h ht⟩

theorem eq_none_iff (h : Earliest s o) : o = none ↔ s = ∅ := by
  cases o with
  | none => exact iff_of_true rfl h
  | some u => simpa using Set.nonempty_iff_ne_empty.mp ⟨u, And.left h⟩

theorem exists_le (h : Earliest s o) {t : Time} (ht : t ∈ s) : ∃ e ≤ t, o = some e := by
  cases o with
  | none =>
      obtain rfl : s = ∅ := h
      cases ht
  | some u => exact ⟨u, And.right h ht, rfl⟩

theorem insert (h : Earliest s o) (t : Time) :
    Earliest (insert t s) (some (Scope.earlier o t)) := by
  cases o with
  | none =>
      obtain rfl : s = ∅ := h
      simp [Earliest, Scope.earlier, isLeast_singleton]
  | some u => simpa [Earliest, Scope.earlier, min_comm] using IsLeast.insert t h

end Earliest

namespace Forest

variable {f : Forest} {h : History} {m n : Nat} {s : Scope} {t u : Token}

theorem exists_of_ownToken (hn : f.ownToken n = some t) :
    ∃ s, f.scopes[n]? = some s ∧ t ∈ s.tokens := by
  obtain ⟨s, hs, ht⟩ := Option.bind_eq_some_iff.mp hn
  exact ⟨s, hs, List.mem_of_head? ht⟩

theorem ownToken_lt (hu : Fresh f.scopes n u) (hm : f.ownToken m = some t) (hlt : m < n) :
    t < u := by
  obtain ⟨s, hs, ht⟩ := exists_of_ownToken hm
  exact hu m hlt s hs t ht

namespace Bears

theorem exists_scope (hb : f.Bears h) {o : Origin} (ho : h.origins[n]? = some o) :
    ∃ s, f.scopes[n]? = some s ∧ o.Makes f.scopes n s := by
  have hn : n < f.scopes.length := hb.length ▸ (List.getElem?_eq_some_iff.mp ho).1
  obtain ⟨p, hp, hm⟩ := hb.made n f.scopes[n] (List.getElem?_eq_getElem hn)
  obtain rfl : o = p := Option.some.inj (ho.symm.trans hp)
  exact ⟨_, List.getElem?_eq_getElem hn, hm⟩

/-- What holds of new scopes and passes on to clones and to derived scopes holds of all scopes. -/
@[elab_as_elim]
theorem descend (hb : f.Bears h) {P : ∀ n s, f.scopes[n]? = some s → Prop}
    (new : ∀ n t (hs : f.scopes[n]? = some ⟨[t], none⟩), h.origins[n]? = some .new →
      Fresh f.scopes n t → P n _ hs)
    (clone : ∀ n s (hs : f.scopes[n]? = some s) p (hp : f.scopes[p]? = some s),
      h.origins[n]? = some (.clone p) → P p s hp → P n s hs)
    (derived : ∀ n t r limit (hs : f.scopes[n]? = some (Scope.child r t limit)) p
      (hp : f.scopes[p]? = some r), h.origins[n]? = some (.derived p limit) →
      p < n → Fresh f.scopes n t → P p r hp → P n _ hs)
    (n : Nat) (s : Scope) (hs : f.scopes[n]? = some s) : P n s hs := by
  induction n using Nat.strong_induction_on generalizing s with
  | _ n ih =>
    obtain ⟨o, ho, hm⟩ := hb.made n s hs
    cases hm with
    | new fresh => exact new n _ hs ho fresh
    | clone older found => exact clone n s hs _ found ho (ih _ older _ found)
    | derived older found fresh =>
        exact derived n _ _ _ hs _ found ho older fresh (ih _ older _ found)

theorem earliest (hb : f.Bears h) (hs : f.scopes[n]? = some s) :
    Earliest (h.limits n) s.deadline := by
  induction n, s, hs using hb.descend with
  | new n t _ ho =>
      refine Set.eq_empty_iff_forall_notMem.mpr fun d hd => ?_
      simpa [Origin.limit?, Origin.parent?] using (History.mem_limits_iff ho).mp hd
  | clone n s _ p _ ho ih =>
      have : h.limits n = h.limits p := by
        ext d
        simp [History.mem_limits_iff ho, Origin.limit?, Origin.parent?]
      exact this ▸ ih
  | derived n t r limit _ p _ ho _ _ ih =>
      cases limit with
      | none =>
          have : h.limits n = h.limits p := by
            ext d
            simp [History.mem_limits_iff ho, Origin.limit?, Origin.parent?]
          exact this ▸ ih
      | some l =>
          have : h.limits n = insert l (h.limits p) := by
            ext d
            simp [History.mem_limits_iff ho, Origin.limit?, Origin.parent?, eq_comm]
          exact this ▸ ih.insert l

theorem exists_ownToken (hb : f.Bears h) (hs : f.scopes[n]? = some s) :
    ∃ t, f.ownToken n = some t := by
  induction n, s, hs using hb.descend with
  | new n t hs => exact ⟨t, by simp [ownToken, hs]⟩
  | clone n s hs p hp _ ih => simpa [ownToken, hs, hp] using ih
  | derived n t r limit hs => exact ⟨t, by simp [ownToken, hs, Scope.child]⟩

theorem mem_tokens_iff (hb : f.Bears h) (hs : f.scopes[n]? = some s) (t : Token) :
    t ∈ s.tokens ↔ ∃ a, h.Leads a n ∧ f.ownToken a = some t := by
  induction n, s, hs using hb.descend with
  | new n u hs ho =>
      simp [History.leads_iff ho, Origin.parent?, ownToken, hs, eq_comm]
  | clone n s hs p hp ho ih =>
      have hown : f.ownToken n = f.ownToken p := by simp [ownToken, hs, hp]
      simp only [History.leads_iff ho, Origin.parent?, or_and_right, exists_or, exists_eq_left,
        hown]
      constructor
      · exact fun ht => .inr (by simpa using ih.mp ht)
      · rintro (ht | ht)
        · exact ih.mpr ⟨p, .refl, ht⟩
        · exact ih.mpr (by simpa using ht)
  | derived n u r limit hs p hp ho _ _ ih =>
      have hown : f.ownToken n = some u := by simp [ownToken, hs, Scope.child]
      simp only [Scope.child, List.mem_cons, ih, History.leads_iff ho, Origin.parent?,
        Option.some.injEq, or_and_right, exists_or, exists_eq_left, exists_eq_left', hown]
      exact or_congr eq_comm Iff.rfl

theorem scope_of_alike (hb : f.Bears h) (ha : h.Alike m n) : f.scopes[m]? = f.scopes[n]? := by
  induction ha with
  | rel m n ho =>
      obtain ⟨s, hs, hm⟩ := hb.exists_scope ho
      cases hm with
      | clone _ found => rw [found, hs]
  | refl n => rfl
  | symm m n _ ih => exact ih.symm
  | trans m k n _ _ ih ih' => exact ih.trans ih'

theorem exists_source (hb : f.Bears h) (hs : f.scopes[n]? = some s) :
    ∃ r, h.Alike r n ∧ ∀ t, f.ownToken r = some t → Fresh f.scopes r t := by
  induction n, s, hs using hb.descend with
  | new n t hs _ fresh => exact ⟨n, .refl n, by simpa [ownToken, hs] using fresh⟩
  | clone n s _ p _ ho ih =>
      obtain ⟨r, hr, hfresh⟩ := ih
      exact ⟨r, .trans _ _ _ hr (.rel p n ho), hfresh⟩
  | derived n t r limit hs p _ _ _ fresh =>
      exact ⟨n, .refl n, by simpa [ownToken, hs, Scope.child] using fresh⟩

theorem ownToken_of_alike (hb : f.Bears h) (ha : h.Alike m n) : f.ownToken m = f.ownToken n := by
  simp only [ownToken, hb.scope_of_alike ha]

theorem alike_iff (hb : f.Bears h) (hm : f.ownToken m = some t) :
    h.Alike m n ↔ f.ownToken n = some t := by
  constructor
  · intro ha
    rw [← hb.ownToken_of_alike ha, hm]
  · intro hn
    obtain ⟨s, hs, -⟩ := exists_of_ownToken hm
    obtain ⟨s', hs', -⟩ := exists_of_ownToken hn
    obtain ⟨a, ha, hfresh⟩ := hb.exists_source hs
    obtain ⟨b, hb', hfresh'⟩ := hb.exists_source hs'
    have hat : f.ownToken a = some t := by rw [hb.ownToken_of_alike ha, hm]
    have hbt : f.ownToken b = some t := by rw [hb.ownToken_of_alike hb', hn]
    rcases Nat.lt_trichotomy a b with hlt | rfl | hlt
    · exact absurd (ownToken_lt (hfresh' t hbt) hat hlt) (Nat.lt_irrefl t)
    · exact .trans _ _ _ (.symm _ _ ha) hb'
    · exact absurd (ownToken_lt (hfresh t hat) hbt hlt) (Nat.lt_irrefl t)

theorem isCanceled_iff (hb : f.Bears h) (hs : f.scopes[n]? = some s) :
    s.isCanceled f.tokens f.moment = true ↔ h.Canceled n := by
  have hc : s.isCanceled f.tokens f.moment = true ↔
      ∃ t ∈ s.tokens, ∃ e, (t, e) ∈ f.tokens.canceled := by
    simp only [Scope.isCanceled, Tokens.isCanceled, List.any_eq_true, Bool.and_eq_true, beq_iff_eq,
      decide_eq_true_eq]
    constructor
    · rintro ⟨t, ht, ⟨u, e⟩, hmem, rfl, -⟩
      exact ⟨u, ht, e, hmem⟩
    · rintro ⟨t, ht, e, hmem⟩
      exact ⟨t, ht, (t, e), hmem, rfl, hb.past _ hmem⟩
  rw [hc]
  constructor
  · rintro ⟨t, ht, e⟩
    obtain ⟨m, hm, hown⟩ := (hb.canceled t).mp e
    obtain ⟨a, ha, hat⟩ := (hb.mem_tokens_iff hs t).mp ht
    exact ⟨m, hm, a, (hb.alike_iff hown).mpr hat, ha⟩
  · rintro ⟨m, hm, a, hma, ha⟩
    have hlt : m < f.scopes.length := hb.length ▸ hb.known m hm
    obtain ⟨t, ht⟩ := hb.exists_ownToken (List.getElem?_eq_getElem hlt)
    have hat := (hb.alike_iff ht).mp hma
    exact ⟨t, (hb.mem_tokens_iff hs t).mpr ⟨a, ha, hat⟩, (hb.canceled t).mpr ⟨m, hm, ht⟩⟩

theorem le_ownToken (hb : f.Bears h) (hs : f.scopes[n]? = some s) (hn : f.ownToken n = some u) :
    ∀ t ∈ s.tokens, t ≤ u := by
  induction n, s, hs using hb.descend with
  | new n v hs =>
      simp_all [ownToken]
  | clone n s hs p hp _ ih => exact ih (by simpa [ownToken, hs, hp] using hn)
  | derived n v r limit hs p hp _ older fresh ih =>
      obtain rfl : v = u := by simpa [ownToken, hs, Scope.child] using hn
      intro t ht
      rcases List.mem_cons.mp ht with rfl | ht
      · exact Nat.le_refl _
      · exact Nat.le_of_lt (fresh p older r hp t ht)

theorem lt_of_derives (hb : f.Bears h) (hd : h.Derives m n) (hn : f.ownToken n = some t) :
    ∃ s, f.scopes[m]? = some s ∧ ∀ u ∈ s.tokens, u < t := by
  obtain ⟨limit, ho⟩ := hd
  obtain ⟨s, hs, hm⟩ := hb.exists_scope ho
  cases hm with
  | @derived _ _ r v older found fresh =>
      obtain rfl : v = t := by simpa [ownToken, hs, Scope.child] using hn
      exact ⟨r, found, fresh m older r found⟩

theorem exists_of_leads (hb : f.Bears h) (hs : f.scopes[m]? = some s) (hl : h.Leads m n) :
    ∃ r, f.scopes[n]? = some r := by
  induction hl with
  | refl => exact ⟨s, hs⟩
  | tail _ hp _ =>
      rcases hp with ho | ⟨limit, ho⟩
      · obtain ⟨r, hr, -⟩ := hb.exists_scope ho
        exact ⟨r, hr⟩
      · obtain ⟨r, hr, -⟩ := hb.exists_scope ho
        exact ⟨r, hr⟩

theorem apart_of_ancestor (hb : f.Bears h) (ha : h.Ancestor n m) :
    ¬ ∃ c, h.Alike m c ∧ h.Leads c n := by
  rintro ⟨c, hmc, hcn⟩
  obtain ⟨a, b, hna, ⟨limit, ho⟩, hbm⟩ := ha
  obtain ⟨sb, hsb, -⟩ := hb.exists_scope ho
  obtain ⟨sm, hsm⟩ := hb.exists_of_leads hsb hbm
  obtain ⟨v, hv⟩ := hb.exists_ownToken hsb
  obtain ⟨t, ht⟩ := hb.exists_ownToken hsm
  obtain ⟨sa, hsa, hlt⟩ := hb.lt_of_derives ⟨limit, ho⟩ hv
  have htv : t < v :=
    hlt t ((hb.mem_tokens_iff hsa t).mpr ⟨c, hcn.trans hna, (hb.alike_iff ht).mp hmc⟩)
  have hvt : v ≤ t := hb.le_ownToken hsm ht v ((hb.mem_tokens_iff hsm v).mpr ⟨b, hbm, hv⟩)
  exact Nat.lt_irrefl t (Nat.lt_of_lt_of_le htv hvt)

theorem apart_of_siblings (hb : f.Bears h) (hs : h.Siblings m n) :
    ¬ ∃ c, h.Alike m c ∧ h.Leads c n := by
  rintro ⟨c, hmc, hcn⟩
  obtain ⟨hne, a, b, hab, ⟨limit, ham⟩, ⟨limit', hbn⟩⟩ := hs
  obtain ⟨sm, hsm, hm⟩ := hb.exists_scope ham
  obtain ⟨sn, hsn, hn⟩ := hb.exists_scope hbn
  cases hm with
  | @derived _ _ sa t older found fresh =>
  cases hn with
  | @derived _ _ sb u older' found' fresh' =>
  have ht : f.ownToken m = some t := by simp [ownToken, hsm, Scope.child]
  have hu : f.ownToken n = some u := by simp [ownToken, hsn, Scope.child]
  have htn := (hb.mem_tokens_iff hsn t).mpr ⟨c, hcn, (hb.alike_iff ht).mp hmc⟩
  obtain rfl : sa = sb := by simpa [found, found'] using hb.scope_of_alike hab
  rcases List.mem_cons.mp htn with rfl | htb
  · rcases Nat.lt_or_gt_of_ne hne with hlt | hlt
    · exact Nat.lt_irrefl t (ownToken_lt fresh' ht hlt)
    · exact Nat.lt_irrefl t (ownToken_lt fresh hu hlt)
  · exact Nat.lt_irrefl t (fresh a older sa found t htb)

end Bears

end Forest

end DnsOverStreams
