import DnsOverStreams.Task
/-!
What becomes of a single call, read off its fate: a call that returns does so before its scope ends, one
that is given up is given up when the scope ends.
-/

namespace DnsOverStreams

namespace Delay

def Waits : Delay → Prop
  | atOnce => False
  | after ms => 0 < ms
  | answered _ => True
  | never => True

def duration? : Delay → Option Nat
  | atOnce => some 0
  | after ms => some ms
  | answered ms => some ms
  | never => none

theorem duration_of_answered {d : Delay} (h : d ≠ never) : ∃ ms, d.duration? = some ms := by
  cases d with
  | never => exact absurd rfl h
  | _ => exact ⟨_, rfl⟩

theorem ofMs_ne_never (ms : Nat) : ofMs ms ≠ never := by
  cases ms <;> exact Delay.noConfusion

variable {d : Delay} {now f : Moment}

theorem le_finish (h : d.finish? now = some f) : now ≤ f := by
  cases d with
  | atOnce => cases h; exact Moment.le_refl _
  | after ms =>
      cases h
      rw [Moment.le_def, Moment.rank_max]
      exact Nat.le_max_left _ _
  | answered ms =>
      cases h
      refine Moment.le_settle_iff.mpr ?_
      exact Nat.le_add_right _ _
  | never => cases h

theorem settle_le_finish (hw : d.Waits) (h : d.finish? now = some f) : now.settle ≤ f := by
  cases d with
  | atOnce => exact hw.elim
  | after ms =>
      cases h
      have hms : 0 < ms := hw
      rw [Moment.le_def, Moment.rank_max, Moment.rank_settle, Moment.rank_sharp]
      unfold Time
      omega
  | answered ms =>
      cases h
      refine Moment.le_settle_iff.mpr ?_
      exact Nat.le_add_right _ _
  | never => cases h

theorem finish_of_duration {ms : Nat} (h : d.duration? = some ms) (now : Moment) :
    ∃ m, d.finish? now = some m := by
  cases d with
  | never => cases h
  | _ => exact ⟨_, rfl⟩

theorem time_finish {ms : Nat} (h : d.duration? = some ms) (hf : d.finish? now = some f) :
    f.time = now.time + ms := by
  cases d with
  | atOnce =>
      cases h
      cases hf
      rfl
  | after n =>
      cases h
      cases hf
      have := Bool.toNat_le now.settled
      rw [Moment.time_eq, Moment.rank_max, Moment.rank_sharp, Moment.rank]
      unfold Time
      omega
  | answered n =>
      cases h
      cases hf
      rfl
  | never => cases h

end Delay

namespace Fate

variable {scopeEnd : Option Moment} {patience : Option Time} {now m e : Moment} {d : Delay}

theorem sooner_hangs (f : Fate) : sooner f hangs = f := by
  unfold sooner
  cases f.moment? <;> rfl

theorem hangs_sooner {f : Fate} (h : f.moment? = none → f = hangs) : sooner hangs f = f := by
  unfold sooner
  cases hf : f.moment? with
  | none => exact (h hf).symm
  | some m => rfl

theorem sooner_of_le {f g : Fate} {n : Moment} (hf : f.moment? = some m) (hg : g.moment? = some n)
    (h : m ≤ n) : sooner f g = f := by
  unfold sooner
  rw [hf, hg]
  exact if_pos h

theorem sooner_of_not_le {f g : Fate} {n : Moment} (hf : f.moment? = some m)
    (hg : g.moment? = some n) (h : ¬ m ≤ n) : sooner f g = g := by
  unfold sooner
  rw [hf, hg]
  exact if_neg h

theorem of_waiting (h : d ≠ .atOnce) :
    of scopeEnd patience now d = ofWaiting scopeEnd patience now d := by
  cases d <;> first | rfl | exact absurd rfl h

def ofOthers (patience : Option Time) (now : Moment) (d : Delay) : Fate :=
  sooner ((d.finish? now).elim hangs returns)
    (patience.elim hangs fun t => dropped (some (.sharp t)))

theorem ofOthers_cases (patience : Option Time) (now : Moment) (d : Delay) :
    (∃ f, d.finish? now = some f ∧ ofOthers patience now d = returns f) ∨
    (∃ t ∈ patience, (∀ f ∈ d.finish? now, ¬ f ≤ .sharp t) ∧
      ofOthers patience now d = dropped (some (.sharp t))) ∨
    (d.finish? now = none ∧ patience = none ∧ ofOthers patience now d = hangs) := by
  unfold ofOthers
  cases hf : d.finish? now with
  | none =>
      cases patience with
      | none => exact .inr (.inr ⟨rfl, rfl, rfl⟩)
      | some t => exact .inr (.inl ⟨t, rfl, by simp, rfl⟩)
  | some f =>
      cases patience with
      | none => exact .inl ⟨f, rfl, rfl⟩
      | some t =>
          by_cases h : f ≤ .sharp t
          · exact .inl ⟨f, rfl, sooner_of_le rfl rfl h⟩
          · refine .inr (.inl ⟨t, rfl, ?_, sooner_of_not_le rfl rfl h⟩)
            rintro f ⟨⟩
            exact h

theorem ofOthers_moment (h : (ofOthers patience now d).moment? = none) :
    ofOthers patience now d = hangs := by
  rcases ofOthers_cases patience now d with
    ⟨f, -, hf⟩ | ⟨t, -, -, ht⟩ | ⟨-, -, hh⟩
  · rw [hf] at h; cases h
  · rw [ht] at h; cases h
  · exact hh

theorem ofWaiting_cases (scopeEnd : Option Moment) (patience : Option Time) (now : Moment)
    (d : Delay) :
    (∃ t ∈ patience, t ≤ now.time ∧ ofWaiting scopeEnd patience now d = dropped none) ∨
    (∃ e ∈ scopeEnd, ofWaiting scopeEnd patience now d = ended (max now.settle e)) ∨
    (∃ f, d.finish? now = some f ∧ (∀ e ∈ scopeEnd, ¬ max now.settle e ≤ f) ∧
      ofWaiting scopeEnd patience now d = returns f) ∨
    (∃ t ∈ patience, ¬ t ≤ now.time ∧ (∀ e ∈ scopeEnd, ¬ max now.settle e ≤ .sharp t) ∧
      (∀ f ∈ d.finish? now, ¬ f ≤ .sharp t) ∧
      ofWaiting scopeEnd patience now d = dropped (some (.sharp t))) ∨
    (scopeEnd = none ∧ d.finish? now = none ∧ patience = none ∧
      ofWaiting scopeEnd patience now d = hangs) := by
  by_cases h : ∃ t ∈ patience, t ≤ now.time
  · obtain ⟨t, ht, hle⟩ := h
    refine .inl ⟨t, ht, hle, if_pos ?_⟩
    cases ht
    exact decide_eq_true hle
  · have late : ¬ patience.any (· ≤ now.time) = true := by
      intro hany
      cases patience with
      | none => cases hany
      | some t => exact h ⟨t, rfl, of_decide_eq_true hany⟩
    have patient (t : Time) (ht : t ∈ patience) : ¬ t ≤ now.time := fun hle => h ⟨t, ht, hle⟩
    have weigh : ofWaiting scopeEnd patience now d =
        sooner (scopeEnd.elim hangs fun m => ended (max now.settle m)) (ofOthers patience now d) :=
      if_neg late
    right
    rw [weigh]
    cases scopeEnd with
    | none =>
        right
        rw [Option.elim_none, hangs_sooner ofOthers_moment]
        rcases ofOthers_cases patience now d with
          ⟨f, hf, ho⟩ | ⟨t, ht, hlt, ho⟩ | ⟨hf, hp, ho⟩
        · exact .inl ⟨f, hf, by simp, ho⟩
        · exact .inr (.inl ⟨t, ht, patient t ht, by simp, hlt, ho⟩)
        · exact .inr (.inr ⟨rfl, hf, hp, ho⟩)
    | some e =>
        rcases ofOthers_cases patience now d with
          ⟨f, hf, ho⟩ | ⟨t, ht, hlt, ho⟩ | ⟨hf, hp, ho⟩
        all_goals rw [ho]
        · by_cases hle : max now.settle e ≤ f
          · exact .inl ⟨e, rfl, sooner_of_le rfl rfl hle⟩
          · refine .inr (.inl ⟨f, hf, ?_, sooner_of_not_le rfl rfl hle⟩)
            rintro e ⟨⟩
            exact hle
        · by_cases hle : max now.settle e ≤ .sharp t
          · exact .inl ⟨e, rfl, sooner_of_le rfl rfl hle⟩
          · refine .inr (.inr (.inl ⟨t, ht, patient t ht, ?_, hlt, sooner_of_not_le rfl rfl hle⟩))
            rintro e ⟨⟩
            exact hle
        · exact .inl ⟨e, rfl, sooner_hangs _⟩

theorem of_eq_returns (h : of scopeEnd patience now d = returns m) :
    now ≤ m ∧ (m = now ∨ ∀ e ∈ scopeEnd, ¬ max now.settle e ≤ m) := by
  by_cases hd : d = .atOnce
  · subst hd
    cases h
    exact ⟨Moment.le_refl _, .inl rfl⟩
  · rw [of_waiting hd] at h
    rcases ofWaiting_cases scopeEnd patience now d with
      ⟨t, -, -, ho⟩ | ⟨e, -, ho⟩ | ⟨f, hf, hlt, ho⟩ | ⟨t, -, -, -, -, ho⟩ | ⟨-, -, -, ho⟩
    all_goals rw [ho] at h; cases h
    exact ⟨Delay.le_finish hf, .inr hlt⟩

theorem of_eq_ended (h : of scopeEnd patience now d = ended m) :
    ∃ e ∈ scopeEnd, m = max now.settle e := by
  by_cases hd : d = .atOnce
  · subst hd
    cases h
  · rw [of_waiting hd] at h
    rcases ofWaiting_cases scopeEnd patience now d with
      ⟨t, -, -, ho⟩ | ⟨e, he, ho⟩ | ⟨f, -, -, ho⟩ | ⟨t, -, -, -, -, ho⟩ | ⟨-, -, -, ho⟩
    all_goals rw [ho] at h; cases h
    exact ⟨e, he, rfl⟩

theorem of_eq_dropped {n : Option Moment} (h : of scopeEnd patience now d = dropped n) :
    now ≤ n.getD now := by
  by_cases hd : d = .atOnce
  · subst hd
    cases h
  · rw [of_waiting hd] at h
    rcases ofWaiting_cases scopeEnd patience now d with
      ⟨t, -, -, ho⟩ | ⟨e, -, ho⟩ | ⟨f, -, -, ho⟩ | ⟨t, -, hlt, -, -, ho⟩ | ⟨-, -, -, ho⟩
    all_goals rw [ho] at h; cases h
    · exact Moment.le_refl _
    · rcases Moment.le_total now (.sharp t) with hle | hle
      · exact hle
      · exact absurd (Moment.sharp_le_iff.mp hle) hlt

theorem of_eq_ended_of_pending (hw : d.Waits) (hf : ∀ f ∈ d.finish? now, e ≤ f)
    (hn : now.time ≤ e.time) (hp : ∀ t ∈ patience, e.time < t) :
    of (some e) patience now d = ended (max now.settle e) := by
  have hd : d ≠ .atOnce := by
    rintro rfl
    exact hw
  have le_of (k : Moment) (hs : now.settle ≤ k) (he : e ≤ k) : max now.settle e ≤ k := by
    rw [Moment.le_def, Moment.rank_max]
    exact Nat.max_le.mpr ⟨hs, he⟩
  rw [of_waiting hd]
  rcases ofWaiting_cases (some e) patience now d with
    ⟨t, ht, hle, -⟩ | ⟨e, ⟨⟩, ho⟩ | ⟨f, hf', hlt, -⟩ | ⟨t, ht, -, hlt, -⟩ | ⟨hnone, -⟩
  · exact absurd (Nat.lt_of_le_of_lt hn (hp t ht)) (Nat.not_lt.mpr hle)
  · exact ho
  · exact absurd (le_of f (Delay.settle_le_finish hw hf') (hf f hf')) (hlt e rfl)
  · have hs : now.settle.time < t := Nat.lt_of_le_of_lt hn (hp t ht)
    exact absurd (le_of _ (Moment.le_sharp hs) (Moment.le_sharp (hp t ht))) (hlt e rfl)
  · cases hnone

theorem of_eq_returns_of_patient (hd : d ≠ .atOnce) (hf : d.finish? now = some m)
    (hp : ∀ t ∈ patience, m.time < t) : of none patience now d = returns m := by
  have hn : now.time ≤ m.time := Moment.time_le_of_le (Delay.le_finish hf)
  rw [of_waiting hd]
  rcases ofWaiting_cases none patience now d with
    ⟨t, ht, hle, -⟩ | ⟨e, ⟨⟩, -⟩ | ⟨f, hf', -, ho⟩ | ⟨t, ht, -, -, hlt, -⟩ | ⟨-, hnone, -⟩
  · exact absurd (Nat.lt_of_le_of_lt hn (hp t ht)) (Nat.not_lt.mpr hle)
  · cases hf.symm.trans hf'
    exact ho
  · exact absurd (Moment.le_sharp (hp t ht)) (hlt m hf)
  · cases hf.symm.trans hnone

end Fate

end DnsOverStreams
