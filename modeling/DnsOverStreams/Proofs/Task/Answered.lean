import DnsOverStreams.Proofs.Task.Run
/-!
Tasks all of whose calls are answered in the end. In a scope that never ends, for a caller with endless
patience, such a task is performed to its end, whenever the answers come.
-/

namespace DnsOverStreams

namespace Scope

variable {σ R : Type} {A : R → Type}

structure Endless (around : Surroundings σ R A) (s : Scope) (ts : Tokens) : Prop where
  deadline : s.deadline = none
  world : ∀ t ∈ s.tokens, ts.Spare t
  calls : ∀ t ∈ s.tokens, Surroundings.Spare around t

variable {around : Surroundings σ R A} {s : Scope} {ts : Tokens}

theorem Endless.ends (h : s.Endless around ts) : s.ends ts = [] := by
  refine List.eq_nil_iff_forall_not_mem.mpr fun e he => ?_
  rcases mem_ends_iff.mp he with ⟨t, ht, hc⟩ | ⟨d, hd, -⟩
  · exact h.world t ht _ hc rfl
  · rw [h.deadline] at hd
    cases hd

theorem Endless.endsAt (h : s.Endless around ts) : s.endsAt ts = none :=
  endsAt_eq_none_iff.mpr h.ends

theorem Endless.failure (h : s.Endless around ts) (m : Moment) : s.failure ts m = none := by
  rw [← Option.not_isSome_iff_eq_none, failure_isSome_iff_endsAt, h.endsAt]
  rintro ⟨e, ⟨⟩, -⟩

theorem Endless.cancelAll {us : List Token} (h : s.Endless around ts)
    (hu : ∀ t ∈ s.tokens, t ∉ us) (m : Moment) : s.Endless around (ts.cancelAll us m) where
  deadline := h.deadline
  world := fun t ht => (h.world t ht).cancelAll (hu t ht) m
  calls := h.calls

end Scope

namespace Fate

theorem of_answered {d : Delay} (h : d ≠ .never) (now : Moment) :
    ∃ m, of none none now d = returns m := by
  by_cases hd : d = .atOnce
  · subst hd
    exact ⟨now, rfl⟩
  · obtain ⟨ms, hms⟩ := Delay.duration_of_answered h
    obtain ⟨m, hm⟩ := Delay.finish_of_duration hms now
    exact ⟨m, of_eq_returns_of_patient hd hm (by rintro t ⟨⟩)⟩

theorem of_answered_or_ended {d : Delay} (h : d ≠ .never) (scopeEnd : Option Moment) (now : Moment) :
    (∃ m, of scopeEnd none now d = returns m) ∨ ∃ m, of scopeEnd none now d = ended m := by
  by_cases hd : d = .atOnce
  · subst hd
    exact .inl ⟨now, rfl⟩
  · rw [of_waiting hd]
    rcases ofWaiting_cases scopeEnd none now d with
      ⟨t, ⟨⟩, -⟩ | ⟨e, -, ho⟩ | ⟨f, -, -, ho⟩ | ⟨t, ⟨⟩, -⟩ | ⟨-, hnone, -⟩
    · exact .inr ⟨_, ho⟩
    · exact .inl ⟨_, ho⟩
    · obtain ⟨ms, hms⟩ := Delay.duration_of_answered h
      obtain ⟨m, hm⟩ := Delay.finish_of_duration hms now
      cases hnone.symm.trans hm

end Fate

/-- The call is answered in the end, so that this holds of its answer and the state after it. -/
def Call.Gives {σ α : Type} (c : Call σ α) (Q : α → σ → Prop) : Prop :=
  c.delay ≠ .never ∧ Q c.answer c.state

namespace Task

variable {σ R : Type} {A : R → Type} {α β : Type}

/-- Every call is answered, whenever it is made, and then the task gives a result of a kind. -/
def Yields (around : Surroundings σ R A) (Q : α → σ → Prop) : Task R A α → σ → Prop
  | done a, st => Q a st
  | call r next, st => ∀ now, (around now st r).delay ≠ .never ∧
      (next (around now st r).answer).Yields around Q (around now st r).state

variable {around : Surroundings σ R A} {s : Scope} {w : World σ}

theorem Yields.mono {t : Task R A α} {Q P : α → σ → Prop} {st : σ} (h : t.Yields around Q st)
    (hq : ∀ a st, Q a st → P a st) : t.Yields around P st := by
  induction t generalizing st with
  | done a => exact hq a st h
  | call r next ih => exact fun now => ⟨(h now).1, ih _ (h now).2⟩

theorem Yields.bind {t : Task R A α} {f : α → Task R A β} {Q : β → σ → Prop} {st : σ}
    (h : t.Yields around (fun a st => (f a).Yields around Q st) st) :
    (t.bind f).Yields around Q st := by
  induction t generalizing st with
  | done a => exact h
  | call r next ih => exact fun now => ⟨(h now).1, ih _ (h now).2⟩

theorem perform_of_answered (h : ∀ now st r, (around now st r).delay ≠ .never) (t : Task R A α) :
    (∃ a, (perform around s none t w).ending = .finished a) ∨
      (perform around s none t w).ending = .ended := by
  induction t generalizing w with
  | done a => exact .inl ⟨a, rfl⟩
  | call r next ih =>
      have hfate : (∃ m, fate around s none w r = .returns m) ∨ ∃ m, fate around s none w r = .ended m :=
        Fate.of_answered_or_ended (h _ _ _) _ _
      rcases hfate with ⟨m, hm⟩ | ⟨m, hm⟩
      · rw [perform_of_returns hm]
        exact ih _
      · rw [perform_of_ended hm]
        exact .inr rfl

theorem runIn_of_answered (h : ∀ now st r, (around now st r).delay ≠ .never)
    (t : Task R A (Except Failure α)) :
    ∃ result, (runIn around s none t w).ending = .finished result := by
  cases hs : s.failure w.tokens w.now with
  | some f => exact ⟨.error f, by rw [runIn_of_failure hs]⟩
  | none =>
      rw [runIn_of_live around none t hs]
      dsimp only
      rcases perform_of_answered (s := s) (w := w) h t with ⟨a, ha⟩ | ha
      · rw [ha]
        exact ⟨_, rfl⟩
      · rw [ha]
        exact ⟨_, rfl⟩

theorem perform_of_yields {t : Task R A α} {Q : α → σ → Prop} (hs : s.Endless around w.tokens)
    (h : t.Yields around Q w.state) :
    ∃ a, (perform around s none t w).ending = .finished a ∧
      Q a (perform around s none t w).world.state := by
  induction t generalizing w with
  | done a => exact ⟨a, rfl, h⟩
  | call r next ih =>
      obtain ⟨hd, hnext⟩ := h w.now
      obtain ⟨m, hm⟩ := Fate.of_answered hd w.now
      have hf : fate around s none w r = .returns m := by
        unfold fate
        rw [hs.endsAt]
        exact hm
      rw [perform_of_returns hf]
      exact ih _ (hs.cancelAll (fun t ht => hs.calls t ht _ _ _) m) hnext

end Task

end DnsOverStreams
