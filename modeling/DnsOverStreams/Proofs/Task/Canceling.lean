import DnsOverStreams.Proofs.Task.Path
/-!
What runs do to tokens, and tokens to runs. A run cancels what its calls cancel and nothing else; a token
that nobody cancels makes no difference to it; and it fails as canceled or as too late only if its scope
has failed so or if the task itself does.
-/

namespace DnsOverStreams

namespace Task

variable {σ R : Type} {A : R → Type} {α : Type}

/-- What the calls of a task cancel when it is performed, the latest first. -/
def told (around : Surroundings σ R A) (s : Scope) (patience : Option Time) :
    Task R A α → World σ → List (Token × Moment)
  | done _, _ => []
  | call r next, w =>
      let c := around w.now w.state r
      match fate around s patience w r with
      | .returns m =>
          told around s patience (next c.answer) (w.after c m) ++
            (c.cancels.map fun t => (t, m)).reverse
      | _ => []

def toldIn (around : Surroundings σ R A) (s : Scope) (patience : Option Time) (t : Task R A α)
    (w : World σ) : List (Token × Moment) :=
  match s.failure w.tokens w.now with
  | some _ => []
  | none => t.told around s patience w

variable {around : Surroundings σ R A} {s : Scope} {patience : Option Time} {w : World σ}

theorem canceled_perform (t : Task R A α) :
    (perform around s patience t w).world.tokens.canceled =
      t.told around s patience w ++ w.tokens.canceled := by
  induction t generalizing w with
  | done a => rfl
  | call r next ih =>
      cases hf : fate around s patience w r with
      | returns m =>
          rw [perform_of_returns hf]
          change (perform _ _ _ _ _).world.tokens.canceled = _
          rw [ih]
          simp only [told, hf, World.after, Tokens.canceled_cancelAll, List.append_assoc]
      | ended m => simp only [perform_of_ended hf, told, hf, List.nil_append]
      | dropped n => simp only [perform_of_dropped hf, told, hf, List.nil_append]
      | hangs => simp only [perform_of_hangs hf, told, hf, List.nil_append]

theorem canceled_runIn (t : Task R A (Except Failure α)) :
    (runIn around s patience t w).world.tokens.canceled =
      t.toldIn around s patience w ++ w.tokens.canceled := by
  unfold toldIn
  cases hs : s.failure w.tokens w.now with
  | some f => rw [runIn_of_failure hs]; rfl
  | none => rw [runIn_of_live around patience t hs]; exact canceled_perform t

section

variable {ts : Tokens}

theorem ending_withCancel (hw : w.tokens.Spare ts.fresh) (x : Ending (Except Failure α)) :
    (s.withCancel ts).ending w x = s.ending w x := by
  have hfailure := Scope.failure_withCancel (s := s) (m := w.now) hw
  cases x with
  | finished result => cases result <;> simp only [Scope.ending, Scope.outcome, hfailure]
  | ended => simp only [Scope.ending, hfailure]
  | dropped => rfl
  | hung => rfl

theorem perform_withCancel (ha : Surroundings.Spare around ts.fresh)
    (hw : w.tokens.Spare ts.fresh) (t : Task R A α) :
    perform around (s.withCancel ts) patience t w = perform around s patience t w := by
  induction t generalizing w with
  | done a => rfl
  | call r next ih =>
      have hfate : fate around (s.withCancel ts) patience w r = fate around s patience w r := by
        unfold fate
        rw [Scope.endsAt_withCancel hw]
      cases hf : fate around s patience w r with
      | returns m =>
          have hlater := ih (around w.now w.state r).answer
            (w := w.after (around w.now w.state r) m) (hw.cancelAll (ha _ _ _) m)
          rw [perform_of_returns hf, perform_of_returns (hfate.trans hf)]
          simp only [hlater]
      | ended m => rw [perform_of_ended hf, perform_of_ended (hfate.trans hf)]
      | dropped n => rw [perform_of_dropped hf, perform_of_dropped (hfate.trans hf)]
      | hangs => rw [perform_of_hangs hf, perform_of_hangs (hfate.trans hf)]

theorem runIn_withCancel (ha : Surroundings.Spare around ts.fresh)
    (hw : w.tokens.Spare ts.fresh) (t : Task R A (Except Failure α)) :
    runIn around (s.withCancel ts) patience t w = runIn around s patience t w := by
  have hfailure := Scope.failure_withCancel (s := s) (m := w.now) hw
  cases hs : s.failure w.tokens w.now with
  | some f => rw [runIn_of_failure hs, runIn_of_failure (hfailure.trans hs)]
  | none =>
      have hafter : (perform around s patience t w).world.tokens.Spare ts.fresh :=
        spare_perform ha hw
      rw [runIn_of_live around patience t hs, runIn_of_live around patience t (hfailure.trans hs),
        perform_withCancel ha hw]
      simp only [ending_withCancel hafter]

end

theorem Goes.answer {t : Task R A α} {st fin : σ} {es : List (Event R A)} {a : α}
    (h : Goes (Answers around) t st es a fin) :
    ∀ e ∈ es, ∃ now st, e.answer = some (around now st e.request).answer := by
  induction h with
  | done a st => nofun
  | call now later ih =>
      obtain ⟨m, -, rfl, -⟩ := now
      exact List.forall_mem_cons.mpr ⟨⟨m, _, rfl⟩, ih⟩

theorem finished_cases {t : Task R A (Except Failure α)} {result : Except Failure α}
    (h : (runIn around s patience t w).ending = .finished result) :
    (∃ f, result = .error f ∧ s.failure (runIn around s patience t w).world.tokens
        (runIn around s patience t w).world.now = some f) ∨
      Goes (Answers around) t w.state (runIn around s patience t w).events result
        (runIn around s patience t w).world.state := by
  cases hs : s.failure w.tokens w.now with
  | some f =>
      rw [runIn_of_failure hs] at h ⊢
      cases h
      exact .inl ⟨f, rfl, hs⟩
  | none =>
      rw [runIn_of_live around patience t hs] at h ⊢
      have hended : (perform around s patience t w).ending = .ended → _ := failure_of_ended
      have hgoes (a : Except Failure α) : (perform around s patience t w).ending = .finished a →
          Goes (Answers around) t w.state _ a _ := goes_of_finished
      generalize perform around s patience t w = run at h hended hgoes ⊢
      obtain ⟨ending, world, events⟩ := run
      dsimp only at h hended hgoes ⊢
      cases ending with
      | finished ended =>
          cases ended with
          | ok a =>
              cases h
              exact .inr (hgoes _ rfl)
          | error g =>
              cases hf : s.failure world.tokens world.now with
              | none =>
                  simp only [Scope.ending, Scope.outcome, hf, Option.getD_none] at h
                  cases h
                  exact .inr (hgoes _ rfl)
              | some f =>
                  simp only [Scope.ending, Scope.outcome, hf, Option.getD_some] at h
                  cases h
                  exact .inl ⟨f, rfl, rfl⟩
      | ended =>
          obtain ⟨f, hf⟩ := Option.isSome_iff_exists.mp (hended rfl)
          simp only [Scope.ending, hf, Option.getD_some] at h
          cases h
          exact .inl ⟨f, rfl, hf⟩
      | dropped => cases h
      | hung => cases h

theorem failure_of_runIn {t : Task R A (Except Failure α)} {e : Failure}
    (h : (runIn around s patience t w).ending = .finished (.error e)) :
    s.failure (runIn around s patience t w).world.tokens
        (runIn around s patience t w).world.now = some e ∨
      ∃ st es fin, Goes (Answers around) t st es (.error e) fin := by
  rcases finished_cases h with ⟨f, hf, hfailure⟩ | hgoes
  · cases hf
    exact .inl hfailure
  · exact .inr ⟨_, _, _, hgoes⟩

end Task

end DnsOverStreams
