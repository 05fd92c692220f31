import DnsOverStreams.Proofs.Task.Path
import DnsOverStreams.Scope.Forest
import Mathlib.Order.Bounds.Defs
/-!
Work that races against the end of its scope. Waiting for the end of a scope is itself a race, of the
tokens against the deadline. It is over at the first moment at which the scope has failed and tells the
failure of that moment; work in the scope wins if it comes to its end before that.
-/

namespace DnsOverStreams

namespace Moment

variable {m n k : Moment}

theorem max_le_iff : max m n ≤ k ↔ m ≤ k ∧ n ≤ k := by
  simp only [le_def, rank_max, Nat.max_le]

theorem le_max_left (m n : Moment) : m ≤ max m n :=
  (max_le_iff.mp (le_refl _)).1

theorem le_max_right (m n : Moment) : n ≤ max m n :=
  (max_le_iff.mp (le_refl _)).2

theorem max_settle (h : ¬ m ≤ n) : max n.settle m = m := by
  refine Std.le_antisymm (max_le_iff.mpr ⟨?_, le_refl m⟩) (le_max_right _ _)
  have := Bool.toNat_le n.settled
  rw [le_def, rank_settle]
  rw [le_def, rank, rank] at h
  unfold rank Time at *
  omega

end Moment

namespace Scope

variable {s : Scope} {ts : Tokens} {now m T : Moment} {e : Failure}

/-- The moment at which one of the tokens is canceled first, as far as is known. -/
def canceledAt (s : Scope) (ts : Tokens) : Option Moment :=
  endsAt ⟨s.tokens, none⟩ ts

/-- What comes first of a cancellation and of a deadline, and the former if both come at once. -/
def first : Option Moment → Option Moment → Option (Moment × Failure)
  | none, none => none
  | some c, none => some (c, .canceled)
  | none, some d => some (d, .deadlineExceeded)
  | some c, some d => if c ≤ d then some (c, .canceled) else some (d, .deadlineExceeded)

/-- What waiting for the end of the scope from a moment on gives, and when. -/
def done (s : Scope) (ts : Tokens) (now : Moment) : Option (Moment × Failure) :=
  first ((s.canceledAt ts).map (max now)) (s.deadline.map fun d => max now (.sharp d))

def come (c d : Option Moment) (m : Moment) : Option Failure :=
  if c.any (· ≤ m) then some .canceled else if d.any (· ≤ m) then some .deadlineExceeded else none

theorem isCanceled_eq : s.isCanceled ts m = (s.canceledAt ts).any (· ≤ m) := by
  have h : (failure ⟨s.tokens, none⟩ ts m).isSome = true ↔ _ := failure_isSome_iff_endsAt
  change (if s.isCanceled ts m = true then _ else none).isSome = true ↔ _ at h
  rw [canceledAt, Bool.eq_iff_iff, Option.any_eq_true]
  cases hc : s.isCanceled ts m <;> simpa [hc] using h

theorem isExpired_eq : s.isExpired m = s.deadline.any (.sharp · ≤ m) := by
  cases h : s.deadline <;> simp [isExpired, h, Moment.sharp_le_iff]

theorem failure_from (h : now ≤ m) : s.failure ts m =
    come ((s.canceledAt ts).map (max now)) (s.deadline.map fun d => max now (.sharp d)) m := by
  simp only [failure, come, isCanceled_eq, isExpired_eq, Option.any_map, Moment.max_le_iff, h, true_and]

theorem come_isSome_iff {c d : Option Moment} :
    (come c d m).isSome = true ↔ (∃ k ∈ c, k ≤ m) ∨ ∃ k ∈ d, k ≤ m := by
  cases c <;> cases d <;> simp [come, apply_ite Option.isSome]

theorem come_first {c d : Option Moment} (h : first c d = some (T, e)) :
    (T ∈ c ∨ T ∈ d) ∧ come c d T = some e ∧ ∀ m, (come c d m).isSome = true → T ≤ m := by
  simp only [come_isSome_iff]
  cases c with
  | none =>
      cases d with
      | none => cases h
      | some d => cases h; simp [come]
  | some c =>
      cases d with
      | none => cases h; simp [come]
      | some d =>
          rw [first] at h
          split at h <;> rename_i hle
          · cases h
            refine ⟨.inl rfl, by simp [come], ?_⟩
            rintro m (⟨k, ⟨⟩, hk⟩ | ⟨k, ⟨⟩, hk⟩)
            · exact hk
            · exact Moment.le_trans hle hk
          · cases h
            refine ⟨.inr rfl, by simp [come, hle], ?_⟩
            rintro m (⟨k, ⟨⟩, hk⟩ | ⟨k, ⟨⟩, hk⟩)
            · exact Moment.le_trans ((Moment.le_total _ _).resolve_left hle) hk
            · exact hk

theorem done_isLeast (h : s.done ts now = some (T, e)) :
    IsLeast {m | now ≤ m ∧ (s.failure ts m).isSome = true} T ∧ s.failure ts T = some e := by
  obtain ⟨hcome, hfailure, hleast⟩ := come_first h
  have hnow : now ≤ T := by
    simp only [Option.mem_def, Option.map_eq_some_iff] at hcome
    rcases hcome with ⟨c, -, rfl⟩ | ⟨d, -, rfl⟩ <;> exact Moment.le_max_left _ _
  rw [← failure_from hnow] at hfailure
  refine ⟨⟨⟨hnow, hfailure ▸ rfl⟩, ?_⟩, hfailure⟩
  rintro m ⟨hm, hsome⟩
  exact hleast m (failure_from hm ▸ hsome)

theorem done_eq_none_iff : s.done ts now = none ↔ ∀ m, now ≤ m → s.failure ts m = none := by
  refine ⟨fun h m hm => ?_, fun h => ?_⟩
  · rw [failure_from hm]
    unfold done first at h
    split at h
    · rename_i hc hd
      rw [hc, hd]
      rfl
    · cases h
    · cases h
    · split at h <;> cases h
  · cases hdone : s.done ts now with
    | none => rfl
    | some found =>
        obtain ⟨hleast, hfailure⟩ := done_isLeast hdone
        cases hfailure.symm.trans (h _ hleast.1.1)

theorem done_eq_some_iff : s.done ts now = some (T, e) ↔
    IsLeast {m | now ≤ m ∧ (s.failure ts m).isSome = true} T ∧ s.failure ts T = some e := by
  refine ⟨done_isLeast, fun ⟨hleast, hfailure⟩ => ?_⟩
  cases hdone : s.done ts now with
  | none => cases hfailure.symm.trans (done_eq_none_iff.mp hdone T hleast.1.1)
  | some found =>
      obtain ⟨hleast', hfailure'⟩ := done_isLeast hdone
      obtain rfl := Std.le_antisymm (hleast.2 hleast'.1) (hleast'.2 hleast.1)
      rw [← Option.some.inj (hfailure'.symm.trans hfailure)]

theorem done_moment (s : Scope) (ts : Tokens) (now : Moment) :
    (s.done ts now).map (·.1) = (s.endsAt ts).map (max now) := by
  cases hends : s.endsAt ts with
  | none =>
      rw [done_eq_none_iff.mpr fun m _ => ?_]
      · rfl
      · rw [← Option.not_isSome_iff_eq_none, failure_isSome_iff_endsAt, hends]
        rintro ⟨k, ⟨⟩, -⟩
  | some k =>
      obtain ⟨e, he⟩ : ∃ e, s.failure ts (max now k) = some e :=
        Option.isSome_iff_exists.mp (failure_isSome_iff_endsAt.mpr ⟨k, hends, Moment.le_max_right _ _⟩)
      have hdone : s.done ts now = some (max now k, e) := by
        refine done_eq_some_iff.mpr ⟨⟨⟨Moment.le_max_left _ _, he ▸ rfl⟩, ?_⟩, he⟩
        rintro m ⟨hm, hsome⟩
        obtain ⟨k', hk, hle⟩ := failure_isSome_iff_endsAt.mp hsome
        cases hends.symm.trans hk
        exact Moment.max_le_iff.mpr ⟨hm, hle⟩
      rw [hdone]
      rfl

theorem not_le_of_live {k : Moment} (h : s.failure ts now = none) (hk : k ∈ s.endsAt ts) : ¬ k ≤ now :=
  lt_of_failure_eq_none h (endsAt_eq_some_iff.mp hk).1

theorem endsAt_of_live (h : s.failure ts now = none) : s.endsAt ts = (s.done ts now).map (·.1) := by
  rw [done_moment]
  cases hends : s.endsAt ts with
  | none => rfl
  | some k =>
      have hlt := (Moment.le_total now k).resolve_right (not_le_of_live h hends)
      exact congrArg some (Std.le_antisymm (Moment.le_max_right _ _)
        (Moment.max_le_iff.mpr ⟨hlt, Moment.le_refl k⟩))

end Scope

namespace Fate

variable {scopeEnd : Option Moment} {now m : Moment} {d : Delay}

theorem ofWaiting_patient (scopeEnd : Option Moment) (now : Moment) (d : Delay) :
    ofWaiting scopeEnd none now d = sooner (scopeEnd.elim hangs fun k => ended (max now.settle k))
      ((d.finish? now).elim hangs returns) := by
  rw [ofWaiting, if_neg (by simp), Option.elim_none, sooner_hangs]

theorem of_patient (scopeEnd : Option Moment) (now : Moment) (d : Delay) :
    (∃ f, of none none now d = returns f ∧ (f = now ∨ ∀ k ∈ scopeEnd, ¬ max now.settle k ≤ f) ∧
      of scopeEnd none now d = returns f) ∨
    (∃ k ∈ scopeEnd, (∀ f, of none none now d = returns f → max now.settle k ≤ f) ∧
      of scopeEnd none now d = ended (max now.settle k)) ∨
    (scopeEnd = none ∧ of none none now d = hangs ∧ of scopeEnd none now d = hangs) := by
  by_cases hd : d = .atOnce
  · subst hd
    exact .inl ⟨now, rfl, .inl rfl, rfl⟩
  · rw [of_waiting hd, of_waiting hd, ofWaiting_patient, ofWaiting_patient]
    cases hf : d.finish? now with
    | none =>
        cases scopeEnd with
        | none => exact .inr (.inr ⟨rfl, rfl, rfl⟩)
        | some k => exact .inr (.inl ⟨k, rfl, nofun, rfl⟩)
    | some f =>
        cases scopeEnd with
        | none => exact .inl ⟨f, rfl, .inr nofun, rfl⟩
        | some k =>
            by_cases hle : max now.settle k ≤ f
            · refine .inr (.inl ⟨k, rfl, ?_, sooner_of_le rfl rfl hle⟩)
              rintro f ⟨⟩
              exact hle
            · refine .inl ⟨f, rfl, .inr ?_, sooner_of_not_le rfl rfl hle⟩
              rintro k ⟨⟩
              exact hle

end Fate

namespace Task

variable {σ R : Type} {A : R → Type} {α : Type} {around : Surroundings σ R A} {s : Scope}
variable {w : World σ}

/-- When nothing gives the task up, only the last of its calls cancels tokens. -/
def CancelsLast (around : Surroundings σ R A) : Task R A α → World σ → Prop
  | done _, _ => True
  | call r next, w =>
      let c := around w.now w.state r
      (c.cancels = [] ∨ ∃ a, next c.answer = done a) ∧
        ∀ m, fate around .unbounded none w r = .returns m →
          (next c.answer).CancelsLast around (w.after c m)

theorem cancelsLast_ask (around : Surroundings σ R A) (r : R) (w : World σ) :
    (ask r).CancelsLast around w :=
  ⟨.inr ⟨_, rfl⟩, fun _ _ => trivial⟩

theorem now_le_perform (around : Surroundings σ R A) (s : Scope) (patience : Option Time)
    (t : Task R A α) (w : World σ) : w.now ≤ (perform around s patience t w).world.now := by
  induction t generalizing w with
  | done a => exact Moment.le_refl _
  | call r next ih =>
      cases hf : fate around s patience w r with
      | returns m =>
          rw [perform_of_returns hf]
          exact Moment.le_trans (Fate.of_eq_returns hf).1 (ih _ (w.after _ m))
      | ended m =>
          rw [perform_of_ended hf]
          obtain ⟨k, -, rfl⟩ := Fate.of_eq_ended hf
          exact Moment.le_max_settle
      | dropped n =>
          rw [perform_of_dropped hf]
          exact Fate.of_eq_dropped hf
      | hangs =>
          rw [perform_of_hangs hf]
          exact Moment.le_refl _

theorem le_now_of_finished {patience : Option Time} {r : R} {next : A r → Task R A α} {T : Moment}
    {a : α} (first : ∀ m, fate around s patience w r = .returns m → T ≤ m)
    (h : (perform around s patience (call r next) w).ending = .finished a) :
    T ≤ (perform around s patience (call r next) w).world.now := by
  cases hf : fate around s patience w r with
  | returns m =>
      rw [perform_of_returns hf]
      exact Moment.le_trans (first m hf) (now_le_perform _ _ _ _ (w.after _ m))
  | ended m => rw [perform_of_ended hf] at h; cases h
  | dropped n => rw [perform_of_dropped hf] at h; cases h
  | hangs => rw [perform_of_hangs hf] at h; cases h

theorem fate_race (live : s.failure w.tokens w.now = none) (r : R) :
    (∃ m, fate around .unbounded none w r = .returns m ∧ (∀ T ∈ s.endsAt w.tokens, ¬ T ≤ m) ∧
      fate around s none w r = .returns m) ∨
    (∃ T ∈ s.endsAt w.tokens, (∀ m, fate around .unbounded none w r = .returns m → T ≤ m) ∧
      fate around s none w r = .ended T) ∨
    (s.endsAt w.tokens = none ∧ fate around .unbounded none w r = .hangs ∧
      fate around s none w r = .hangs) := by
  have hmax (T : Moment) (hT : T ∈ s.endsAt w.tokens) : max w.now.settle T = T :=
    Moment.max_settle (Scope.not_le_of_live live hT)
  unfold fate
  rw [Scope.endsAt_unbounded]
  rcases Fate.of_patient (s.endsAt w.tokens) w.now (around w.now w.state r).delay with
    ⟨m, hfree, hm, hrun⟩ | ⟨T, hT, hle, hrun⟩ | hhangs
  · refine .inl ⟨m, hfree, fun T hT => ?_, hrun⟩
    rcases hm with rfl | hm
    · exact Scope.not_le_of_live live hT
    · exact hmax T hT ▸ hm T hT
  · rw [hmax T hT] at hle hrun
    exact .inr (.inl ⟨T, hT, hle, hrun⟩)
  · exact .inr (.inr hhangs)

/-- How a run in a scope that is to end at some moment goes, compared with the one that has no scope. -/
inductive Race (scopeEnd : Option Moment) (tokens : Tokens) (alone run : Run σ R A α) : Prop where
  | lost {T : Moment} (ends : scopeEnd = some T)
      (first : ∀ a, alone.ending = .finished a → T ≤ alone.world.now) (ended : run.ending = .ended)
      (now : run.world.now = T) (kept : run.world.tokens = tokens)
  | won {a : α} (finished : alone.ending = .finished a)
      (before : ∀ T, scopeEnd = some T → ¬ T ≤ alone.world.now) (same : run = alone)
  | endless (ends : scopeEnd = none) (hung : alone.ending = .hung) (waits : run.ending = .hung)

theorem Race.cons {scopeEnd : Option Moment} {tokens : Tokens} {alone run : Run σ R A α}
    (h : Race scopeEnd tokens alone run) (e : Event R A) :
    Race scopeEnd tokens { alone with events := e :: alone.events }
      { run with events := e :: run.events } := by
  cases h with
  | lost ends first ended now kept => exact .lost ends first ended now kept
  | won finished before same => exact .won finished before (by rw [same])
  | endless ends hung waits => exact .endless ends hung waits

theorem perform_race {t : Task R A α} (live : s.failure w.tokens w.now = none)
    (last : t.CancelsLast around w) :
    Race (s.endsAt w.tokens) w.tokens (perform around .unbounded none t w)
      (perform around s none t w) := by
  induction t generalizing w with
  | done a => exact .won rfl (fun T hT => Scope.not_le_of_live live hT) rfl
  | call r next ih =>
      rcases fate_race live r with
        ⟨m, hfree, later, hrun⟩ | ⟨T, hT, hle, hrun⟩ | ⟨hends, hfree, hrun⟩
      · rw [perform_of_returns hfree, perform_of_returns hrun]
        refine Race.cons ?_ _
        rcases last.1 with hnil | ⟨a, ha⟩
        · have htokens : (w.after (around w.now w.state r) m).tokens = w.tokens := by
            rw [World.after, hnil]
            rfl
          have live' : s.failure (w.after (around w.now w.state r) m).tokens m = none := by
            rw [htokens, ← Option.not_isSome_iff_eq_none, Scope.failure_isSome_iff_endsAt]
            rintro ⟨T, hT, hle⟩
            exact later T hT hle
          have hrace := ih _ live' (last.2 m hfree)
          rwa [htokens] at hrace
        · -- what the last call cancels is not waited for any more
          rw [ha]
          exact .won rfl later rfl
      · rw [perform_of_ended hrun]
        exact .lost hT (fun a ha => le_now_of_finished hle ha) rfl rfl rfl
      · rw [perform_of_hangs hfree, perform_of_hangs hrun]
        exact .endless hends rfl rfl

end Task

namespace Forest

theorem waitForEnd_of_done {s : Scope} {f : Forest} {T : Moment} {e : Failure}
    (h : s.done f.tokens f.moment = some (T, e)) :
    (f.waitForEnd s none).ending = .ended ∧ (f.waitForEnd s none).world.now = T := by
  obtain ⟨k, hk, rfl⟩ := Option.map_eq_some_iff.mp ((s.done_moment f.tokens f.moment).symm.trans
    (congrArg (Option.map (·.1)) h))
  have hf : Task.fate f.surroundings s none f.world ⟨.never, [], .ok ()⟩ =
      .ended (max f.moment.settle k) := by
    unfold Task.fate
    rw [show s.endsAt f.world.tokens = some k from hk]
    rfl
  unfold waitForEnd Task.ask
  rw [Task.perform_of_ended hf]
  exact ⟨rfl, rfl⟩

theorem waitForEnd_of_endless {s : Scope} {f : Forest} (h : s.done f.tokens f.moment = none) :
    (f.waitForEnd s none).ending = .hung := by
  have hk := Option.map_eq_none_iff.mp ((s.done_moment f.tokens f.moment).symm.trans
    (congrArg (Option.map (·.1)) h))
  have hf : Task.fate f.surroundings s none f.world ⟨.never, [], .ok ()⟩ = .hangs := by
    unfold Task.fate
    rw [show s.endsAt f.world.tokens = none from hk]
    rfl
  unfold waitForEnd Task.ask
  rw [Task.perform_of_hangs hf]

end Forest

namespace Task

variable {σ R : Type} {A : R → Type} {α : Type} {around : Surroundings σ R A} {w : World σ}

/-- Waiting for the end of a scope is over at the first moment at which the scope has failed, and tells
its failure. A task is not begun in a scope that has ended. Otherwise it fails as the scope does when the
scope ends, unless it has come to its end before that. Then its result stands, but a failure is replaced
by that of the scope, if the scope has failed by then. -/
theorem runIn_races {t : Task R A (Except Failure α)} (s : Scope) (last : t.CancelsLast around w) :
    let alone := perform around .unbounded none t w
    let run := runIn around s none t w
    (∀ now T e, s.done w.tokens now = some (T, e) ↔
      IsLeast {m | now ≤ m ∧ (s.failure w.tokens m).isSome = true} T ∧
        s.failure w.tokens T = some e) ∧
    (∀ now, s.done w.tokens now = none ↔ ∀ m, now ≤ m → s.failure w.tokens m = none) ∧
    (∀ f : Forest,
      (∀ T e, s.done f.tokens f.moment = some (T, e) →
        (f.waitForEnd s none).ending = .ended ∧ (f.waitForEnd s none).world.now = T) ∧
      (s.done f.tokens f.moment = none → (f.waitForEnd s none).ending = .hung)) ∧
    (∀ e, s.failure w.tokens w.now = some e → run = ⟨.finished (.error e), w, []⟩) ∧
    (s.failure w.tokens w.now = none →
      (∀ T e, s.done w.tokens w.now = some (T, e) →
        (∀ result, alone.ending = .finished result → T ≤ alone.world.now) →
          run.ending = .finished (.error e) ∧ run.world.now = T) ∧
      (∀ result, alone.ending = .finished result →
        (∀ T e, s.done w.tokens w.now = some (T, e) → ¬ T ≤ alone.world.now) →
          run.world = alone.world ∧ run.events = alone.events ∧
          (∀ a, result = .ok a → run.ending = .finished (.ok a)) ∧
          ∀ e, result = .error e → run.ending =
            .finished (.error ((s.failure alone.world.tokens alone.world.now).getD e))) ∧
      (s.done w.tokens w.now = none → (∀ result, alone.ending ≠ .finished result) →
        run.ending = .hung)) := by
  intro alone run
  refine ⟨fun now T e => Scope.done_eq_some_iff, fun now => Scope.done_eq_none_iff,
    fun f => ⟨fun T e => Forest.waitForEnd_of_done, Forest.waitForEnd_of_endless⟩,
    fun e => runIn_of_failure, fun live => ?_⟩
  have hrun : run = _ := runIn_of_live around none t live
  have hends : s.endsAt w.tokens = _ := Scope.endsAt_of_live live
  rw [hrun]
  dsimp only
  cases perform_race live last with
  | lost hT hfirst hended hnow htokens =>
      obtain ⟨⟨T, e⟩, hdone, rfl⟩ := Option.map_eq_some_iff.mp (hends.symm.trans hT)
      refine ⟨fun U f hU _ => ?_, fun result ha hlate => ?_, fun hnone => ?_⟩
      · cases hdone.symm.trans hU
        rw [hended, Scope.ending, hnow, htokens, (Scope.done_isLeast hdone).2]
        exact ⟨rfl, rfl⟩
      · exact absurd (hfirst result ha) (hlate T e hdone)
      · cases hdone.symm.trans hnone
  | @won result ha hbefore hsame =>
      refine ⟨fun T e hdone hfirst => ?_, fun other hother _ => ?_, fun _ hnot => ?_⟩
      · exact absurd (hfirst result ha) (hbefore T (by rw [hends, hdone]; rfl))
      · cases ha.symm.trans hother
        rw [hsame, ha]
        refine ⟨rfl, rfl, ?_, ?_⟩
        · rintro a rfl
          rfl
        · rintro e rfl
          rfl
      · exact absurd ha (hnot result)
  | endless hnone hhung hended =>
      refine ⟨fun T e hdone => ?_, fun result ha => ?_, fun _ _ => ?_⟩
      · rw [hends, hdone] at hnone
        cases hnone
      · cases hhung.symm.trans ha
      · rw [hended]
        rfl

theorem runIn_races_timeout :
    let f := Forest.empty.steps [.root, .withTimeout 0 50]
    let run (work : Work) := f.runWork ⟨[1, 0], some 50⟩ none work
    (run ⟨.after 30, [0], .error .timeout⟩).ending = .finished (.error .canceled) ∧
      (run ⟨.after 30, [0], .ok ()⟩).ending = .finished (.ok ()) ∧
      (run ⟨.after 50, [], .ok ()⟩).ending = .finished (.error .deadlineExceeded) ∧
      (run ⟨.after 50, [], .ok ()⟩).world.now = .sharp 50 := by
  intro f run
  have race (work : Work) := (runIn_races ⟨[1, 0], some 50⟩
    (cancelsLast_ask f.surroundings work f.world)).2.2.2.2 rfl
  have early {now : Moment} (h : now.time < 50) : ∀ T e,
      Scope.done ⟨[1, 0], some 50⟩ f.tokens f.moment = some (T, e) → ¬ T ≤ now := by
    rintro T e ⟨⟩
    exact fun hle => absurd (Moment.sharp_le_iff.mp hle) (Nat.not_le.mpr h)
  obtain ⟨-, -, -, hfails⟩ := (race ⟨.after 30, [0], .error .timeout⟩).2.1 _ rfl (early (by decide))
  obtain ⟨-, -, hok, -⟩ := (race ⟨.after 30, [0], .ok ()⟩).2.1 _ rfl (early (by decide))
  obtain ⟨hlate, hnow⟩ := (race ⟨.after 50, [], .ok ()⟩).1 (.sharp 50) .deadlineExceeded rfl
    fun _ _ => by decide
  exact ⟨hfails _ rfl, hok _ rfl, hlate, hnow⟩

end Task

end DnsOverStreams
