import DnsOverStreams.Proofs.Scope.Ending
import DnsOverStreams.Proofs.Task.Fate

namespace DnsOverStreams

def World.after {σ α : Type} (w : World σ) (c : Call σ α) (m : Moment) : World σ :=
  ⟨m, w.tokens.cancelAll c.cancels m, c.state⟩

def Surroundings.Spare {σ R : Type} {A : R → Type} (around : Surroundings σ R A) (t : Token) : Prop :=
  ∀ now st r, t ∉ (around now st r).cancels

namespace Task

variable {σ R : Type} {A : R → Type} {α β : Type}

def Only (P : R → Prop) : Task R A α → Prop
  | done _ => True
  | call r next => P r ∧ ∀ a, (next a).Only P

theorem Only.bind {P : R → Prop} {t : Task R A α} {f : α → Task R A β} (ht : t.Only P)
    (hf : ∀ a, (f a).Only P) : (t.bind f).Only P := by
  induction t with
  | done a => exact hf a
  | call r next ih => exact ⟨ht.1, fun a => ih a (ht.2 a)⟩

section

variable {around : Surroundings σ R A} {s : Scope} {patience : Option Time}
variable {r : R} {next : A r → Task R A α} {w : World σ} {m : Moment}

def fate (around : Surroundings σ R A) (s : Scope) (patience : Option Time) (w : World σ) (r : R) :
    Fate :=
  Fate.of (s.endsAt w.tokens) patience w.now (around w.now w.state r).delay

theorem perform_of_returns (h : fate around s patience w r = .returns m) :
    perform around s patience (call r next) w =
      let c := around w.now w.state r
      let run := perform around s patience (next c.answer) (w.after c m)
      { run with events := ⟨r, some c.answer⟩ :: run.events } := by
  unfold fate at h
  rw [perform, performAfter]
  simp only [h]
  rw [performAfter_eq]
  rfl

theorem perform_of_ended (h : fate around s patience w r = .ended m) :
    perform around s patience (call r next) w =
      ⟨.ended, ⟨m, w.tokens, (around w.now w.state r).abandoned (some m)⟩, [⟨r, none⟩]⟩ := by
  unfold fate at h
  rw [perform, performAfter]
  simp only [h, List.reverse_singleton]

theorem perform_of_dropped {n : Option Moment} (h : fate around s patience w r = .dropped n) :
    perform around s patience (call r next) w =
      ⟨.dropped, ⟨n.getD w.now, w.tokens, (around w.now w.state r).abandoned n⟩, [⟨r, none⟩]⟩ := by
  unfold fate at h
  rw [perform, performAfter]
  simp only [h, List.reverse_singleton]

theorem perform_of_hangs (h : fate around s patience w r = .hangs) :
    perform around s patience (call r next) w = ⟨.hung, w, [⟨r, none⟩]⟩ := by
  unfold fate at h
  rw [perform, performAfter]
  simp only [h, List.reverse_singleton]

end

/-- How far a task comes: what is left of it, and in which world, after some calls have returned. -/
inductive Reaches (around : Surroundings σ R A) (s : Scope) (patience : Option Time) :
    Task R A α → World σ → Task R A α → World σ → Prop
  | here (t : Task R A α) (w : World σ) : Reaches around s patience t w t w
  | call {r : R} {next : A r → Task R A α} {w : World σ} {m : Moment} {t : Task R A α} {v : World σ}
      (returns : fate around s patience w r = .returns m)
      (later : Reaches around s patience (next (around w.now w.state r).answer)
        (w.after (around w.now w.state r) m) t v) :
      Reaches around s patience (.call r next) w t v

variable {around : Surroundings σ R A} {s : Scope} {patience : Option Time}
variable {t u : Task R A α} {w v : World σ}

theorem Reaches.perform (h : Reaches around s patience t w u v) :
    (perform around s patience t w).ending = (perform around s patience u v).ending ∧
      (perform around s patience t w).world = (perform around s patience u v).world ∧
      ∃ es, (perform around s patience t w).events = es ++ (perform around s patience u v).events := by
  induction h with
  | here t w => exact ⟨rfl, rfl, [], rfl⟩
  | call returns _ ih =>
      obtain ⟨hending, hworld, es, hevents⟩ := ih
      rw [perform_of_returns returns]
      exact ⟨hending, hworld, _ :: es, congrArg (List.cons _) hevents⟩

def Timely (s : Scope) (w : World σ) : Prop :=
  ∀ e ∈ s.ends w.tokens, w.now.time ≤ e.time

theorem timely_of_failure (h : s.failure w.tokens w.now = none) : Timely s w := by
  intro e he
  rcases Moment.le_total w.now e with hle | hle
  · exact Moment.time_le_of_le hle
  · exact absurd hle (Scope.lt_of_failure_eq_none h he)

theorem Timely.after {r : R} {m : Moment} (h : Timely s w)
    (hf : fate around s patience w r = .returns m) :
    Timely s (w.after (around w.now w.state r) m) := by
  intro e he
  change m.time ≤ e.time
  rcases Scope.mem_ends_cancelAll he with hold | rfl
  · rcases (Fate.of_eq_returns hf).2 with rfl | hlt
    · exact h e hold
    · cases hs : s.endsAt w.tokens with
      | none => simp [Scope.endsAt_eq_none_iff.mp hs] at hold
      | some e' =>
          obtain ⟨he', hmin⟩ := Scope.endsAt_eq_some_iff.mp hs
          have hm := hlt e' hs
          have htime := h e' he'
          have hle := Moment.time_le_of_le (hmin e hold)
          have hb := Bool.toNat_le e'.settled
          rw [Moment.le_def, Moment.rank_max, Moment.rank_settle] at hm
          rw [Moment.time_eq m]
          unfold Moment.rank Time at *
          omega
  · exact Nat.le_refl _

theorem Reaches.timely (h : Reaches around s patience t w u v) (hw : Timely s w) : Timely s v := by
  induction h with
  | here t w => exact hw
  | call returns _ ih => exact ih (hw.after returns)

theorem Reaches.spare {k : Token} (h : Reaches around s patience t w u v)
    (ha : Surroundings.Spare around k) (hw : w.tokens.Spare k) : v.tokens.Spare k := by
  induction h with
  | here t w => exact hw
  | call returns _ ih => exact ih (hw.cancelAll (ha _ _ _) _)

/-- The scope ends while the call is waited for, at a moment for which the caller has the patience. -/
structure CutShort (around : Surroundings σ R A) (s : Scope) (patience : Option Time) (w : World σ)
    (r : R) (e : Moment) : Prop where
  waits : (around w.now w.state r).delay.Waits
  ends : s.endsAt w.tokens = some e
  pending : ∀ f ∈ (around w.now w.state r).delay.finish? w.now, e ≤ f
  patient : ∀ p ∈ patience, e.time < p

theorem CutShort.perform {r : R} {e : Moment} (h : CutShort around s patience w r e)
    (hw : Timely s w) (next : A r → Task R A α) :
    (perform around s patience (call r next) w).ending = .ended ∧
      (perform around s patience (call r next) w).world.now.time = e.time ∧
      (perform around s patience (call r next) w).events = [⟨r, none⟩] := by
  have hn : w.now.time ≤ e.time := hw e (Scope.endsAt_eq_some_iff.mp h.ends).1
  have hf : fate around s patience w r = .ended (max w.now.settle e) := by
    unfold fate
    rw [h.ends]
    exact Fate.of_eq_ended_of_pending h.waits h.pending hn h.patient
  rw [perform_of_ended hf]
  refine ⟨rfl, ?_, rfl⟩
  have hb := Bool.toNat_le e.settled
  change (max w.now.settle e).time = e.time
  rw [Moment.time_eq, Moment.rank_max, Moment.rank_settle]
  unfold Moment.rank Time at *
  omega

theorem failure_of_ended (h : (perform around s patience t w).ending = .ended) :
    (s.failure (perform around s patience t w).world.tokens
      (perform around s patience t w).world.now).isSome = true := by
  induction t generalizing w with
  | done a => cases h
  | call r next ih =>
      cases hf : fate around s patience w r with
      | returns m =>
          rw [perform_of_returns hf] at h ⊢
          exact ih _ h
      | ended m =>
          rw [perform_of_ended hf]
          obtain ⟨e, he, rfl⟩ := Fate.of_eq_ended hf
          refine Scope.failure_isSome_iff_endsAt.mpr ⟨e, he, ?_⟩
          rw [Moment.le_def, Moment.rank_max]
          exact Nat.le_max_right _ _
      | dropped n => rw [perform_of_dropped hf] at h; cases h
      | hangs => rw [perform_of_hangs hf] at h; cases h

theorem made_perform : (perform around s patience t w).world.tokens.made = w.tokens.made := by
  induction t generalizing w with
  | done a => rfl
  | call r next ih =>
      cases hf : fate around s patience w r with
      | returns m =>
          rw [perform_of_returns hf]
          exact (ih _).trans (Tokens.made_cancelAll _ _ _)
      | ended m => rw [perform_of_ended hf]
      | dropped n => rw [perform_of_dropped hf]
      | hangs => rw [perform_of_hangs hf]

theorem spare_perform {k : Token} (ha : Surroundings.Spare around k) (hw : w.tokens.Spare k) :
    (perform around s patience t w).world.tokens.Spare k := by
  induction t generalizing w with
  | done a => exact hw
  | call r next ih =>
      cases hf : fate around s patience w r with
      | returns m =>
          rw [perform_of_returns hf]
          exact ih _ (hw.cancelAll (ha _ _ _) m)
      | ended m => rw [perform_of_ended hf]; exact hw
      | dropped n => rw [perform_of_dropped hf]; exact hw
      | hangs => rw [perform_of_hangs hf]; exact hw

theorem Only.events {P : R → Prop} (h : t.Only P) :
    ∀ e ∈ (perform around s patience t w).events, P e.request := by
  induction t generalizing w with
  | done a => simp [perform, performAfter]
  | call r next ih =>
      intro e he
      cases hf : fate around s patience w r with
      | returns m =>
          rw [perform_of_returns hf] at he
          rcases List.mem_cons.mp he with rfl | he
          · exact h.1
          · exact ih _ (h.2 _) e he
      | ended m => rw [perform_of_ended hf] at he; rw [List.mem_singleton.mp he]; exact h.1
      | dropped n => rw [perform_of_dropped hf] at he; rw [List.mem_singleton.mp he]; exact h.1
      | hangs => rw [perform_of_hangs hf] at he; rw [List.mem_singleton.mp he]; exact h.1

section

variable {t : Task R A (Except Failure α)} {e f : Failure}

theorem runIn_of_failure (h : s.failure w.tokens w.now = some f) :
    runIn around s patience t w = ⟨.finished (.error f), w, []⟩ := by
  simp only [runIn, h]

theorem runIn_of_live (around : Surroundings σ R A) (patience : Option Time)
    (t : Task R A (Except Failure α)) (h : s.failure w.tokens w.now = none) :
    runIn around s patience t w =
      let run := perform around s patience t w
      { run with ending := s.ending run.world run.ending } := by
  simp only [runIn, h]

theorem runIn_error (h : (runIn around s patience t w).ending = .finished (.error e))
    (hf : s.failure (runIn around s patience t w).world.tokens
      (runIn around s patience t w).world.now = some f) : e = f := by
  cases hw : s.failure w.tokens w.now with
  | some g =>
      rw [runIn_of_failure hw] at h hf
      cases h
      exact Option.some.inj (hw.symm.trans hf)
  | none =>
      rw [runIn_of_live around patience t hw] at h hf
      dsimp only at h hf
      cases hr : (perform around s patience t w).ending with
      | finished result =>
          rw [hr] at h
          cases result with
          | ok a => cases h
          | error g =>
              simp only [Scope.ending, Scope.outcome, hf, Option.getD_some] at h
              cases h
              rfl
      | ended =>
          rw [hr] at h
          simp only [Scope.ending, hf, Option.getD_some] at h
          cases h
          rfl
      | dropped => rw [hr] at h; cases h
      | hung => rw [hr] at h; cases h

theorem runIn_of_ended (hw : s.failure w.tokens w.now = none)
    (h : (perform around s patience t w).ending = .ended) :
    ∃ f, s.failure (runIn around s patience t w).world.tokens
        (runIn around s patience t w).world.now = some f ∧
      (runIn around s patience t w).ending = .finished (.error f) := by
  obtain ⟨f, hf⟩ := Option.isSome_iff_exists.mp (failure_of_ended h)
  rw [runIn_of_live around patience t hw]
  refine ⟨f, hf, ?_⟩
  simp only [h, Scope.ending, hf, Option.getD_some]

theorem runIn_of_cutShort {r : R} {next : A r → Task R A (Except Failure α)} {k : Moment}
    (hw : s.failure w.tokens w.now = none) (hr : Reaches around s patience t w (.call r next) v)
    (hc : CutShort around s patience v r k) :
    (runIn around s patience t w).world.now.time = k.time ∧
      ⟨r, none⟩ ∈ (runIn around s patience t w).events ∧
      ∃ f, s.failure (runIn around s patience t w).world.tokens
          (runIn around s patience t w).world.now = some f ∧
        (runIn around s patience t w).ending = .finished (.error f) := by
  obtain ⟨hended, htime, hevents⟩ := hc.perform (hr.timely (timely_of_failure hw)) next
  obtain ⟨hsame, hworld, es, hes⟩ := hr.perform
  refine ⟨?_, ?_, runIn_of_ended hw (hsame.trans hended)⟩
  · rw [runIn_of_live around patience t hw]
    exact (congrArg (·.now.time) hworld).trans htime
  · rw [runIn_of_live around patience t hw]
    change _ ∈ (perform around s patience t w).events
    rw [hes, hevents]
    exact List.mem_append_right _ (List.mem_singleton_self _)

theorem spare_runIn {k : Token} (ha : Surroundings.Spare around k) (hw : w.tokens.Spare k) :
    (runIn around s patience t w).world.tokens.Spare k := by
  cases h : s.failure w.tokens w.now with
  | some g => rw [runIn_of_failure h]; exact hw
  | none => rw [runIn_of_live around patience t h]; exact spare_perform ha hw

theorem Only.runIn_events {P : R → Prop} (h : t.Only P) :
    ∀ e ∈ (runIn around s patience t w).events, P e.request := by
  cases hw : s.failure w.tokens w.now with
  | some g => simp [runIn_of_failure hw]
  | none => rw [runIn_of_live around patience t hw]; exact h.events

theorem made_runIn : (runIn around s patience t w).world.tokens.made = w.tokens.made := by
  cases h : s.failure w.tokens w.now with
  | some g => rw [runIn_of_failure h]
  | none => rw [runIn_of_live around patience t h]; exact made_perform

end

end Task

end DnsOverStreams
