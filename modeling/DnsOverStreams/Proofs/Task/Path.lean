import DnsOverStreams.Proofs.Task.Run
/-!
Paths of tasks: the calls of a task with their answers, one after the other, while each call takes a step
from one state to the next. A run makes the beginning of the calls of a path, and all of them if it comes
to the end of the task. What gives a run up does not change the calls that come before.
-/

namespace DnsOverStreams

def Scope.unbounded : Scope := ⟨[], none⟩

theorem Scope.endsAt_unbounded (ts : Tokens) : unbounded.endsAt ts = none :=
  endsAt_eq_none_iff.mpr (by simp [ends, unbounded])

namespace Fate

variable {scopeEnd : Option Moment} {patience : Option Time} {now m : Moment} {d : Delay}

theorem finish_of_returns (hd : d ≠ .atOnce) (h : of scopeEnd patience now d = returns m) :
    d.finish? now = some m := by
  rw [of_waiting hd] at h
  rcases ofWaiting_cases scopeEnd patience now d with
    ⟨t, -, -, ho⟩ | ⟨e, -, ho⟩ | ⟨f, hf, -, ho⟩ | ⟨t, -, -, -, -, ho⟩ | ⟨-, -, -, ho⟩
  all_goals rw [ho] at h; cases h
  exact hf

theorem ne_never_of_returns (h : of scopeEnd patience now d = returns m) : d ≠ .never := by
  rintro rfl
  cases finish_of_returns Delay.noConfusion h

theorem of_unbounded (h : of scopeEnd patience now d = returns m) :
    of none none now d = returns m := by
  by_cases hd : d = .atOnce
  · subst hd
    exact h
  · exact of_eq_returns_of_patient hd (finish_of_returns hd h) nofun

end Fate

namespace Event

variable {R : Type} {A : R → Type}

def answered (r : R) (a : A r) : Event R A :=
  ⟨r, some a⟩

end Event

section

variable {R : Type} {A : R → Type}

/-- Calls that begin others: of these they are the first ones, and the last may lack its answer. -/
inductive Begins : List (Event R A) → List (Event R A) → Prop where
  | none (fs : List (Event R A)) : Begins [] fs
  | cut (r : R) (a : Option (A r)) (fs : List (Event R A)) : Begins [⟨r, .none⟩] (⟨r, a⟩ :: fs)
  | call (e : Event R A) {es fs : List (Event R A)} (later : Begins es fs) :
      Begins (e :: es) (e :: fs)

variable {es fs : List (Event R A)}

namespace Begins

theorem append (front : List (Event R A)) (h : Begins es fs) : Begins (front ++ es) (front ++ fs) := by
  induction front with
  | nil => exact h
  | cons e front ih => exact .call e ih

theorem refl (es : List (Event R A)) : Begins es es := by
  simpa using append es (.none [])

theorem requests (h : Begins es fs) : es.map (·.request) <+: fs.map (·.request) := by
  induction h with
  | none fs => exact List.nil_prefix
  | cut r a fs => exact ⟨fs.map (·.request), rfl⟩
  | call e later ih => exact List.cons_prefix_cons.mpr ⟨rfl, ih⟩

theorem split (h : Begins es fs) {before later : List (Event R A)} {e : Event R A}
    (hes : es = before ++ e :: later) :
    ∃ a more, fs = before ++ ⟨e.request, a⟩ :: more ∧
      (e.answer.isSome = true → a = e.answer ∧ Begins later more) := by
  induction h generalizing before with
  | none fs => simp at hes
  | cut r a fs =>
      cases before with
      | nil =>
          cases hes
          exact ⟨a, fs, rfl, nofun⟩
      | cons b before => simp at hes
  | @call b es fs begins ih =>
      cases before with
      | nil =>
          cases hes
          exact ⟨e.answer, fs, rfl, fun _ => ⟨rfl, begins⟩⟩
      | cons c before =>
          cases hes
          obtain ⟨a, more, rfl, ha⟩ := ih rfl
          exact ⟨a, more, rfl, ha⟩

end Begins

/-- Something holds of every call, with those before it and those after it. -/
def Each (P : List (Event R A) → Event R A → List (Event R A) → Prop) (es : List (Event R A)) :
    Prop :=
  ∀ before e later, es = before ++ e :: later → P before e later

variable {P Q : List (Event R A) → Event R A → List (Event R A) → Prop}

theorem each_nil : Each P [] :=
  fun before e later h => by simp at h

theorem each_cons {e : Event R A} (first : P [] e es)
    (rest : Each (fun before f later => P (e :: before) f later) es) : Each P (e :: es) := by
  rintro (_ | ⟨b, before⟩) f later h
  · cases h
    exact first
  · cases h
    exact rest before f later rfl

theorem each_append (left : Each (fun before e later => P before e (later ++ fs)) es)
    (right : Each (fun before e later => P (es ++ before) e later) fs) : Each P (es ++ fs) := by
  induction es generalizing P with
  | nil => exact right
  | cons b es ih =>
      refine each_cons (left [] b es rfl) (ih (fun before e later h => ?_) right)
      exact left (b :: before) e later (congrArg (List.cons b) h)

theorem each_of_forall (h : ∀ e ∈ es, ∀ before later, P before e later) : Each P es := by
  rintro before e later rfl
  exact h e (by simp) before later

theorem Each.mono (h : Each P es) (hpq : ∀ before e later, P before e later → Q before e later) :
    Each Q es :=
  fun before e later hes => hpq before e later (h before e later hes)

end

namespace Task

variable {σ τ R : Type} {A : R → Type} {α β : Type}

/-- A task comes to its end with these calls, each of which takes a step. -/
inductive Goes (step : σ → (r : R) → A r → σ → Prop) :
    Task R A α → σ → List (Event R A) → α → σ → Prop where
  | done (a : α) (st : σ) : Goes step (.done a) st [] a st
  | call {r : R} {next : A r → Task R A α} {x : A r} {st mid fin : σ} {es : List (Event R A)} {a : α}
      (now : step st r x mid) (later : Goes step (next x) mid es a fin) :
      Goes step (.call r next) st (.answered r x :: es) a fin

inductive Steps (step : σ → (r : R) → A r → σ → Prop) : σ → List (Event R A) → σ → Prop where
  | nil (st : σ) : Steps step st [] st
  | cons {r : R} {x : A r} {st mid fin : σ} {es : List (Event R A)} (now : step st r x mid)
      (later : Steps step mid es fin) : Steps step st (.answered r x :: es) fin

def Answers (around : Surroundings σ R A) (st : σ) (r : R) (x : A r) (fin : σ) : Prop :=
  ∃ now, (around now st r).delay ≠ .never ∧ (around now st r).answer = x ∧
    (around now st r).state = fin

def Anyhow (_ : Unit) (r : R) (_ : A r) (_ : Unit) : Prop :=
  True

variable {step : σ → (r : R) → A r → σ → Prop} {st fin : σ} {es : List (Event R A)} {a : α} {b : β}

theorem Goes.of_bind {t : Task R A α} {f : α → Task R A β} (h : Goes step (t.bind f) st es b fin) :
    ∃ front a mid back, Goes step t st front a mid ∧ Goes step (f a) mid back b fin ∧
      es = front ++ back := by
  induction t generalizing st es with
  | done a => exact ⟨[], a, st, es, .done a st, h, rfl⟩
  | call r next ih =>
      cases h with
      | call now later =>
          obtain ⟨front, a, mid, back, hfront, hback, rfl⟩ := ih _ later
          exact ⟨_, a, mid, back, .call now hfront, hback, rfl⟩

theorem Goes.steps {t : Task R A α} (h : Goes step t st es a fin) : Steps step st es fin := by
  induction h with
  | done a st => exact .nil st
  | call now later ih => exact .cons now ih

theorem Goes.not_given_up {t : Task R A α} (h : Goes step t st es a fin) (r : R) :
    ⟨r, none⟩ ∉ es := by
  induction h with
  | done a st => exact List.not_mem_nil
  | call now later ih =>
      intro hmem
      rcases List.mem_cons.mp hmem with heq | hmem
      · cases heq
      · exact ih hmem

theorem exists_goes [∀ r, Nonempty (A r)] (t : Task R A α) :
    ∃ es a, Goes Anyhow t () es a () := by
  induction t with
  | done a => exact ⟨[], a, .done a ()⟩
  | call r next ih =>
      obtain ⟨x⟩ : Nonempty (A r) := inferInstance
      obtain ⟨es, a, h⟩ := ih x
      exact ⟨_, a, .call trivial h⟩

variable {around : Surroundings σ R A} {s : Scope} {patience : Option Time} {w : World σ}

theorem goes_of_finished {t : Task R A α}
    (h : (perform around s patience t w).ending = .finished a) :
    Goes (Answers around) t w.state (perform around s patience t w).events a
      (perform around s patience t w).world.state := by
  induction t generalizing w with
  | done b =>
      cases h
      exact .done _ _
  | call r next ih =>
      cases hf : fate around s patience w r with
      | returns m =>
          rw [perform_of_returns hf] at h ⊢
          exact .call ⟨w.now, Fate.ne_never_of_returns hf, rfl, rfl⟩ (ih _ h)
      | ended m => rw [perform_of_ended hf] at h; cases h
      | dropped n => rw [perform_of_dropped hf] at h; cases h
      | hangs => rw [perform_of_hangs hf] at h; cases h

theorem events_call (around : Surroundings σ R A) (s : Scope) (patience : Option Time) (r : R)
    (next : A r → Task R A α) (w : World σ) :
    ∃ x later, (perform around s patience (call r next) w).events = ⟨r, x⟩ :: later := by
  cases hf : fate around s patience w r with
  | returns m => exact ⟨_, _, by rw [perform_of_returns hf]⟩
  | ended m => exact ⟨_, _, by rw [perform_of_ended hf]⟩
  | dropped n => exact ⟨_, _, by rw [perform_of_dropped hf]⟩
  | hangs => exact ⟨_, _, by rw [perform_of_hangs hf]⟩

theorem events_of_given_up {r : R} {next : A r → Task R A α}
    (h : ∀ m, fate around s patience w r ≠ .returns m) :
    (perform around s patience (call r next) w).events = [⟨r, none⟩] := by
  cases hf : fate around s patience w r with
  | returns m => exact absurd hf (h m)
  | ended m => rw [perform_of_ended hf]
  | dropped n => rw [perform_of_dropped hf]
  | hangs => rw [perform_of_hangs hf]

theorem fate_unbounded {r : R} {m : Moment} (h : fate around s patience w r = .returns m) :
    fate around .unbounded none w r = .returns m := by
  unfold fate at h ⊢
  rw [Scope.endsAt_unbounded]
  exact Fate.of_unbounded h

theorem begins_unbounded (around : Surroundings σ R A) (s : Scope) (patience : Option Time)
    (t : Task R A α) (w : World σ) :
    Begins (perform around s patience t w).events (perform around .unbounded none t w).events := by
  induction t generalizing w with
  | done a => exact .none _
  | call r next ih =>
      by_cases hf : ∃ m, fate around s patience w r = .returns m
      · obtain ⟨m, hf⟩ := hf
        rw [perform_of_returns hf, perform_of_returns (fate_unbounded hf)]
        exact .call _ (ih _ _)
      · obtain ⟨x, later, hevents⟩ := events_call around .unbounded none r next w
        rw [events_of_given_up fun m hm => hf ⟨m, hm⟩, hevents]
        exact .cut r x later

theorem events_of_finished {t : Task R A α}
    (h : (perform around s patience t w).ending = .finished a) :
    (perform around s patience t w).events = (perform around .unbounded none t w).events := by
  induction t generalizing w with
  | done b => rfl
  | call r next ih =>
      cases hf : fate around s patience w r with
      | returns m =>
          rw [perform_of_returns hf] at h ⊢
          rw [perform_of_returns (fate_unbounded hf)]
          exact congrArg (List.cons _) (ih _ h)
      | ended m => rw [perform_of_ended hf] at h; cases h
      | dropped n => rw [perform_of_dropped hf] at h; cases h
      | hangs => rw [perform_of_hangs hf] at h; cases h

theorem whole_or_cut [∀ r, Nonempty (A r)] (around : Surroundings σ R A) (s : Scope)
    (patience : Option Time) (t : Task R A α) (w : World σ) :
    ∃ full a, Goes Anyhow t () full a () ∧
      ((perform around s patience t w).events = full ∨
        ∃ front r x later, full = front ++ .answered r x :: later ∧
          (perform around s patience t w).events = front ++ [⟨r, none⟩]) := by
  induction t generalizing w with
  | done a => exact ⟨[], a, .done a (), .inl rfl⟩
  | call r next ih =>
      by_cases hf : ∃ m, fate around s patience w r = .returns m
      · obtain ⟨m, hf⟩ := hf
        obtain ⟨full, a, hgoes, hcalls⟩ := ih (around w.now w.state r).answer
          (w.after (around w.now w.state r) m)
        rw [perform_of_returns hf]
        refine ⟨_, a, .call trivial hgoes, ?_⟩
        rcases hcalls with hfull | ⟨front, r', x, later, rfl, hcut⟩
        · exact .inl (congrArg (List.cons _) hfull)
        · exact .inr ⟨_ :: front, r', x, later, rfl, congrArg (List.cons _) hcut⟩
      · -- the call is given up, so what would have come of it does not matter
        obtain ⟨full, a, hgoes⟩ := exists_goes (call r next)
        rw [events_of_given_up fun m hm => hf ⟨m, hm⟩]
        cases hgoes with
        | call now later => exact ⟨_, a, .call now later, .inr ⟨[], r, _, _, rfl, rfl⟩⟩

theorem begins_path [∀ r, Nonempty (A r)] (around : Surroundings σ R A) (s : Scope)
    (patience : Option Time) (t : Task R A α) (w : World σ) :
    ∃ full a, Goes Anyhow t () full a () ∧ Begins (perform around s patience t w).events full := by
  obtain ⟨full, a, hgoes, hcourse⟩ := whole_or_cut around s patience t w
  refine ⟨full, a, hgoes, ?_⟩
  rcases hcourse with hfull | ⟨front, r, x, later, rfl, hcut⟩
  · rw [hfull]
    exact .refl full
  · rw [hcut]
    exact .append front (.cut r (some x) later)

end Task

end DnsOverStreams
