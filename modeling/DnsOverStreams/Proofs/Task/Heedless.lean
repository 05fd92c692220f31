import DnsOverStreams.Proofs.Task.Run
/-!
Tasks that do not heed the answers to some of their calls. Surroundings that differ in these answers
only cannot be told apart by such a task, nor by how it is given up.
-/

namespace DnsOverStreams

/-- Calls that may differ in what they answer, if `loose`, but in nothing else. -/
structure Call.Alike {σ τ α : Type} (loose : Bool) (Rel : σ → τ → Prop) (c : Call σ α)
    (d : Call τ α) : Prop where
  delay : c.delay = d.delay
  answer : loose = false → c.answer = d.answer
  state : Rel c.state d.state
  abandoned : ∀ m, Rel (c.abandoned m) (d.abandoned m)
  cancels : c.cancels = d.cancels

structure World.Alike {σ τ : Type} (Rel : σ → τ → Prop) (w : World σ) (v : World τ) : Prop where
  now : w.now = v.now
  tokens : w.tokens = v.tokens
  state : Rel w.state v.state

section

variable {σ τ R : Type} {A : R → Type}

/-- Surroundings that may differ in what they answer to loose calls, but in nothing else. -/
def Surroundings.Alike (loose : R → Bool) (Rel : σ → τ → Prop) (around : Surroundings σ R A)
    (other : Surroundings τ R A) : Prop :=
  ∀ now st st', Rel st st' → ∀ r, Call.Alike (loose r) Rel (around now st r) (other now st' r)

def Event.hide (loose : R → Bool) (e : Event R A) : Event R A :=
  if loose e.request then ⟨e.request, none⟩ else e

/-- Runs that end alike and made the same calls, with the same answers but for loose ones. -/
structure Run.Alike {α : Type} (loose : R → Bool) (Rel : σ → τ → Prop) (run : Run σ R A α)
    (other : Run τ R A α) : Prop where
  ending : run.ending = other.ending
  world : World.Alike Rel run.world other.world
  events : run.events.map (Event.hide loose) = other.events.map (Event.hide loose)

variable {loose : R → Bool}

theorem Event.hide_of_alike {r : R} {Rel : σ → τ → Prop} {c : Call σ (A r)}
    {d : Call τ (A r)} (h : Call.Alike (loose r) Rel c d) :
    Event.hide loose ⟨r, some c.answer⟩ = Event.hide loose (A := A) ⟨r, some d.answer⟩ := by
  unfold hide
  cases hl : loose r with
  | false => rw [h.answer hl]
  | true => rfl

theorem hide_append {es es' : List (Event R A)} {e e' : Event R A}
    (h : es.map (Event.hide loose) = es'.map (Event.hide loose))
    (he : Event.hide loose e = Event.hide loose e') :
    (es ++ [e]).map (Event.hide loose) = (es' ++ [e']).map (Event.hide loose) := by
  rw [List.map_append, List.map_append, h, List.map_singleton, List.map_singleton, he]

/-- What does not depend on loose answers can be told from calls without them. -/
theorem flatMap_hide {γ : Type} {f : Event R A → List γ}
    (hf : ∀ r, loose r = true → ∀ a, f ⟨r, a⟩ = []) (es : List (Event R A)) :
    (es.map (Event.hide loose)).flatMap f = es.flatMap f := by
  rw [List.flatMap_map]
  congr 1
  funext e
  unfold Event.hide
  split
  · rename_i h
    rw [hf e.request h, ← hf e.request h e.answer]
  · rfl

end

namespace Task

variable {σ τ R : Type} {A : R → Type} {α β : Type} {loose : R → Bool}

/-- The task goes on in the same way whatever loose calls are answered. -/
def Heedless (loose : R → Bool) : Task R A α → Prop
  | done _ => True
  | call r next => (loose r = true → ∀ a b, next a = next b) ∧ ∀ a, (next a).Heedless loose

theorem Heedless.bind {t : Task R A α} {f : α → Task R A β} (ht : t.Heedless loose)
    (hf : ∀ a, (f a).Heedless loose) : (t.bind f).Heedless loose := by
  induction t with
  | done a => exact hf a
  | call r next ih =>
      exact ⟨fun hl a b => congrArg (·.bind f) (ht.1 hl a b), fun a => ih a (ht.2 a)⟩

theorem Only.heedless {t : Task R A α} (h : t.Only fun r => loose r = false) :
    t.Heedless loose := by
  induction t with
  | done a => trivial
  | call r next ih =>
      refine ⟨fun hl => ?_, fun a => ih a (h.2 a)⟩
      rw [h.1] at hl
      cases hl

variable {Rel : σ → τ → Prop} {around : Surroundings σ R A} {other : Surroundings τ R A}
variable {s : Scope} {patience : Option Time} {w : World σ} {v : World τ}

theorem fate_alike (h : Surroundings.Alike loose Rel around other) (hw : World.Alike Rel w v)
    (r : R) : fate around s patience w r = fate other s patience v r := by
  have hc := h w.now _ _ hw.state r
  unfold fate
  rw [hc.delay, hw.tokens, hw.now]

theorem perform_alike {t : Task R A α} (h : Surroundings.Alike loose Rel around other)
    (ht : t.Heedless loose) (hw : World.Alike Rel w v) :
    Run.Alike loose Rel (perform around s patience t w) (perform other s patience t v) := by
  induction t generalizing w v with
  | done a => exact ⟨rfl, hw, rfl⟩
  | call r next ih =>
      have hc : Call.Alike (loose r) Rel (around w.now w.state r) (other v.now v.state r) :=
        hw.now ▸ h w.now _ _ hw.state r
      have hfate : fate around s patience w r = fate other s patience v r := fate_alike h hw r
      cases hf : fate around s patience w r with
      | returns m =>
          have hnext : next (around w.now w.state r).answer = next (other v.now v.state r).answer := by
            cases hl : loose r with
            | false => rw [hc.answer hl]
            | true => exact ht.1 hl _ _
          have hafter : World.Alike Rel (w.after (around w.now w.state r) m)
              (v.after (other v.now v.state r) m) := by
            refine ⟨rfl, ?_, hc.state⟩
            change w.tokens.cancelAll _ m = v.tokens.cancelAll _ m
            rw [hw.tokens, hc.cancels]
          have hlater := ih (around w.now w.state r).answer (ht.2 _) hafter
          rw [perform_of_returns hf, perform_of_returns (hfate.symm.trans hf)]
          dsimp only
          rw [← hnext]
          refine ⟨hlater.ending, hlater.world, ?_⟩
          rw [List.map_cons, List.map_cons, Event.hide_of_alike hc, hlater.events]
      | ended m =>
          rw [perform_of_ended hf, perform_of_ended (hfate.symm.trans hf)]
          exact ⟨rfl, ⟨rfl, hw.tokens, hc.abandoned _⟩, rfl⟩
      | dropped n =>
          rw [perform_of_dropped hf, perform_of_dropped (hfate.symm.trans hf)]
          exact ⟨rfl, ⟨congrArg n.getD hw.now, hw.tokens, hc.abandoned _⟩, rfl⟩
      | hangs =>
          rw [perform_of_hangs hf, perform_of_hangs (hfate.symm.trans hf)]
          exact ⟨rfl, hw, rfl⟩

theorem runIn_alike {t : Task R A (Except Failure α)} (h : Surroundings.Alike loose Rel around other)
    (ht : t.Heedless loose) (hw : World.Alike Rel w v) :
    Run.Alike loose Rel (runIn around s patience t w) (runIn other s patience t v) := by
  have hfailure : s.failure v.tokens v.now = s.failure w.tokens w.now := by
    rw [hw.tokens, hw.now]
  cases hs : s.failure w.tokens w.now with
  | some f =>
      rw [runIn_of_failure hs, runIn_of_failure (hfailure.trans hs)]
      exact ⟨rfl, hw, rfl⟩
  | none =>
      have hrun : Run.Alike loose Rel (perform around s patience t w) (perform other s patience t v) :=
        perform_alike h ht hw
      rw [runIn_of_live around patience t hs, runIn_of_live other patience t (hfailure.trans hs)]
      refine ⟨?_, hrun.world, hrun.events⟩
      have hending (x : Ending (Except Failure α)) :
          s.ending (perform around s patience t w).world x =
            s.ending (perform other s patience t v).world x := by
        unfold Scope.ending Scope.outcome
        rw [hrun.world.tokens, hrun.world.now]
      dsimp only
      rw [hending, hrun.ending]

end Task

end DnsOverStreams
