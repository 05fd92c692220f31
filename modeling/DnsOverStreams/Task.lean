import DnsOverStreams.Scope.Basic
/-!
Work that calls on its surroundings and may have to wait for them. A task is a tree: after each call
it goes on with the answer. The surroundings say of every call how long it takes, what it answers and
what they are like afterwards, also when the call is given up before it returns.

A task that runs in a scope is given up when the scope ends. A call that returns at once is never
given up; one that waits is, if the scope ends while it waits or when it is about to return. A scope
that ended after the task last waited is found to have ended only when all others have had their turn.
A caller who lost patience drops the task, but not when the call that it waits for is about to return. A
caller who has no patience left drops it when it would have to wait, before others have had their turn.
-/

namespace DnsOverStreams

/-- How long something takes: nothing at all, a time that a clock was set for, a time until others
have done what is waited for, or for ever. -/
inductive Delay where
  | atOnce
  | after (ms : Nat)
  | answered (ms : Nat)
  | never
  deriving DecidableEq, Repr

namespace Delay

def ofMs : Nat → Delay
  | 0 => .atOnce
  | ms => .after ms

def finish? (now : Moment) : Delay → Option Moment
  | .atOnce => some now
  | .after ms => some (max now (.sharp (now.time + ms)))
  | .answered ms => some (Moment.sharp (now.time + ms)).settle
  | .never => none

end Delay

/-- How a call goes: how long it takes, its answer, the state after it, the state when it is given up
at a given moment or else before it waits, and the tokens that are canceled as it returns. -/
structure Call (σ α : Type) where
  delay : Delay
  answer : α
  state : σ
  abandoned : Option Moment → σ
  cancels : List Token

def Call.instant {σ α : Type} (answer : α) (state : σ) : Call σ α :=
  ⟨.atOnce, answer, state, fun _ => state, []⟩

def Call.within {σ τ α : Type} (c : Call σ α) (whole : σ → τ) : Call τ α :=
  ⟨c.delay, c.answer, whole c.state, fun m => whole (c.abandoned m), c.cancels⟩

inductive Task (R : Type) (A : R → Type) (α : Type) where
  | done (a : α)
  | call (r : R) (next : A r → Task R A α)

namespace Task

variable {R : Type} {A : R → Type} {α β : Type}

def bind : Task R A α → (α → Task R A β) → Task R A β
  | done a, f => f a
  | call r next, f => call r fun x => (next x).bind f

instance : Monad (Task R A) where
  pure := done
  bind := bind

def ask (r : R) : Task R A (A r) :=
  call r done

end Task

structure World (σ : Type) where
  now : Moment
  tokens : Tokens
  state : σ

abbrev Surroundings (σ R : Type) (A : R → Type) :=
  Moment → σ → (r : R) → Call σ (A r)

/-- A call that was made, with its answer unless it was given up. -/
structure Event (R : Type) (A : R → Type) where
  request : R
  answer : Option (A request)

inductive Ending (α : Type) where
  | finished (a : α)
  | ended
  | dropped
  | hung
  deriving DecidableEq, Repr

namespace Scope

/-- What becomes of a result in a scope: if the scope has ended, a failure is replaced. -/
def outcome {α : Type} (s : Scope) (ts : Tokens) (m : Moment) : Except Failure α → Except Failure α
  | .ok a => .ok a
  | .error e => .error ((s.failure ts m).getD e)

def ending {σ α : Type} (s : Scope) (w : World σ) :
    Ending (Except Failure α) → Ending (Except Failure α)
  | .finished result => .finished (s.outcome w.tokens w.now result)
  | .ended => .finished (.error ((s.failure w.tokens w.now).getD .canceled))
  | .dropped => .dropped
  | .hung => .hung

end Scope

/-- What becomes of a call, and when. One that is dropped at no moment is dropped before it waits. -/
inductive Fate where
  | returns (m : Moment)
  | ended (m : Moment)
  | dropped (m : Option Moment)
  | hangs
  deriving DecidableEq, Repr

namespace Fate

def moment? : Fate → Option Moment
  | returns m => some m
  | ended m => some m
  | dropped m => m
  | hangs => none

/-- The fate that comes first, and the former of two that come at the same moment. -/
def sooner (f g : Fate) : Fate :=
  match f.moment?, g.moment? with
  | _, none => f
  | none, some _ => g
  | some m, some n => if m ≤ n then f else g

/-- What becomes of a call that starts now and has to wait. When the scope has ended, that is found
out when all others have had their turn, but a lack of patience at once. -/
def ofWaiting (scopeEnd : Option Moment) (patience : Option Time) (now : Moment) (d : Delay) : Fate :=
  if patience.any (· ≤ now.time) then .dropped none
  else
    sooner (scopeEnd.elim .hangs fun m => .ended (max now.settle m))
      (sooner ((d.finish? now).elim .hangs .returns)
        (patience.elim .hangs fun t => .dropped (some (.sharp t))))

def of (scopeEnd : Option Moment) (patience : Option Time) (now : Moment) : Delay → Fate
  | .atOnce => .returns now
  | d => ofWaiting scopeEnd patience now d

end Fate

structure Run (σ R : Type) (A : R → Type) (α : Type) where
  ending : Ending α
  world : World σ
  events : List (Event R A)

namespace Task

variable {σ R : Type} {A : R → Type} {α : Type}

/-- Performs a task after the calls of `seen`, the latest of which stands first. -/
def performAfter (around : Surroundings σ R A) (s : Scope) (patience : Option Time)
    (seen : List (Event R A)) : Task R A α → World σ → Run σ R A α
  | done a, w => ⟨.finished a, w, seen.reverse⟩
  | call r next, w =>
      let c := around w.now w.state r
      match Fate.of (s.endsAt w.tokens) patience w.now c.delay with
      | .returns m =>
          performAfter around s patience (⟨r, some c.answer⟩ :: seen) (next c.answer)
            ⟨m, w.tokens.cancelAll c.cancels m, c.state⟩
      | .ended m => ⟨.ended, ⟨m, w.tokens, c.abandoned (some m)⟩, (⟨r, none⟩ :: seen).reverse⟩
      | .dropped m =>
          ⟨.dropped, ⟨m.getD w.now, w.tokens, c.abandoned m⟩, (⟨r, none⟩ :: seen).reverse⟩
      | .hangs => ⟨.hung, w, (⟨r, none⟩ :: seen).reverse⟩

def perform (around : Surroundings σ R A) (s : Scope) (patience : Option Time)
    (task : Task R A α) (w : World σ) : Run σ R A α :=
  performAfter around s patience [] task w

theorem performAfter_eq (around : Surroundings σ R A) (s : Scope) (patience : Option Time)
    (seen : List (Event R A)) (task : Task R A α) (w : World σ) :
    performAfter around s patience seen task w =
      let run := perform around s patience task w
      { run with events := seen.reverse ++ run.events } := by
  unfold perform
  induction task generalizing seen w with
  | done a => simp [performAfter]
  | call r next ih =>
      simp only [performAfter]
      split
      · rw [ih, ih _ [_]]
        simp
      all_goals simp

/-- Runs a task in a scope. Nothing is called if the scope has ended, and a task that fails when the
scope has ended fails as the scope did. -/
def runIn (around : Surroundings σ R A) (s : Scope) (patience : Option Time)
    (task : Task R A (Except Failure α)) (w : World σ) : Run σ R A (Except Failure α) :=
  match s.failure w.tokens w.now with
  | some f => ⟨.finished (.error f), w, []⟩
  | none =>
      let run := task.perform around s patience w
      { run with ending := s.ending run.world run.ending }

end Task

end DnsOverStreams
