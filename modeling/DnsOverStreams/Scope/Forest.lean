import DnsOverStreams.Task
/-!
Scopes as they are made, derived from each other, canceled and left to expire while time goes on, and
single pieces of work that run in them.
-/

namespace DnsOverStreams

/-- The scopes that were made, in that order. Between the steps nobody else does anything, so all
moments of the present time are settled. -/
structure Forest where
  now : Time
  tokens : Tokens
  scopes : List Scope
  deriving DecidableEq, Repr

inductive ForestStep where
  | root
  | clone (parent : Nat)
  | withCancel (parent : Nat)
  | withDeadline (parent : Nat) (deadline : Time)
  | withTimeout (parent : Nat) (ms : Nat)
  | cancel (scope : Nat)
  | advance (ms : Nat)
  deriving DecidableEq, Repr

/-- A piece of work. It waits, perhaps for ever, then cancels scopes, then gives its outcome. -/
structure Work where
  delay : Delay
  cancels : List Nat
  outcome : Except Failure Unit

namespace Forest

def empty : Forest := ⟨0, Tokens.none, []⟩

def moment (f : Forest) : Moment :=
  ⟨f.now, true⟩

def grow (f : Forest) (s : Scope) : Forest :=
  { f with tokens := f.tokens.make, scopes := f.scopes ++ [s] }

def step (f : Forest) : ForestStep → Forest
  | .root => f.grow (Scope.root f.tokens)
  | .clone parent =>
      match f.scopes[parent]? with
      | some s => { f with scopes := f.scopes ++ [s] }
      | none => f
  | .withCancel parent =>
      match f.scopes[parent]? with
      | some s => f.grow (s.withCancel f.tokens)
      | none => f
  | .withDeadline parent deadline =>
      match f.scopes[parent]? with
      | some s => f.grow (s.withDeadline f.tokens deadline)
      | none => f
  | .withTimeout parent ms =>
      match f.scopes[parent]? with
      | some s => f.grow (s.withDeadline f.tokens (f.now + ms))
      | none => f
  | .cancel n =>
      match f.scopes[n]? with
      | some s => { f with tokens := s.cancel f.tokens f.moment }
      | none => f
  | .advance ms => { f with now := f.now + ms }

def steps (f : Forest) (ss : List ForestStep) : Forest :=
  ss.foldl step f

def failures (f : Forest) : List (Option Failure) :=
  f.scopes.map (·.failure f.tokens f.moment)

def deadlines (f : Forest) : List (Option Time) :=
  f.scopes.map (·.deadline)

def tokensOf (f : Forest) (ns : List Nat) : List Token :=
  ns.filterMap fun n => (f.scopes[n]?).bind (·.tokens.head?)

def world (f : Forest) : World Unit :=
  ⟨f.moment, f.tokens, ()⟩

def surroundings (f : Forest) : Surroundings Unit Work fun _ => Except Failure Unit :=
  fun _ _ work => ⟨work.delay, work.outcome, (), fun _ => (), f.tokensOf work.cancels⟩

def afterRun {R α : Type} {A : R → Type} (f : Forest) (run : Run Unit R A α) : Forest :=
  { f with now := run.world.now.time, tokens := run.world.tokens }

def runWork (f : Forest) (s : Scope) (patience : Option Time) (work : Work) :
    Run Unit Work (fun _ => Except Failure Unit) (Except Failure Unit) :=
  (Task.ask work).runIn f.surroundings s patience f.world

def waitForEnd (f : Forest) (s : Scope) (patience : Option Time) :
    Run Unit Work (fun _ => Except Failure Unit) (Except Failure Unit) :=
  (Task.ask ⟨.never, [], .ok ()⟩).perform f.surroundings s patience f.world

end Forest

end DnsOverStreams
