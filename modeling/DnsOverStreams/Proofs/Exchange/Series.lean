import DnsOverStreams.Exchange.Basic

namespace DnsOverStreams

/-- An exchange to be made: with which surroundings, in which scope, with a connection of its own or not,
how long the caller waits for it, and the moment before which it does not begin. -/
structure Errand (σ : Type) where
  around : Counterpart σ
  scope : Scope
  dials : Bool
  patience : Option Time
  query : Query
  start : Moment

namespace Errand

variable {σ : Type}

def ready (e : Errand σ) (w : World σ) : World σ :=
  { w with now := max w.now e.start }

def run (e : Errand σ) (w : World σ) : Exchange σ :=
  if e.dials then Exchange.dialing e.around e.scope e.patience e.query (e.ready w)
  else Exchange.onConnection e.around e.scope e.patience e.query (e.ready w)

def after (es : List (Errand σ)) (w : World σ) : World σ :=
  es.foldl (fun w e => (e.run w).world) w

def endings : List (Errand σ) → World σ → List (Ending (Except Failure Reply))
  | [], _ => []
  | e :: es, w => (e.run w).ending :: endings es (e.run w).world

def calls : List (Errand σ) → World σ → List (Event Request Request.Answer)
  | [], _ => []
  | e :: es, w => (e.run w).events ++ calls es (e.run w).world

end Errand

end DnsOverStreams
