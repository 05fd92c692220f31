import DnsOverStreams.Exchange.Conversation
/-!
Exchanges. One that dials a connection of its own closes it when the work is over, however it ended:
with a result, because the scope has ended, or because the caller lost interest. One over a
connection of the caller never closes that.
-/

namespace DnsOverStreams

abbrev Exchange (σ : Type) := Run σ Request Request.Answer (Except Failure Reply)

abbrev Counterpart (σ : Type) := Surroundings σ Request Request.Answer

namespace Exchange

variable {σ : Type}

def onConnection (around : Counterpart σ) (s : Scope) (patience : Option Time) (query : Query)
    (w : World σ) : Exchange σ :=
  (Talk.converse s.deadline query).runIn around s patience w

def dial (around : Counterpart σ) (s : Scope) (patience : Option Time) (w : World σ) :
    Run σ Request Request.Answer (Except Failure Unit) :=
  Task.runIn around s patience (Task.ask Request.dial) w

/-- Whoever waits for the closing of a connection waits, even if it takes no time. -/
def waiting : Delay → Delay
  | .atOnce => .answered 0
  | d => d

def occasion (guard : Scope) (now : Moment) : Occasion :=
  if guard.isExpired now then .deadline else .done

/-- Closes the connection when the work on it is over. A caller who waits for the closing may still
lose interest, which does not keep the connection open. -/
def close (around : Counterpart σ) (guard : Scope) (patience : Option Time) (run : Exchange σ) :
    Exchange σ :=
  let w := run.world
  let tokens := guard.cancel w.tokens w.now
  let request := Request.closeConnection (occasion guard w.now)
  let c := around w.now w.state request
  let finished (ending : Ending (Except Failure Reply)) (m : Moment) : Exchange σ :=
    { ending := ending
      world := ⟨m, tokens.cancelAll c.cancels m, c.state⟩
      events := run.events ++ [⟨request, some c.answer⟩] }
  match run.ending with
  | .dropped => finished .dropped w.now
  | .hung => run
  | ending =>
      match Fate.of none patience w.now (waiting c.delay) with
      | .returns m => finished ending m
      | .ended m => finished ending m
      | .dropped m => finished .dropped (m.getD w.now)
      | .hangs =>
          { ending := .hung, world := { w with tokens := tokens }
            events := run.events ++ [⟨request, none⟩] }

def talk (around : Counterpart σ) (s : Scope) (patience : Option Time) (query : Query)
    (w : World σ) : Exchange σ :=
  onConnection around (s.withCancel w.tokens) patience query { w with tokens := w.tokens.make }

def work (around : Counterpart σ) (s : Scope) (patience : Option Time) (query : Query)
    (w : World σ) : Exchange σ :=
  close around (s.withCancel w.tokens) patience (talk around s patience query w)

def dialing (around : Counterpart σ) (s : Scope) (patience : Option Time) (query : Query)
    (w : World σ) : Exchange σ :=
  let dialed := dial around s patience w
  match dialed.ending with
  | .finished (.ok ()) =>
      let worked := work around s patience query dialed.world
      { worked with events := dialed.events ++ worked.events }
  | .finished (.error e) => { dialed with ending := .finished (.error e) }
  | .ended => { dialed with ending := .ended }
  | .dropped => { dialed with ending := .dropped }
  | .hung => { dialed with ending := .hung }

end Exchange

end DnsOverStreams
