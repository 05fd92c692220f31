import DnsOverStreams.Proofs.Exchange.ScopeEnd
import DnsOverStreams.Proofs.Exchange.Shared
import DnsOverStreams.Proofs.Task.Heedless

namespace DnsOverStreams

namespace Talk

theorem receive_heedless (message : Message) :
    (receive message).Heedless Request.cleansUp :=
  (receive_only (P := fun r => r.cleansUp = false) (fun _ => rfl) (fun _ => rfl) message).heedless

theorem send_heedless (message : Message) (raw frame : Bytes) :
    (send message raw frame).Heedless Request.cleansUp := by
  refine ⟨nofun, fun a => ?_⟩
  cases a with
  | error e => trivial
  | ok n =>
      change Task.Heedless _ (if n = frame.length then _ else _)
      split
      · exact ⟨nofun, fun _ => ⟨fun _ _ _ => rfl, fun _ => receive_heedless message⟩⟩
      · trivial

theorem roundTrip_heedless (query : Query) : (roundTrip query).Heedless Request.cleansUp := by
  refine ⟨nofun, fun prepared => ?_⟩
  dsimp only
  split
  · trivial
  · exact send_heedless _ _ _

theorem converse_heedless (deadline : Option Time) (query : Query) :
    (converse deadline query).Heedless Request.cleansUp := by
  refine ⟨nofun, fun opened => ?_⟩
  cases opened with
  | error e => trivial
  | ok _ =>
      cases deadline with
      | none =>
          exact (roundTrip_heedless query).bind fun result => ⟨fun _ _ _ => rfl, fun _ => trivial⟩
      | some d =>
          refine ⟨nofun, fun bounded => ?_⟩
          cases bounded with
          | error e => trivial
          | ok _ =>
              exact (roundTrip_heedless query).bind fun result =>
                ⟨fun _ _ _ => rfl, fun _ => ⟨fun _ _ _ => rfl, fun _ => trivial⟩⟩

end Talk

namespace Exchange

variable {σ τ : Type} {Rel : σ → τ → Prop} {around : Counterpart σ} {other : Counterpart τ}
variable {w : World σ} {v : World τ}

theorem onConnection_alike (h : Surroundings.Alike Request.cleansUp Rel around other)
    (hw : World.Alike Rel w v) (s : Scope) (patience : Option Time) (query : Query) :
    Run.Alike Request.cleansUp Rel (onConnection around s patience query w)
      (onConnection other s patience query v) :=
  Task.runIn_alike h (Talk.converse_heedless s.deadline query) hw

theorem dial_alike (h : Surroundings.Alike Request.cleansUp Rel around other)
    (hw : World.Alike Rel w v) (s : Scope) (patience : Option Time) :
    Run.Alike Request.cleansUp Rel (dial around s patience w) (dial other s patience v) :=
  Task.runIn_alike h (Task.Only.heedless ⟨rfl, fun _ => trivial⟩) hw

theorem close_alike {run : Exchange σ} {run' : Exchange τ}
    (h : Surroundings.Alike Request.cleansUp Rel around other)
    (hrun : Run.Alike Request.cleansUp Rel run run') (guard : Scope) (patience : Option Time) :
    Run.Alike Request.cleansUp Rel (close around guard patience run)
      (close other guard patience run') := by
  obtain ⟨ending, ⟨now, tokens, st⟩, events⟩ := run
  obtain ⟨ending', ⟨now', tokens', st'⟩, events'⟩ := run'
  obtain ⟨hending, ⟨hnow, htokens, hst⟩, hevents⟩ := hrun
  dsimp only at hending hnow htokens hst hevents
  subst hending hnow htokens
  have hc := h now st st' hst (.closeConnection (occasion guard now))
  have closed := hide_append hevents (Event.hide_of_alike hc)
  unfold close
  dsimp only
  rw [← hc.delay, ← hc.cancels]
  cases ending with
  | dropped => exact ⟨rfl, ⟨rfl, rfl, hc.state⟩, closed⟩
  | hung => exact ⟨rfl, ⟨rfl, rfl, hst⟩, hevents⟩
  | finished | ended =>
      dsimp only
      cases Fate.of none patience now (waiting
        (around now st (.closeConnection (occasion guard now))).delay) with
      | hangs => exact ⟨rfl, ⟨rfl, rfl, hst⟩, hide_append hevents rfl⟩
      | _ => exact ⟨rfl, ⟨rfl, rfl, hc.state⟩, closed⟩

theorem dialing_alike (h : Surroundings.Alike Request.cleansUp Rel around other)
    (hw : World.Alike Rel w v) (s : Scope) (patience : Option Time) (query : Query) :
    Run.Alike Request.cleansUp Rel (dialing around s patience query w)
      (dialing other s patience query v) := by
  have hdial := dial_alike h hw s patience
  unfold dialing
  dsimp only
  rw [← hdial.ending]
  cases hd : (dial around s patience w).ending with
  | finished result =>
      cases result with
      | error e => exact ⟨rfl, hdial.world, hdial.events⟩
      | ok _ =>
          have hstart : World.Alike Rel
              { (dial around s patience w).world with
                tokens := (dial around s patience w).world.tokens.make }
              { (dial other s patience v).world with
                tokens := (dial other s patience v).world.tokens.make } :=
            ⟨hdial.world.now, congrArg Tokens.make hdial.world.tokens, hdial.world.state⟩
          have hwork : Run.Alike Request.cleansUp Rel
              (work around s patience query (dial around s patience w).world)
              (work other s patience query (dial other s patience v).world) := by
            unfold work talk
            rw [← hdial.world.tokens]
            exact close_alike h (onConnection_alike h (hdial.world.tokens ▸ hstart) _ _ _) _ _
          refine ⟨hwork.ending, hwork.world, ?_⟩
          rw [List.map_append, List.map_append, hdial.events, hwork.events]
  | ended => exact ⟨rfl, hdial.world, hdial.events⟩
  | dropped => exact ⟨rfl, hdial.world, hdial.events⟩
  | hung => exact ⟨rfl, hdial.world, hdial.events⟩

/-- The counterpart with other answers wherever something is cleaned up. What is answered instead may
depend on all calls so far. -/
def amend (around : Counterpart σ)
    (answers : List Request → (r : Request) → r.Answer → r.Answer) :
    Counterpart (σ × List Request) :=
  fun now st r =>
    let c := around now st.1 r
    { delay := c.delay
      answer := if r.cleansUp then answers st.2 r c.answer else c.answer
      state := (c.state, st.2 ++ [r])
      abandoned := fun m => (c.abandoned m, st.2 ++ [r])
      cancels := c.cancels }

theorem alike_amend (around : Counterpart σ)
    (answers : List Request → (r : Request) → r.Answer → r.Answer) :
    Surroundings.Alike Request.cleansUp (fun st (st' : σ × List Request) => st = st'.1) around
      (amend around answers) := by
  intro now st st' hst r
  subst hst
  refine ⟨rfl, fun hr => ?_, rfl, fun _ => rfl, rfl⟩
  unfold amend
  rw [hr]
  rfl

end Exchange

def Event.shown : Event Request Request.Answer → List Request
  | ⟨.showQuery raw, some _⟩ => [.showQuery raw]
  | ⟨.showReply raw, some _⟩ => [.showReply raw]
  | _ => []

namespace Exchange

/-- The exchanges ended alike at the same moment, left the same state, made the same calls, and wrote,
read and showed the same. -/
structure SameCourse (run : Exchange σ) (other : Exchange (σ × List Request)) : Prop where
  ending : run.ending = other.ending
  now : run.world.now = other.world.now
  state : run.world.state = other.world.state.1
  requests : run.events.map (·.request) = other.events.map (·.request)
  written : run.events.flatMap Event.writtenBytes = other.events.flatMap Event.writtenBytes
  read : run.events.flatMap Event.readBytes = other.events.flatMap Event.readBytes
  shown : run.events.flatMap Event.shown = other.events.flatMap Event.shown

theorem SameCourse.of_alike {run : Exchange σ} {other : Exchange (σ × List Request)}
    (h : Run.Alike Request.cleansUp (fun st st' => st = st'.1) run other) :
    SameCourse run other := by
  have view {γ : Type} {f : Event Request Request.Answer → List γ}
      (hf : ∀ r : Request, r.cleansUp = true → ∀ a, f ⟨r, a⟩ = []) :
      run.events.flatMap f = other.events.flatMap f := by
    rw [← flatMap_hide hf, h.events, flatMap_hide hf]
  refine ⟨h.ending, h.world.now, h.world.state, ?_, view ?_, view ?_, view ?_⟩
  · have hrequest (e : Event Request Request.Answer) :
        (Event.hide Request.cleansUp e).request = e.request := by
      unfold Event.hide
      split <;> rfl
    have hmap := congrArg (List.map (·.request)) h.events
    simpa only [List.map_map, Function.comp_def, hrequest] using hmap
  all_goals
    intro r hr a
    cases r with
    | write | read | showQuery | showReply => cases hr
    | _ => rfl

/-- Whatever is answered instead when something is cleaned up, an exchange takes the same course. -/
theorem cleanup_changes_nothing (around : Counterpart σ)
    (answers : List Request → (r : Request) → r.Answer → r.Answer) (s : Scope)
    (patience : Option Time) (query : Query) (w : World σ) :
    SameCourse (onConnection around s patience query w)
        (onConnection (amend around answers) s patience query
          ⟨w.now, w.tokens, (w.state, [])⟩) ∧
      SameCourse (dialing around s patience query w)
        (dialing (amend around answers) s patience query ⟨w.now, w.tokens, (w.state, [])⟩) := by
  have h := alike_amend around answers
  have hw : World.Alike (fun st (st' : σ × List Request) => st = st'.1) w
      ⟨w.now, w.tokens, (w.state, [])⟩ := ⟨rfl, rfl, rfl⟩
  exact ⟨.of_alike (onConnection_alike h hw s patience query),
    .of_alike (dialing_alike h hw s patience query)⟩

end Exchange

end DnsOverStreams
