import DnsOverStreams.Exchange.Script
import DnsOverStreams.Proofs.Exchange.Calls
import DnsOverStreams.Proofs.Exchange.ScopeEnd
import DnsOverStreams.Proofs.Exchange.Spoken
import DnsOverStreams.Proofs.Task.Canceling
/-!
The order of the calls of an exchange. An exchange that is given up has made the first of the calls that it
would have made, and after a call that fails it only releases its stream.
-/

namespace DnsOverStreams

inductive Mark where
  | write
  | showQuery
  | showReply
  deriving DecidableEq, Repr

namespace Request

def mark? : Request → Option Mark
  | write _ => some .write
  | showQuery _ => some .showQuery
  | showReply _ => some .showReply
  | _ => none

/-- An answer after which the round trip cannot go on: an error, the settings of a query that has no
message, a frame that was not written to its end, or the end of the stream. -/
def Fails : (r : Request) → r.Answer → Prop
  | openStream, a => ∃ e, a = .error e
  | setDeadline (some _), a => ∃ e, a = .error e
  | prepare _, a => ∃ e, Query.pack a = .error e
  | write frame, a => a ≠ .ok frame.length
  | read _, a => (∃ e, a = .error e) ∨ a = .ok []
  | _, _ => False

end Request

def Event.Fails (e : Event Request Request.Answer) : Prop :=
  ∃ a, e.answer = some a ∧ e.request.Fails a

theorem Event.fails_answered {r : Request} {a : r.Answer} :
    (Event.answered (A := Request.Answer) r a).Fails ↔ r.Fails a := by
  simp [Event.Fails, Event.answered]

namespace Talk

def release (deadline : Option Time) : List Request :=
  .closeStream :: deadline.toList.map fun _ => .setDeadline none

def written (raw : Bytes) (said : Except IoFailure Unit) : Calls :=
  [.answered (.write (Frame.of raw)) (.ok (Frame.of raw).length), .answered (.showQuery raw) (),
    .answered .closeStream said]

def GaveBytes (e : Event Request Request.Answer) : Prop :=
  ∃ room bytes, e = .answered (.read room) (.ok bytes) ∧ bytes ≠ []

/-- A query was written and no more will be, and what has been called since are reads. -/
def Reading (before : Calls) : Prop :=
  ∃ front raw said reads, before = front ++ written raw said ++ reads ∧ ∀ e ∈ reads, GaveBytes e

/-- What has been called before a request of an exchange. -/
def Due (query : Query) (before : Calls) : Request → Prop
  | .write frame => ∃ front prepared raw, before = front ++ [.answered (.prepare query) prepared] ∧
      prepared.pack = .ok raw ∧ frame = Frame.of raw
  | .showQuery raw => ∃ front,
      before = front ++ [.answered (.write (Frame.of raw)) (.ok (Frame.of raw).length)]
  | .read _ => Reading before
  | .showReply body => ∃ front head rest header, before = front ++ (head ++ rest) ∧ Reading front ∧
      ReadsUnit Frame.headerLength [] head (.ok header) ∧
      ReadsUnit (Frame.announced header) [] rest (.ok body)
  | _ => True

/-- The call is due after the calls before it, and if it fails it is the last one. -/
def Right (query : Query) (front before : Calls) (e : Event Request Request.Answer)
    (later : Calls) : Prop :=
  Due query (front ++ before) e.request ∧ (e.Fails → later = [])

section

variable {query : Query} {front es fs : Calls} {e : Event Request Request.Answer}

theorem Reading.append (h : Reading front) (hes : ∀ e ∈ es, GaveBytes e) : Reading (front ++ es) := by
  obtain ⟨start, raw, said, reads, rfl, hreads⟩ := h
  refine ⟨start, raw, said, reads ++ es, List.append_assoc _ _ _, fun e he => ?_⟩
  exact (List.mem_append.mp he).elim (hreads e) (hes e)

theorem reading_written (front : Calls) (raw : Bytes) (said : Except IoFailure Unit) :
    Reading (front ++ written raw said) :=
  ⟨front, raw, said, [], (List.append_nil _).symm, nofun⟩

theorem right_append
    (left : Each (fun before e later => Right query front before e (later ++ fs)) es)
    (right : Each (Right query (front ++ es)) fs) : Each (Right query front) (es ++ fs) :=
  each_append left <| right.mono fun before e later h => by
    rwa [Right, List.append_assoc] at h

theorem right_cons (first : Due query front e.request) (hf : ¬ e.Fails)
    (rest : Each (Right query (front ++ [e])) es) : Each (Right query front) (e :: es) := by
  have left : Each (fun before e later => Right query front before e (later ++ es)) [e] :=
    each_cons ⟨by rwa [List.append_nil], fun h => absurd h hf⟩ each_nil
  exact right_append left rest

theorem right_last (h : Due query front e.request) : Each (Right query front) [e] :=
  each_cons ⟨by rwa [List.append_nil], fun _ => rfl⟩ each_nil

end

section

variable {whole : Nat} {got : Bytes} {calls : Calls} {query : Query} {front : Calls}

theorem each_readsUnit {result : Except IoFailure Bytes} (h : ReadsUnit whole got calls result) :
    Each (fun before e later => (∃ room, e.request = .read room) ∧ (∀ b ∈ before, GaveBytes b) ∧
      (e.Fails → later = [] ∧ ∃ err, result = .error err)) calls := by
  have hnone : ∀ b ∈ ([] : Calls), GaveBytes b := nofun
  induction h with
  | complete h => exact each_nil
  | piece h hne later ih =>
      refine each_cons ⟨⟨_, rfl⟩, hnone, fun hf => ?_⟩ (ih.mono fun before e rest he => ?_)
      · rcases Event.fails_answered.mp hf with ⟨e, he⟩ | hnil
        · cases he
        · exact absurd (Except.ok.inj hnil) hne
      · obtain ⟨hread, hbefore, hfails⟩ := he
        exact ⟨hread, List.forall_mem_cons.mpr ⟨⟨_, _, rfl, hne⟩, hbefore⟩, hfails⟩
  | ended h => exact each_cons ⟨⟨_, rfl⟩, hnone, fun _ => ⟨rfl, _, rfl⟩⟩ each_nil
  | failed h e => exact each_cons ⟨⟨_, rfl⟩, hnone, fun _ => ⟨rfl, _, rfl⟩⟩ each_nil

theorem gaveBytes_of_readsUnit {body : Bytes} (h : ReadsUnit whole got calls (.ok body)) :
    ∀ e ∈ calls, GaveBytes e := by
  generalize hr : (Except.ok body : Except IoFailure Bytes) = result at h
  induction h with
  | complete h => nofun
  | piece h hne later ih => exact List.forall_mem_cons.mpr ⟨⟨_, _, rfl, hne⟩, ih hr⟩
  | ended h => cases hr
  | failed h e => cases hr

theorem right_readsUnit {result : Except IoFailure Bytes} (h : ReadsUnit whole got calls result)
    (hfront : Reading front) {more : Calls} (hmore : ∀ err, result = .error err → more = []) :
    Each (fun before e later => Right query front before e (later ++ more)) calls := by
  refine (each_readsUnit h).mono fun before e later he => ?_
  obtain ⟨⟨room, hroom⟩, hbefore, hfails⟩ := he
  refine ⟨?_, fun hf => ?_⟩
  · rw [hroom]
    exact hfront.append hbefore
  · obtain ⟨hlater, err, herr⟩ := hfails hf
    rw [hlater, hmore err herr]
    rfl

theorem right_unread {e : IoFailure} (h : ReadsUnit whole got calls (.error e))
    (hfront : Reading front) : Each (Right query front) calls := by
  have hlast : Each (fun before e later => Right query front before e (later ++ [])) calls :=
    right_readsUnit h hfront fun _ _ => rfl
  simpa only [List.append_nil] using hlast

theorem right_receives {message : Message} {result : Except Failure Reply}
    (h : Receives message calls result) (hfront : Reading front) :
    Each (Right query front) calls := by
  cases h with
  | headless hhead => exact right_unread hhead hfront
  | bodiless hhead hrest =>
      refine right_append (right_readsUnit hhead hfront nofun) (right_unread hrest ?_)
      exact hfront.append (gaveBytes_of_readsUnit hhead)
  | complete hhead hrest =>
      have hread := hfront.append (gaveBytes_of_readsUnit hhead)
      refine right_append (right_readsUnit hhead hfront nofun)
        (right_append (right_readsUnit hrest hread nofun) (right_last ?_))
      exact ⟨front, _, _, _, List.append_assoc _ _ _, hfront, hhead, hrest⟩

theorem right_sends {message : Message} {prepared : Query} {raw : Bytes}
    {result : Except Failure Reply} (hraw : prepared.pack = .ok raw)
    (h : Sends message raw calls result) :
    Each (Right query (front ++ [.answered (.prepare query) prepared])) calls := by
  have hdue : Due query (front ++ [.answered (.prepare query) prepared]) (.write (Frame.of raw)) :=
    ⟨front, prepared, raw, rfl, hraw, rfl⟩
  cases h with
  | failed e => exact right_last hdue
  | short h => exact right_last hdue
  | through said later =>
      refine right_cons hdue ?_ (right_cons ⟨_, rfl⟩ ?_ (right_cons trivial ?_ ?_))
      · exact fun hf => Event.fails_answered.mp hf rfl
      · exact fun hf => Event.fails_answered.mp hf
      · exact fun hf => Event.fails_answered.mp hf
      · refine right_receives later ?_
        have := reading_written (front ++ [.answered (.prepare query) prepared]) raw said
        simpa [written] using this

theorem right_roundTrips {result : Except Failure Reply} (h : RoundTrips query calls result) :
    Each (Right query front) calls := by
  cases h with
  | unencoded h => exact right_last trivial
  | @encoded prepared message raw calls _ hm hraw hfits later =>
      have hpack : prepared.pack = .ok raw := by
        unfold Query.pack
        rw [hm]
        exact hraw
      refine right_cons trivial (fun hf => ?_) (right_sends hpack later)
      obtain ⟨e, he⟩ := Event.fails_answered.mp hf
      cases hpack.symm.trans he

/-- Every call is due, and after one that fails the stream is at most released. -/
def Ordered (deadline : Option Time) (query : Query) (calls : Calls) : Prop :=
  Each (fun before e later => Due query before e.request ∧
    (e.Fails → later.map (·.request) <+: release deadline)) calls

theorem release_of_released (deadline : Option Time) (closed cleared : Except IoFailure Unit) :
    (released deadline closed cleared).map (·.request) = release deadline := by
  cases deadline <;> rfl

theorem opened_or_released {deadline : Option Time} (closed cleared : Except IoFailure Unit)
    {e : Event Request Request.Answer}
    (h : e ∈ opened deadline ∨ e ∈ released deadline closed cleared) (before : Calls) :
    Due query before e.request ∧ ¬ e.Fails := by
  have hgood {r : Request} {a : r.Answer} (hd : Due query before r) (ha : ¬ r.Fails a) :
      Due query before (Event.answered (A := Request.Answer) r a).request ∧
        ¬ (Event.answered (A := Request.Answer) r a).Fails :=
    ⟨hd, fun hf => ha (Event.fails_answered.mp hf)⟩
  cases deadline with
  | none =>
      simp only [opened, released, Option.toList, List.map_nil, List.mem_singleton] at h
      rcases h with rfl | rfl
      · exact hgood trivial (by simp [Request.Fails])
      · exact hgood trivial id
  | some d =>
      simp only [opened, released, Option.toList, List.map_cons, List.map_nil, List.mem_cons,
        List.not_mem_nil, or_false] at h
      rcases h with (rfl | rfl) | (rfl | rfl)
      · exact hgood trivial (by simp [Request.Fails])
      · exact hgood trivial (by simp [Request.Fails])
      · exact hgood trivial id
      · exact hgood trivial id

theorem ordered_of_converses {deadline : Option Time} {result : Except Failure Reply}
    (h : Converses deadline query calls result) : Ordered deadline query calls := by
  have hnone : ([] : Calls).map (·.request) <+: release deadline := List.nil_prefix
  cases h with
  | refused e => exact each_cons ⟨trivial, fun _ => hnone⟩ each_nil
  | unbounded h e =>
      refine each_cons ⟨trivial, fun hf => ?_⟩ (each_cons ⟨trivial, fun _ => hnone⟩ each_nil)
      obtain ⟨e, he⟩ := Event.fails_answered.mp hf
      cases he
  | through closed cleared h =>
      refine each_append (each_of_forall fun e he before later => ?_)
        (each_append (Each.mono (P := Right query (opened deadline)) (right_roundTrips h)
          fun before e later he => ?_) (each_of_forall fun e he before later => ?_))
      · obtain ⟨hdue, hf⟩ := opened_or_released closed cleared (.inl he) before
        exact ⟨hdue, fun h => absurd h hf⟩
      · refine ⟨he.1, fun hf => ?_⟩
        simp only [he.2 hf, List.nil_append, release_of_released, List.prefix_rfl]
      · obtain ⟨hdue, hf⟩ := opened_or_released closed cleared (.inr he) (opened deadline ++ (_ ++ before))
        exact ⟨hdue, fun h => absurd h hf⟩

end

section

variable {calls : Calls}

def marks (calls : Calls) : List Mark :=
  calls.filterMap (·.request.mark?)

theorem marks_append (es fs : Calls) : marks (es ++ fs) = marks es ++ marks fs :=
  List.filterMap_append

theorem marks_readsUnit {whole : Nat} {got : Bytes} {result : Except IoFailure Bytes}
    (h : ReadsUnit whole got calls result) : marks calls = [] := by
  induction h with
  | complete h => rfl
  | piece h hne later ih => exact ih
  | ended h => rfl
  | failed h e => rfl

theorem marks_receives {message : Message} {result : Except Failure Reply}
    (h : Receives message calls result) : marks calls <+: [.showReply] := by
  cases h with
  | headless hhead =>
      rw [marks_readsUnit hhead]
      exact List.nil_prefix
  | bodiless hhead hrest =>
      rw [marks_append, marks_readsUnit hhead, marks_readsUnit hrest]
      exact List.nil_prefix
  | complete hhead hrest =>
      rw [marks_append, marks_append, marks_readsUnit hhead, marks_readsUnit hrest]
      exact List.prefix_rfl

theorem marks_roundTrips {query : Query} {result : Except Failure Reply}
    (h : RoundTrips query calls result) : marks calls <+: [.write, .showQuery, .showReply] := by
  cases h with
  | unencoded h => exact List.nil_prefix
  | encoded hm hraw hfits later =>
      cases later with
      | failed e => exact ⟨[.showQuery, .showReply], rfl⟩
      | short h => exact ⟨[.showQuery, .showReply], rfl⟩
      | through said later =>
          have hreply := marks_receives later
          exact List.cons_prefix_cons.mpr ⟨rfl, List.cons_prefix_cons.mpr ⟨rfl, hreply⟩⟩

theorem marks_through (deadline : Option Time) (closed cleared : Except IoFailure Unit) :
    marks (opened deadline ++ (calls ++ released deadline closed cleared)) = marks calls := by
  have hopened : marks (opened deadline) = [] := by cases deadline <;> rfl
  have hreleased : marks (released deadline closed cleared) = [] := by cases deadline <;> rfl
  rw [marks_append, marks_append, hopened, hreleased, List.nil_append, List.append_nil]

theorem marks_converses {deadline : Option Time} {query : Query} {result : Except Failure Reply}
    (h : Converses deadline query calls result) :
    marks calls <+: [.write, .showQuery, .showReply] := by
  cases h with
  | refused e => exact List.nil_prefix
  | unbounded h e => exact List.nil_prefix
  | through closed cleared h =>
      rw [marks_through]
      exact marks_roundTrips h

theorem marks_begins {es fs : Calls} (h : Begins es fs) : marks es <+: marks fs := by
  have hmap (calls : Calls) : marks calls = (calls.map (·.request)).filterMap Request.mark? := by
    rw [List.filterMap_map]
    rfl
  rw [hmap, hmap]
  exact h.requests.filterMap _

theorem ordered_begins {deadline : Option Time} {query : Query} {es fs : Calls} (h : Begins es fs)
    (hfs : Ordered deadline query fs) : Ordered deadline query es := by
  intro before e later hes
  obtain ⟨a, more, rfl, hsame⟩ := h.split hes
  obtain ⟨hdue, hfails⟩ := hfs before _ more rfl
  refine ⟨hdue, fun hf => ?_⟩
  obtain ⟨b, hb, hrb⟩ := hf
  obtain ⟨rfl, hlater⟩ := hsame (by rw [hb]; rfl)
  exact hlater.requests.trans (hfails ⟨b, hb, hrb⟩)

end

end Talk

instance (r : Request) : Nonempty r.Answer :=
  ⟨r.unconnected .tcp⟩

namespace Exchange

variable {σ : Type}

theorem converses_of_live {around : Counterpart σ} {s : Scope} {patience : Option Time} {query : Query}
    {w : World σ} {result : Except Failure Reply}
    (live : s.failure (onConnection around s patience query w).world.tokens
      (onConnection around s patience query w).world.now = none)
    (h : (onConnection around s patience query w).ending = .finished result) :
    Talk.Converses s.deadline query (onConnection around s patience query w).events result := by
  rcases Task.finished_cases h with ⟨f, -, hf⟩ | hgoes
  · cases live.symm.trans hf
  · exact Talk.converses_of_goes hgoes

/-- The calls of a talk are made in order: they begin those that would be made if nothing gave the talk
up, and those of a talk that comes to its end. -/
structure InOrder (around : Counterpart σ) (s : Scope) (deadline : Option Time)
    (patience : Option Time) (query : Query) (w : World σ) (calls : Calls) : Prop where
  whole : ∃ full result, Talk.Converses deadline query full result ∧ Begins calls full
  ordered : Talk.Ordered deadline query calls
  once : Talk.marks calls <+: [.write, .showQuery, .showReply]
  begins : Begins calls
    ((Talk.converse deadline query).perform around .unbounded none w).events
  finished : ∀ result, s.failure w.tokens w.now = none →
    ((Talk.converse deadline query).perform around s patience w).ending = .finished result →
      calls = ((Talk.converse deadline query).perform around .unbounded none w).events ∧
        Talk.Converses deadline query calls result

theorem inOrder_onConnection (around : Counterpart σ) (s : Scope) (patience : Option Time)
    (query : Query) (w : World σ) :
    InOrder around s s.deadline patience query w (onConnection around s patience query w).events := by
  let t := Talk.converse s.deadline query
  let run := t.perform around s patience w
  have hrun : onConnection around s patience query w = t.runIn around s patience w := rfl
  obtain ⟨full, result, hgoes, hbegins⟩ := Task.begins_path around s patience t w
  have hfull := Talk.converses_of_goes hgoes
  have hcalls : (onConnection around s patience query w).events = [] ∨
      (onConnection around s patience query w).events = run.events := by
    cases hs : s.failure w.tokens w.now with
    | some f => exact .inl (by rw [hrun, Task.runIn_of_failure hs])
    | none => exact .inr (by rw [hrun, Task.runIn_of_live around patience t hs])
  have hnone (fs : Calls) : Begins [] fs := .none fs
  have hwhole : Begins (onConnection around s patience query w).events full := by
    rcases hcalls with h | h
    · rw [h]
      exact .none _
    · rw [h]
      exact hbegins
  refine ⟨⟨full, result, hfull, hwhole⟩, Talk.ordered_begins hwhole (Talk.ordered_of_converses hfull),
    (Talk.marks_begins hwhole).trans (Talk.marks_converses hfull), ?_, fun result hs hr => ?_⟩
  · rcases hcalls with h | h
    · rw [h]
      exact .none _
    · rw [h]
      exact Task.begins_unbounded around s patience t w
  · have hevents : (onConnection around s patience query w).events = run.events := by
      rw [hrun, Task.runIn_of_live around patience t hs]
    rw [hevents]
    exact ⟨Task.events_of_finished hr, Talk.converses_of_goes (Task.goes_of_finished hr)⟩

theorem events_close (around : Counterpart σ) (guard : Scope) (patience : Option Time)
    (run : Exchange σ) :
    ∃ closing, (close around guard patience run).events = run.events ++ closing ∧
      (closing = [] ∨ ∃ occasion a, closing = [⟨.closeConnection occasion, a⟩]) := by
  unfold close
  cases hr : run.ending with
  | hung => exact ⟨[], (List.append_nil _).symm, .inl rfl⟩
  | dropped => exact ⟨_, rfl, .inr ⟨_, _, rfl⟩⟩
  | finished a => simp only; split <;> exact ⟨_, rfl, .inr ⟨_, _, rfl⟩⟩
  | ended => simp only; split <;> exact ⟨_, rfl, .inr ⟨_, _, rfl⟩⟩

theorem closes_close (around : Counterpart σ) (guard : Scope) (patience : Option Time)
    (run : Exchange σ) :
    ∃ closing, (close around guard patience run).events = run.events ++ closing ∧
      ∀ e ∈ closing, e.request.closes = true := by
  obtain ⟨closing, hclose, rfl | ⟨occasion, a, rfl⟩⟩ := events_close around guard patience run
  · exact ⟨_, hclose, List.forall_mem_nil _⟩
  · exact ⟨_, hclose, List.forall_mem_singleton.mpr rfl⟩

theorem events_dial (around : Counterpart σ) (s : Scope) (patience : Option Time) (w : World σ) :
    (dial around s patience w).events = [] ∨ ∃ a, (dial around s patience w).events = [⟨.dial, a⟩] := by
  have hdial : dial around s patience w = (Task.ask Request.dial).runIn around s patience w := rfl
  cases hs : s.failure w.tokens w.now with
  | some f => exact .inl (by rw [hdial, Task.runIn_of_failure hs])
  | none =>
      rw [hdial, Task.runIn_of_live around patience _ hs]
      cases hf : Task.fate around s patience w .dial with
      | returns m => exact .inr ⟨_, by rw [Task.ask, Task.perform_of_returns hf]; rfl⟩
      | ended m => exact .inr ⟨_, by rw [Task.ask, Task.perform_of_ended hf]⟩
      | dropped n => exact .inr ⟨_, by rw [Task.ask, Task.perform_of_dropped hf]⟩
      | hangs => exact .inr ⟨_, by rw [Task.ask, Task.perform_of_hangs hf]⟩

section

variable {around : Counterpart σ} {s : Scope} {patience : Option Time} {w : World σ}

theorem dial_of_finished {dialed : Except Failure Unit}
    (h : (dial around s patience w).ending = .finished dialed) :
    (∃ f, dialed = .error f ∧ s.failure (dial around s patience w).world.tokens
        (dial around s patience w).world.now = some f) ∨
      (dial around s patience w).events = [.answered .dial dialed] := by
  refine (Task.finished_cases h).imp id fun hgoes => ?_
  change Task.Goes _ (Task.ask Request.dial) _ (dial around s patience w).events _ _ at hgoes
  generalize (dial around s patience w).events = events at hgoes ⊢
  cases hgoes with
  | call now later =>
      cases later
      rfl

theorem events_of_dialed (h : (dial around s patience w).ending = .finished (.ok ())) :
    (dial around s patience w).events = [.answered .dial (.ok ())] := by
  rcases dial_of_finished h with ⟨f, hf, -⟩ | hevents
  · cases hf
  · exact hevents

end

/-- Whether an exchange has a connection of its own or not, and however it ends, the calls that it makes on
its stream are made in order. -/
theorem calls_in_order (around : Counterpart σ) (s : Scope) (patience : Option Time) (query : Query)
    (w : World σ) :
    let dialed := dial around s patience w
    let run := dialing around s patience query w
    InOrder around s s.deadline patience query w (onConnection around s patience query w).events ∧
    (dialed.events = [] ∨ ∃ a, dialed.events = [⟨.dial, a⟩]) ∧
    (dialed.ending ≠ .finished (.ok ()) → run.events = dialed.events) ∧
    (dialed.ending = .finished (.ok ()) → ∃ calls closing,
      run.events = dialed.events ++ (calls ++ closing) ∧
        InOrder around (s.withCancel dialed.world.tokens) s.deadline patience query
          { dialed.world with tokens := dialed.world.tokens.make } calls ∧
        (closing = [] ∨ ∃ occasion a, closing = [⟨.closeConnection occasion, a⟩])) := by
  intro dialed run
  refine ⟨inOrder_onConnection around s patience query w, events_dial around s patience w, ?_, ?_⟩
  · exact events_of_undialed
  · intro h
    obtain ⟨-, -, hevents⟩ := dialing_of_dialed query h
    obtain ⟨closing, hclose, hclosing⟩ := events_close around (s.withCancel dialed.world.tokens)
      patience (talk around s patience query dialed.world)
    refine ⟨_, closing, hevents.trans (congrArg (dialed.events ++ ·) hclose), ?_, hclosing⟩
    exact inOrder_onConnection around (s.withCancel dialed.world.tokens) patience query _

theorem calls_in_order_unbounded :
    let around := { Script.steady with boundFailure := some .notConnected }.counterpart
    let w : World ScriptState := ⟨.sharp 0, ⟨1, []⟩, .start⟩
    let run := dialing around ⟨[0], some 80⟩ none ⟨".", 1, 0, 7, 0⟩ w
    run.events.map (·.request) =
        [.dial, .openStream, .setDeadline (some 80), .closeConnection .done] ∧
      ∃ calls closing,
        run.events = (dial around ⟨[0], some 80⟩ none w).events ++ (calls ++ closing) ∧
          Talk.Ordered (some 80) ⟨".", 1, 0, 7, 0⟩ calls := by
  intro around w run
  obtain ⟨calls, closing, hevents, hcalls, -⟩ :=
    (calls_in_order around ⟨[0], some 80⟩ none ⟨".", 1, 0, 7, 0⟩ w).2.2.2 rfl
  exact ⟨rfl, calls, closing, hevents, hcalls.ordered⟩

end Exchange

end DnsOverStreams
