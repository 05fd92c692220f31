import DnsOverStreams.Exchange.Script
import DnsOverStreams.Proofs.Exchange.Course
import DnsOverStreams.Proofs.Exchange.ScopeEnd
/-!
How often a connection is closed. Every exchange that dials is a course of itself and its helper, so the
connection is closed once, and not at all if there is none or if it belongs to the caller.
-/

namespace DnsOverStreams

namespace Course

variable {σ : Type} {around : Counterpart σ} {guard : Scope} {patience : Option Time}
variable {helper : Helper} {calls : List Request}

theorem Reaches.step {x y z : Course} (h : Reaches guard x y) (hs : Step guard y z) :
    Reaches guard x z :=
  Relation.ReflTransGen.tail h hs

theorem Reaches.trans {x y z : Course} (h : Reaches guard x y) (h' : Reaches guard y z) :
    Reaches guard x z :=
  Relation.ReflTransGen.trans h h'

theorem reaches_awaiting (guard : Scope) (helper : Helper) (calls : List Request) {r : Request}
    (next : r.Answer → Talk (Except Failure Reply)) {now m : Moment} {ts us : Tokens} (hm : now ≤ m)
    (hc : ∀ c ∈ ts.canceled, c ∈ us.canceled) :
    Reaches guard ⟨.talking (.call r next), helper, now, ts, calls⟩
      ⟨.awaiting r next, helper, m, us, calls ++ [r]⟩ :=
  (Relation.ReflTransGen.single .call).tail (.pass hm hc)

theorem perform_reaches (around : Counterpart σ) (guard : Scope) (patience : Option Time)
    (helper : Helper) (t : Talk (Except Failure Reply)) (w : World σ) (calls : List Request) :
    let run := Task.perform around guard patience t w
    ∃ stage, stage.Busy ∧ (∀ a, run.ending = .finished a → stage = .talking (.done a)) ∧
      Reaches guard ⟨.talking t, helper, w.now, w.tokens, calls⟩
        ⟨stage, helper, run.world.now, run.world.tokens, calls ++ run.events.map (·.request)⟩ := by
  -- the helper takes no step meanwhile: only the talk moves on, call by call
  induction t generalizing w calls with
  | done a =>
      refine ⟨.talking (.done a), trivial, ?_, ?_⟩
      · rintro _ ⟨⟩
        rfl
      · simp only [Task.perform, Task.performAfter, List.reverse_nil, List.map_nil, List.append_nil]
        exact .refl
  | call r next ih =>
      intro run
      cases hf : Task.fate around guard patience w r with
      | returns m =>
          have hrun : run = _ := Task.perform_of_returns hf
          obtain ⟨stage, hbusy, hdone, hreach⟩ :=
            ih _ (w.after (around w.now w.state r) m) (calls ++ [r])
          refine ⟨stage, hbusy, ?_, ?_⟩
          · rw [hrun]
            exact hdone
          · rw [hrun]
            have hmore (c) (hc : c ∈ w.tokens.canceled) :
                c ∈ (w.after (around w.now w.state r) m).tokens.canceled :=
              Tokens.mem_cancelAll.mpr (.inl hc)
            have hwait := reaches_awaiting guard helper calls next (Fate.of_eq_returns hf).1 hmore
            simpa using (hwait.step (.answer _)).trans hreach
      | ended m =>
          have hrun : run = _ := Task.perform_of_ended hf
          refine ⟨.awaiting r next, trivial, ?_, ?_⟩
          · rw [hrun]
            rintro a ⟨⟩
          · rw [hrun]
            obtain ⟨e, -, rfl⟩ := Fate.of_eq_ended hf
            exact reaches_awaiting guard helper calls next Moment.le_max_settle fun _ hc => hc
      | dropped n =>
          have hrun : run = _ := Task.perform_of_dropped hf
          refine ⟨.awaiting r next, trivial, ?_, ?_⟩
          · rw [hrun]
            rintro a ⟨⟩
          · rw [hrun]
            exact reaches_awaiting guard helper calls next (Fate.of_eq_dropped hf) fun _ hc => hc
      | hangs =>
          have hrun : run = _ := Task.perform_of_hangs hf
          refine ⟨.awaiting r next, trivial, ?_, ?_⟩
          · rw [hrun]
            rintro a ⟨⟩
          · rw [hrun]
            exact reaches_awaiting guard helper calls next (Moment.le_refl _) fun _ hc => hc

def standing (guard : Scope) (helper : Helper) (calls : List Request) (run : Exchange σ) :
    Ending (Except Failure Reply) → Course → Prop
  | .finished result, x =>
      x = ⟨.leaving result, helper, run.world.now, guard.cancel run.world.tokens run.world.now, calls⟩
  | .dropped, x =>
      x = ⟨.dropped, helper, run.world.now, guard.cancel run.world.tokens run.world.now, calls⟩
  | .hung, x => ∃ stage, x = ⟨stage, helper, run.world.now, run.world.tokens, calls⟩
  | .ended, _ => False

theorem runIn_reaches (around : Counterpart σ) (guard : Scope) (patience : Option Time)
    (helper : Helper) (calls : List Request) (t : Talk (Except Failure Reply)) (w : World σ) :
    let run := Task.runIn around guard patience t w
    ∃ x, standing guard helper (calls ++ run.events.map (·.request)) run run.ending x ∧
      Reaches guard ⟨.talking t, helper, w.now, w.tokens, calls⟩ x := by
  intro run
  cases hw : guard.failure w.tokens w.now with
  | some f =>
      have hrun : run = _ := Task.runIn_of_failure hw
      rw [hrun]
      refine ⟨_, rfl, ?_⟩
      simp only [List.map_nil, List.append_nil]
      exact .single (.giveUp trivial hw)
  | none =>
      obtain ⟨stage, hbusy, hdone, hreach⟩ :=
        perform_reaches around guard patience helper t w calls
      have hrun : run = _ := Task.runIn_of_live around patience t hw
      rw [hrun]
      dsimp only
      cases hr : (Task.perform around guard patience t w).ending with
      | finished result =>
          cases hdone result hr
          exact ⟨_, rfl, hreach.step .finish⟩
      | ended =>
          obtain ⟨f, hf⟩ := Option.isSome_iff_exists.mp (Task.failure_of_ended hr)
          refine ⟨_, ?_, hreach.step (.giveUp hbusy hf)⟩
          simp only [Scope.ending, hf, Option.getD_some]
          rfl
      | dropped => exact ⟨_, rfl, hreach.step (.drop hbusy.isOpen)⟩
      | hung => exact ⟨_, ⟨stage, rfl⟩, hreach⟩

def Settled : Ending (Except Failure Reply) → Course → Prop
  | .finished result, x => x.stage = .returned result
  | .dropped, x => x.stage = .dropped ∧ x.helper = .gone
  | .hung, _ => True
  | .ended, _ => False

theorem reaches_closing (hg : guard.tokens ≠ []) (stage : Stage) (now : Moment) (ts : Tokens)
    (calls : List Request) (occasion : Occasion) :
    Reaches guard ⟨stage, .waiting, now, guard.cancel ts now, calls⟩
      ⟨stage, .closing, now, guard.cancel ts now, calls ++ [.closeConnection occasion]⟩ :=
  .single (.wake occasion (Scope.failure_cancel_isSome hg ts now))

theorem close_reaches (around : Counterpart σ) (patience : Option Time) (hg : guard.tokens ≠ [])
    {run : Exchange σ} {x : Course}
    (hx : standing guard .waiting (run.events.map (·.request)) run run.ending x) :
    let closed := Exchange.close around guard patience run
    ∃ y, Settled closed.ending y ∧ y.calls = closed.events.map (·.request) ∧ Reaches guard x y := by
  intro closed
  let occasion := Exchange.occasion guard run.world.now
  have hwake (stage : Stage) := reaches_closing hg stage run.world.now run.world.tokens
    (run.events.map (·.request)) occasion
  cases hr : run.ending with
  | ended => rw [hr] at hx; exact hx.elim
  | hung =>
      rw [hr] at hx
      obtain ⟨stage, rfl⟩ := hx
      have hclosed : closed = run := by simp only [closed, Exchange.close, hr]
      rw [hclosed, hr]
      exact ⟨_, trivial, rfl, .refl⟩
  | dropped =>
      rw [hr] at hx
      cases hx
      simp only [closed, Exchange.close, hr]
      refine ⟨_, ⟨rfl, rfl⟩, ?_, (hwake .dropped).step .closed⟩
      rw [List.map_append]
      rfl
  | finished result =>
      rw [hr] at hx
      cases hx
      simp only [closed, Exchange.close, hr]
      cases hf : Fate.of none patience run.world.now (Exchange.waiting
          (around run.world.now run.world.state (.closeConnection occasion)).delay) with
      | returns m =>
          dsimp only
          have hclose := (hwake (.leaving result)).step .closed
          refine ⟨_, ?_, ?_, hclose.step .leave⟩
          · rfl
          · rw [List.map_append]
            rfl
      | ended m =>
          -- no scope bounds the closing
          obtain ⟨e, ⟨⟩, -⟩ := Fate.of_eq_ended hf
      | dropped n =>
          dsimp only
          have hdrop := (hwake (.leaving result)).step (.drop trivial)
          refine ⟨_, ⟨rfl, rfl⟩, ?_, hdrop.step .closed⟩
          rw [List.map_append]
          rfl
      | hangs =>
          dsimp only
          refine ⟨_, trivial, ?_, hwake (.leaving result)⟩
          rw [List.map_append]
          rfl

theorem work_reaches (around : Counterpart σ) (s : Scope) (patience : Option Time) (query : Query)
    (w : World σ) :
    let worked := Exchange.work around s patience query w
    ∃ x, Settled worked.ending x ∧ x.calls = worked.events.map (·.request) ∧
      Reaches (s.withCancel w.tokens) (start s query w.now w.tokens) x := by
  obtain ⟨x, hstanding, htalk⟩ := runIn_reaches around (s.withCancel w.tokens) patience .waiting []
    (Talk.converse s.deadline query) { w with tokens := w.tokens.make }
  obtain ⟨y, hsettled, hcalls, hclose⟩ := close_reaches around patience (List.cons_ne_nil _ _)
    hstanding
  exact ⟨y, hsettled, hcalls, htalk.trans hclose⟩

theorem start_sound (s : Scope) (query : Query) (now : Moment) (ts : Tokens) :
    (start s query now ts).Sound guard :=
  ⟨Talk.converse_inTalk s.deadline query, rfl, .inl ⟨trivial, rfl⟩, fun _ h => by cases h⟩

theorem sound_of_start {s : Scope} {query : Query} {now : Moment} {ts : Tokens} {x : Course}
    (h : Reaches (s.withCancel ts) (start s query now ts) x) : x.Sound (s.withCancel ts) :=
  (start_sound s query now ts).reaches (List.cons_ne_nil _ _) h

end Course

namespace Exchange

variable {σ : Type} {around : Counterpart σ} {s : Scope} {patience : Option Time}
variable {query : Query} {w : World σ}

def timesClosed (run : Exchange σ) : Nat :=
  closings (run.events.map (·.request))

theorem closings_of_only {α : Type} {run : Run σ Request Request.Answer α}
    (h : ∀ e ∈ run.events, e.request.closes = false) :
    closings (run.events.map (·.request)) = 0 := by
  refine List.countP_eq_zero.mpr fun r hr => ?_
  obtain ⟨e, he, rfl⟩ := List.mem_map.mp hr
  exact Bool.eq_false_iff.mp (h e he)

theorem timesClosed_onConnection : timesClosed (onConnection around s patience query w) = 0 :=
  closings_of_only fun e he =>
    ((Talk.converse_inTalk s.deadline query).runIn_events e he).not_closes

theorem closings_dial :
    closings ((dial around s patience w).events.map (·.request)) = 0 := by
  have hd : (Task.ask (A := Request.Answer) Request.dial).Only (·.closes = false) :=
    ⟨rfl, fun _ => trivial⟩
  exact closings_of_only fun e he => hd.runIn_events e he

theorem timesClosed_of_undialed (h : (dial around s patience w).ending ≠ .finished (.ok ())) :
    timesClosed (dialing around s patience query w) = 0 := by
  rw [timesClosed, events_of_undialed h]
  exact closings_dial

theorem timesClosed_of_dialed (h : (dial around s patience w).ending = .finished (.ok ())) :
    timesClosed (dialing around s patience query w) ≤ 1 ∧
      ((dialing around s patience query w).ending ≠ .hung →
        timesClosed (dialing around s patience query w) = 1) := by
  obtain ⟨hending, -, hevents⟩ := dialing_of_dialed query h
  obtain ⟨x, hsettled, hcalls, hreach⟩ :=
    Course.work_reaches around s patience query (dial around s patience w).world
  have hsound := Course.sound_of_start hreach
  have htimes : timesClosed (dialing around s patience query w) = closings x.calls := by
    rw [timesClosed, hevents, List.map_append, closings_append, closings_dial, Nat.zero_add, hcalls]
  rw [htimes]
  refine ⟨hsound.closings_le_one, fun hne => hsound.closings_eq_one ?_⟩
  rw [← hending] at hsettled
  cases hr : (dialing around s patience query w).ending with
  | finished result =>
      rw [hr] at hsettled
      rw [hsound.returned result hsettled]
      simp
  | ended => rw [hr] at hsettled; exact hsettled.elim
  | dropped => rw [hr] at hsettled; rw [hsettled.2]; simp
  | hung => exact absurd hr hne

/-- A connection of the caller is never closed. One that was dialed is closed once: before the exchange
returns, or when the helper of an exchange that was dropped wakes up, as it can at any time. -/
theorem connection_closed_once (around : Counterpart σ) (s : Scope) (patience : Option Time)
    (query : Query) (w : World σ) :
    let dialed := dial around s patience w
    let run := dialing around s patience query w
    let guard := s.withCancel dialed.world.tokens
    timesClosed (onConnection around s patience query w) = 0 ∧
    (dialed.ending ≠ .finished (.ok ()) → timesClosed run = 0) ∧
    (dialed.ending = .finished (.ok ()) →
      timesClosed run ≤ 1 ∧ (run.ending ≠ .hung → timesClosed run = 1)) ∧
    ∀ x, Course.Reaches guard (.start s query dialed.world.now dialed.world.tokens) x →
      closings x.calls ≤ 1 ∧
      (∀ result, x.stage = .returned result → x.helper = .gone ∧ closings x.calls = 1) ∧
      (x.helper ≠ .waiting → closings x.calls = 1) ∧
      (x.stage = .dropped → x.helper = .waiting →
        closings x.calls = 0 ∧
          ∃ y, Course.Step guard x y ∧ y.helper = .closing ∧ closings y.calls = 1) := by
  intro dialed run guard
  refine ⟨timesClosed_onConnection, timesClosed_of_undialed, timesClosed_of_dialed, fun x hx => ?_⟩
  have hsound := Course.sound_of_start hx
  refine ⟨hsound.closings_le_one, fun result hr => ?_, hsound.closings_eq_one, fun hd hh => ?_⟩
  · have hgone := hsound.returned result hr
    exact ⟨hgone, hsound.closings_eq_one (by simp [hgone])⟩
  · refine ⟨by rw [hsound.closings, if_pos hh], ?_⟩
    have hidle : ¬ x.stage.Busy := by
      rw [hd]
      exact id
    obtain ⟨y, hstep, hclosing⟩ := hsound.wakes hidle hh
    have hy := hsound.step (List.cons_ne_nil _ _) hstep
    exact ⟨y, hstep, hclosing, hy.closings_eq_one (by simp [hclosing])⟩

theorem connection_closed_once_unopened :
    let around := { Script.steady with openDelay := .never }.counterpart
    let run := dialing around ⟨[0], none⟩ (some 50) ⟨".", 1, 0, 7, 0⟩ ⟨.sharp 0, ⟨1, []⟩, .start⟩
    run.ending = .dropped ∧ timesClosed run = 1 := by
  intro around run
  have hdropped : run.ending = .dropped := rfl
  have h := (connection_closed_once around ⟨[0], none⟩ (some 50) ⟨".", 1, 0, 7, 0⟩
    ⟨.sharp 0, ⟨1, []⟩, .start⟩).2.2.1 rfl
  exact ⟨hdropped, h.2 (by rw [hdropped]; simp)⟩

end Exchange

end DnsOverStreams
