import DnsOverStreams.Exchange.Script
import DnsOverStreams.Proofs.Task.Run
/-!
Exchanges whose scope ends. Whatever is waited for is given up at that time, and the exchange then fails
as its scope did, not as the dialing, the talk or the stream would have failed.
-/

namespace DnsOverStreams

def Script.steady : Script where
  protocol := some .tcp
  dialDelay := .atOnce
  dialFailure := none
  openDelay := .atOnce
  openRefused := false
  boundFailure := none
  unboundFailure := none
  writeDelay := .atOnce
  writeHangs := false
  writeFailure := none
  shortBy := 0
  reply := ⟨⟨none, none, 0, 0x8180, [], .echo, [], [], [], [], 0⟩, none, false, 0, []⟩
  readDelay := .atOnce
  hangAfter := none
  readFailure := none
  chunk := none
  streamCloseFailure := none
  closeFailure := none
  closeBreaksDown := false
  cancelOnQuery := []
  cancelOnReply := []

namespace Delay

theorem duration_waiting (d : Delay) : (Exchange.waiting d).duration? = d.duration? := by
  cases d <;> rfl

theorem waiting_ne_atOnce (d : Delay) : Exchange.waiting d ≠ .atOnce := by
  cases d <;> simp [Exchange.waiting]

end Delay

namespace Exchange

variable {σ : Type} {around : Counterpart σ} {s guard : Scope} {patience : Option Time}
variable {query : Query} {w v : World σ}

/-- The world when the dialing has failed or, if it has not, when the talk is over. -/
def stopped (around : Counterpart σ) (s : Scope) (patience : Option Time) (query : Query)
    (w : World σ) : World σ :=
  let dialed := dial around s patience w
  match dialed.ending with
  | .finished (.ok ()) => (talk around s patience query dialed.world).world
  | _ => dialed.world

/-- How long the connection takes to be closed after the work on it has stopped. -/
def closingTime (around : Counterpart σ) (s : Scope) (v : World σ) : Option Nat :=
  (around v.now v.state (.closeConnection (occasion s v.now))).delay.duration?

/-- Nobody but its maker can cancel the token that is made next. -/
structure Private (around : Counterpart σ) (w : World σ) : Prop where
  world : w.tokens.Spare w.tokens.fresh
  calls : Surroundings.Spare around w.tokens.fresh

/-- The talk of the exchange has made a call, in a world in which it waits for the answer. -/
def Talking (around : Counterpart σ) (s : Scope) (patience : Option Time) (query : Query)
    (w : World σ) (r : Request) (v : World σ) : Prop :=
  let dialed := (dial around s patience w).world
  let start : World σ := { dialed with tokens := dialed.tokens.make }
  let guard := s.withCancel dialed.tokens
  (dial around s patience w).ending = .finished (.ok ()) ∧
    guard.failure start.tokens start.now = none ∧
    ∃ next, Task.Reaches around guard patience (Talk.converse s.deadline query) start
      (.call r next) v

theorem close_eq_finished {run : Exchange σ} {result : Except Failure Reply}
    (h : (close around guard patience run).ending = .finished result) :
    run.ending = .finished result := by
  unfold close at h
  cases hr : run.ending with
  | finished a =>
      simp only [hr] at h
      split at h <;> cases h <;> rfl
  | ended =>
      simp only [hr] at h
      split at h <;> cases h
  | dropped => simp only [hr] at h; cases h
  | hung => simp only [hr] at h; cases h

theorem close_of_finished (guard : Scope) {run : Exchange σ} {result : Except Failure Reply}
    {ms : Nat}
    (h : run.ending = .finished result) (hms : closingTime around guard run.world = some ms)
    (hp : ∀ p ∈ patience, run.world.now.time + ms < p) :
    (close around guard patience run).ending = .finished result ∧
      (close around guard patience run).world.now.time = run.world.now.time + ms := by
  let d := (around run.world.now run.world.state
    (.closeConnection (occasion guard run.world.now))).delay
  have hd : (waiting d).duration? = some ms := (Delay.duration_waiting d).trans hms
  obtain ⟨m, hm⟩ := Delay.finish_of_duration hd run.world.now
  have htime : m.time = run.world.now.time + ms := Delay.time_finish hd hm
  have hf : Fate.of none patience run.world.now (waiting d) = .returns m :=
    Fate.of_eq_returns_of_patient (Delay.waiting_ne_atOnce d) hm (by rwa [htime])
  unfold close
  simp only [h, d] at hf ⊢
  simp only [hf]
  exact ⟨trivial, htime⟩

theorem mem_close {run : Exchange σ} {e : Event Request Request.Answer} (h : e ∈ run.events) :
    e ∈ (close around guard patience run).events := by
  unfold close
  cases hr : run.ending with
  | hung => exact h
  | dropped => exact List.mem_append_left _ h
  | finished a => simp only; split <;> exact List.mem_append_left _ h
  | ended => simp only; split <;> exact List.mem_append_left _ h

theorem made_dial : (dial around s patience w).world.tokens.made = w.tokens.made :=
  Task.made_runIn

theorem Private.spare_dial (h : Private around w) :
    (dial around s patience w).world.tokens.Spare (dial around s patience w).world.tokens.fresh := by
  unfold Tokens.fresh
  rw [made_dial]
  exact Task.spare_runIn h.calls h.world

theorem Private.calls_dial (h : Private around w) :
    Surroundings.Spare around (dial around s patience w).world.tokens.fresh := by
  unfold Tokens.fresh
  rw [made_dial]
  exact h.calls

theorem Private.spare_talk (h : Private around w) :
    (talk around s patience query (dial around s patience w).world).world.tokens.Spare
      (dial around s patience w).world.tokens.fresh :=
  Task.spare_runIn h.calls_dial h.spare_dial

theorem dialing_of_dialed (query : Query) (h : (dial around s patience w).ending = .finished (.ok ())) :
    (dialing around s patience query w).ending =
        (work around s patience query (dial around s patience w).world).ending ∧
      (dialing around s patience query w).world =
        (work around s patience query (dial around s patience w).world).world ∧
      (dialing around s patience query w).events = (dial around s patience w).events ++
        (work around s patience query (dial around s patience w).world).events := by
  unfold dialing
  simp only [h]
  exact ⟨trivial, trivial, trivial⟩

theorem dialing_of_failed {e : Failure} (query : Query)
    (h : (dial around s patience w).ending = .finished (.error e)) :
    (dialing around s patience query w).ending = .finished (.error e) ∧
      (dialing around s patience query w).world = (dial around s patience w).world ∧
      (dialing around s patience query w).events = (dial around s patience w).events := by
  unfold dialing
  simp only [h]
  exact ⟨trivial, trivial, trivial⟩

theorem events_of_undialed (h : (dial around s patience w).ending ≠ .finished (.ok ())) :
    (dialing around s patience query w).events = (dial around s patience w).events := by
  cases hd : (dial around s patience w).ending with
  | finished result =>
      cases result with
      | ok _ => exact absurd hd h
      | error e => exact (dialing_of_failed query hd).2.2
  | _ => simp only [dialing, hd]

theorem stopped_of_dialed (query : Query)
    (h : (dial around s patience w).ending = .finished (.ok ())) :
    stopped around s patience query w =
      (talk around s patience query (dial around s patience w).world).world := by
  unfold stopped
  simp only [h]

theorem stopped_of_failed {e : Failure} (query : Query)
    (h : (dial around s patience w).ending = .finished (.error e)) :
    stopped around s patience query w = (dial around s patience w).world := by
  unfold stopped
  simp only [h]

theorem dialing_error {e f : Failure} (h : Private around w)
    (he : (dialing around s patience query w).ending = .finished (.error e))
    (hf : s.failure (stopped around s patience query w).tokens
      (stopped around s patience query w).now = some f) : e = f := by
  cases hd : (dial around s patience w).ending with
  | finished result =>
      cases result with
      | error g =>
          rw [(dialing_of_failed query hd).1] at he
          rw [stopped_of_failed query hd] at hf
          cases he
          exact Task.runIn_error hd hf
      | ok _ =>
          rw [(dialing_of_dialed query hd).1] at he
          rw [stopped_of_dialed query hd] at hf
          refine Task.runIn_error (close_eq_finished he) ?_
          rw [← hf]
          exact Scope.failure_withCancel h.spare_talk
  | ended => unfold dialing at he; simp only [hd] at he; cases he
  | dropped => unfold dialing at he; simp only [hd] at he; cases he
  | hung => unfold dialing at he; simp only [hd] at he; cases he

theorem dialing_of_cutShort_dial {e : Moment} (hw : s.failure w.tokens w.now = none)
    (h : Task.CutShort around s patience w .dial e) :
    (dialing around s patience query w).world.now.time = e.time ∧
      ⟨.dial, none⟩ ∈ (dialing around s patience query w).events ∧
      ∃ f, s.failure (stopped around s patience query w).tokens
          (stopped around s patience query w).now = some f ∧
        (dialing around s patience query w).ending = .finished (.error f) := by
  obtain ⟨htime, hmem, f, hf, hending⟩ := Task.runIn_of_cutShort hw (.here (.ask Request.dial) w) h
  have hdial : (dial around s patience w).ending = .finished (.error f) := hending
  obtain ⟨hending', hworld', hevents'⟩ := dialing_of_failed query hdial
  rw [hending', hworld', hevents', stopped_of_failed query hdial]
  exact ⟨htime, hmem, f, hf, rfl⟩

theorem dialing_of_cutShort_talk {e : Moment} {r : Request} (h : Private around w)
    (ht : Talking around s patience query w r v) (hc : Task.CutShort around s patience v r e) :
    (stopped around s patience query w).now.time = e.time ∧
      ⟨r, none⟩ ∈ (dialing around s patience query w).events ∧
      ∀ ms, closingTime around s (stopped around s patience query w) = some ms →
        (∀ p ∈ patience, e.time + ms < p) →
        (dialing around s patience query w).world.now.time = e.time + ms ∧
          ∃ f, s.failure (stopped around s patience query w).tokens
              (stopped around s patience query w).now = some f ∧
            (dialing around s patience query w).ending = .finished (.error f) := by
  obtain ⟨hd, hlive, next, hreach⟩ := ht
  have hspare := hreach.spare h.calls_dial h.spare_dial
  have hcut := { hc with ends := (Scope.endsAt_withCancel hspare).trans hc.ends }
  obtain ⟨htime, hmem, f, hf, hending⟩ := Task.runIn_of_cutShort hlive hreach hcut
  have hfailure := (Scope.failure_withCancel h.spare_talk).symm.trans hf
  obtain ⟨hending', hworld', hevents'⟩ := dialing_of_dialed query hd
  rw [stopped_of_dialed query hd, hending', hworld', hevents']
  refine ⟨htime, List.mem_append_right _ (mem_close hmem), fun ms hms hp => ?_⟩
  obtain ⟨hclosed, hnow⟩ := close_of_finished
    (s.withCancel (dial around s patience w).world.tokens) hending hms
    (fun p hmem => htime ▸ hp p hmem)
  exact ⟨hnow.trans (congrArg (· + ms) htime), f, hfailure, hclosed⟩

/-- An exchange that fails although its scope had ended when the dialing or the talk stopped fails as
the scope did; and what is waited for when the scope ends is given up at that time. -/
theorem dialing_fails_as_scope (h : Private around w) (s : Scope) (patience : Option Time)
    (query : Query) :
    (∀ e, (dialing around s patience query w).ending = .finished (.error e) →
      let v := stopped around s patience query w
      (s.isCanceled v.tokens v.now = true → e = .canceled) ∧
        (s.isCanceled v.tokens v.now = false → s.isExpired v.now = true → e = .deadlineExceeded) ∧
        (e = .timeout → s.isExpired v.now = false)) ∧
    (∀ e, s.failure w.tokens w.now = none → Task.CutShort around s patience w .dial e →
      (dialing around s patience query w).world.now.time = e.time ∧
        ⟨.dial, none⟩ ∈ (dialing around s patience query w).events ∧
        ∃ f, s.failure (stopped around s patience query w).tokens
            (stopped around s patience query w).now = some f ∧
          (dialing around s patience query w).ending = .finished (.error f)) ∧
    ∀ r v e, Talking around s patience query w r v → Task.CutShort around s patience v r e →
      (stopped around s patience query w).now.time = e.time ∧
        ⟨r, none⟩ ∈ (dialing around s patience query w).events ∧
        ∀ ms, closingTime around s (stopped around s patience query w) = some ms →
          (∀ p ∈ patience, e.time + ms < p) →
          (dialing around s patience query w).world.now.time = e.time + ms ∧
            ∃ f, s.failure (stopped around s patience query w).tokens
                (stopped around s patience query w).now = some f ∧
              (dialing around s patience query w).ending = .finished (.error f) := by
  refine ⟨fun e he => ?_, fun e hw hc => dialing_of_cutShort_dial hw hc,
    fun r v e ht hc => dialing_of_cutShort_talk h ht hc⟩
  intro v
  have hcanceled (hc : s.isCanceled v.tokens v.now = true) : e = .canceled :=
    dialing_error h he (if_pos hc)
  have hexpired (hc : s.isCanceled v.tokens v.now = false) (hd : s.isExpired v.now = true) :
      e = .deadlineExceeded := by
    refine dialing_error h he ?_
    change Scope.failure s v.tokens v.now = _
    rw [Scope.failure, hc, hd]
    rfl
  refine ⟨hcanceled, hexpired, ?_⟩
  rintro rfl
  cases hd : s.isExpired v.now with
  | false => rfl
  | true =>
      cases hc : s.isCanceled v.tokens v.now with
      | false => cases hexpired hc hd
      | true => cases hcanceled hc

theorem private_script {script : Script} (hq : script.cancelOnQuery = [])
    (hr : script.cancelOnReply = []) (now : Moment) (made : Nat) (st : ScriptState) :
    Private script.counterpart ⟨now, ⟨made, []⟩, st⟩ := by
  refine ⟨by simp [Tokens.Spare], fun m st r => ?_⟩
  cases r with
  | setDeadline d => cases d <;> simp [Script.counterpart, Call.instant]
  | write frame => simp only [Script.counterpart, Script.write, Script.plain]; split <;> simp
  | read room => simp only [Script.counterpart, Script.read, Script.plain]; split <;> simp
  | _ => simp [Script.counterpart, Call.instant, Script.plain, hq, hr]

theorem answered_script {script : Script} (hd : script.dialDelay ≠ .never) (ho : script.openDelay ≠ .never)
    (hw : script.writeHangs = false ∧ script.writeDelay ≠ .never)
    (hr : script.hangAfter = none ∧ script.readDelay ≠ .never) (now : Moment) (st : ScriptState)
    (r : Request) : (script.counterpart now st r).delay ≠ .never := by
  cases r with
  | dial => exact hd
  | openStream => exact ho
  | setDeadline d => cases d <;> exact Delay.noConfusion
  | write frame =>
      simp only [Script.counterpart, Script.write, Script.plain, hw.1]
      split <;> exact hw.2
  | read room =>
      simp only [Script.counterpart, Script.read, Script.plain, hr.1, Option.any_none]
      split <;> exact hr.2
  | _ => exact Delay.noConfusion

theorem dialing_fails_as_scope_unopened :
    let around := { Script.steady with openDelay := .never }.counterpart
    let run := dialing around ⟨[0], some 100⟩ none ⟨".", 1, 0, 7, 0⟩ ⟨.sharp 0, ⟨1, []⟩, .start⟩
    run.world.now.time = 100 ∧ run.ending = .finished (.error .deadlineExceeded) := by
  intro around run
  have hp : Private around ⟨.sharp 0, ⟨1, []⟩, ScriptState.start⟩ :=
    private_script rfl rfl _ _ _
  have h := (dialing_fails_as_scope hp ⟨[0], some 100⟩ none ⟨".", 1, 0, 7, 0⟩).2.2
  have hc : Task.CutShort around ⟨[0], some 100⟩ none ⟨.sharp 0, ⟨2, []⟩, .start⟩ .openStream
      (.sharp 100) := by
    refine ⟨trivial, rfl, ?_, ?_⟩
    · rintro f ⟨⟩
    · rintro p ⟨⟩
  obtain ⟨-, -, h⟩ := h .openStream ⟨.sharp 0, ⟨2, []⟩, .start⟩ (.sharp 100)
    ⟨rfl, rfl, _, .here _ _⟩ hc
  obtain ⟨hnow, f, hf, hending⟩ := h 0 rfl (by rintro p ⟨⟩)
  cases hf
  exact ⟨hnow, hending⟩

end Exchange

end DnsOverStreams
