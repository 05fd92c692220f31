import DnsOverStreams.Exchange.Script
import DnsOverStreams.Proofs.Exchange.ScopeEnd
import DnsOverStreams.Proofs.Exchange.Series
import DnsOverStreams.Proofs.Exchange.Spoken
import DnsOverStreams.Proofs.Scope.Failing
import DnsOverStreams.Proofs.Task.Canceling
/-!
Exchanges and the scopes of their callers. Every exchange that dials cancels a scope derived from that of
its caller. Nobody else notices: an exchange fails as canceled or as too late only if the scope of its
caller has ended, and scopes fail as they would if there had been no exchange.
-/

namespace DnsOverStreams

namespace Tokens

def Unborn (ts : Tokens) : Prop :=
  ∀ t, ts.made ≤ t → ts.Spare t

/-- Of the tokens below a bound those have been canceled that were told, and no others. -/
structure Since (bound : Token) (told : List (Token × Moment)) (ts us : Tokens) : Prop where
  made : ts.made ≤ us.made
  canceled : ∀ c : Token × Moment, c.1 < bound → (c ∈ us.canceled ↔ c ∈ told ∨ c ∈ ts.canceled)

namespace Since

variable {bound : Token} {told more : List (Token × Moment)} {ts us vs : Tokens}

theorem refl (bound : Token) (ts : Tokens) : Since bound [] ts ts :=
  ⟨Nat.le_refl _, fun c _ => by simp⟩

theorem trans (h : Since bound told ts us) (h' : Since bound more us vs) :
    Since bound (more ++ told) ts vs := by
  refine ⟨Nat.le_trans h.made h'.made, fun c hc => ?_⟩
  rw [h'.canceled c hc, h.canceled c hc, List.mem_append, or_assoc]

theorem cancelAll (h : Since bound told ts us) (canceled : List Token) (m : Moment) :
    Since bound (canceled.map (fun t => (t, m)) ++ told) ts (us.cancelAll canceled m) := by
  refine h.trans ⟨Nat.le_of_eq (made_cancelAll us canceled m).symm, fun c _ => ?_⟩
  obtain ⟨t, e⟩ := c
  rw [mem_cancelAll, or_comm]
  simp [eq_comm]

theorem isCanceled (h : Since bound told ts us) {s : Scope} (hs : ∀ t ∈ s.tokens, t < bound)
    (m : Moment) :
    s.isCanceled us m = s.isCanceled { ts with canceled := told ++ ts.canceled } m := by
  rw [Bool.eq_iff_iff]
  simp only [Scope.isCanceled, Tokens.isCanceled, List.any_eq_true, Bool.and_eq_true, beq_iff_eq,
    decide_eq_true_eq]
  refine exists_congr fun t => and_congr_right fun ht => exists_congr fun c => ?_
  refine and_congr_left fun hc => ?_
  rw [h.canceled c (hc.1 ▸ hs t ht), List.mem_append]

end Since

end Tokens

namespace Scope

variable {s : Scope} {ts : Tokens} {m : Moment}

theorem canceled_of_failure (h : s.failure ts m = some .canceled) :
    ∃ t ∈ s.tokens, ∃ e, (t, e) ∈ ts.canceled ∧ e ≤ m := by
  unfold failure at h
  split at h
  · rename_i hc
    simp only [isCanceled, Tokens.isCanceled, List.any_eq_true, Bool.and_eq_true, beq_iff_eq,
      decide_eq_true_eq] at hc
    obtain ⟨t, ht, c, hc, rfl, hle⟩ := hc
    exact ⟨c.1, ht, c.2, hc, hle⟩
  · split at h <;> cases h

theorem expired_of_failure (h : s.failure ts m = some .deadlineExceeded) :
    ∃ d, s.deadline = some d ∧ d ≤ m.time := by
  unfold failure at h
  split at h
  · cases h
  · split at h
    · rename_i hx
      cases hd : s.deadline with
      | none => simp [isExpired, hd] at hx
      | some d => exact ⟨d, rfl, by simpa [isExpired, hd] using hx⟩
    · cases h

end Scope

namespace Exchange

variable {σ : Type} {around : Counterpart σ} {s guard : Scope} {patience : Option Time}
variable {query : Query} {w : World σ} {bound : Token} {t : Token}

def toldClosing (around : Counterpart σ) (guard : Scope) (patience : Option Time)
    (run : Exchange σ) : List (Token × Moment) :=
  let c := around run.world.now run.world.state
    (.closeConnection (occasion guard run.world.now))
  let closed := close around guard patience run
  match closed.ending with
  | .hung => []
  | _ => c.cancels.map fun t => (t, closed.world.now)

def told (around : Counterpart σ) (s : Scope) (patience : Option Time) (query : Query)
    (w : World σ) : List (Token × Moment) :=
  let dialed := dial around s patience w
  let first := (Task.ask Request.dial).toldIn around s patience w
  match dialed.ending with
  | .finished (.ok ()) =>
      let guard := s.withCancel dialed.world.tokens
      toldClosing around guard patience (talk around s patience query dialed.world) ++
        ((Talk.converse s.deadline query).toldIn around guard patience
          { dialed.world with tokens := dialed.world.tokens.make } ++ first)
  | _ => first

theorem since_runIn {α : Type} (bound : Token) (t : Task Request Request.Answer (Except Failure α)) :
    Tokens.Since bound (t.toldIn around s patience w) w.tokens
      (t.runIn around s patience w).world.tokens :=
  ⟨Nat.le_of_eq Task.made_runIn.symm, fun c _ => by rw [Task.canceled_runIn, List.mem_append]⟩

theorem tokens_close (around : Counterpart σ) (guard : Scope) (patience : Option Time)
    (run : Exchange σ) :
    let c := around run.world.now run.world.state
      (.closeConnection (occasion guard run.world.now))
    let closed := close around guard patience run
    let tokens := guard.cancel run.world.tokens run.world.now
    closed.ending = .hung ∧ (closed.world.tokens = run.world.tokens ∨ closed.world.tokens = tokens) ∨
      closed.ending ≠ .hung ∧ closed.world.tokens = tokens.cancelAll c.cancels closed.world.now := by
  intro c closed tokens
  unfold closed close
  cases hr : run.ending with
  | hung => exact .inl ⟨hr, .inl rfl⟩
  | dropped => exact .inr ⟨nofun, rfl⟩
  | finished a =>
      dsimp only
      split
      case h_4 => exact .inl ⟨rfl, .inr rfl⟩
      all_goals exact .inr ⟨nofun, rfl⟩
  | ended =>
      dsimp only
      split
      case h_4 => exact .inl ⟨rfl, .inr rfl⟩
      all_goals exact .inr ⟨nofun, rfl⟩

theorem since_close {run : Exchange σ} {us : Tokens} (hbound : bound ≤ us.fresh) :
    Tokens.Since bound (toldClosing around (s.withCancel us) patience run) run.world.tokens
      (close around (s.withCancel us) patience run).world.tokens := by
  have hcancel : Tokens.Since bound [] run.world.tokens
      ((s.withCancel us).cancel run.world.tokens run.world.now) := by
    refine ⟨Nat.le_refl _, fun c hc => ?_⟩
    -- the scope derived for the talk has a token of its own, which none below the bound is
    have hne : c ≠ (us.fresh, run.world.now) := by
      rintro rfl
      exact Nat.lt_irrefl _ (Nat.lt_of_lt_of_le hc hbound)
    change c ∈ (us.fresh, run.world.now) :: run.world.tokens.canceled ↔ _
    simp [hne]
  unfold toldClosing
  rcases tokens_close around (s.withCancel us) patience run with ⟨hhung, hsame | hsame⟩ | ⟨hne, hsame⟩
  · simp only [hhung, hsame]
    exact .refl bound _
  · simp only [hhung, hsame]
    exact hcancel
  · have hlast := hcancel.cancelAll (around run.world.now run.world.state (.closeConnection
      (occasion (s.withCancel us) run.world.now))).cancels
      (close around (s.withCancel us) patience run).world.now
    rw [List.append_nil] at hlast
    simp only [hsame]
    exact hlast

theorem spare_close {run : Exchange σ} {us : Tokens} (hrun : run.world.tokens.Spare t)
    (hne : t ≠ us.fresh) (ha : Surroundings.Spare around t) :
    (close around (s.withCancel us) patience run).world.tokens.Spare t := by
  have hcancel : ((s.withCancel us).cancel run.world.tokens run.world.now).Spare t :=
    List.forall_mem_cons.mpr ⟨hne.symm, hrun⟩
  rcases tokens_close around (s.withCancel us) patience run with ⟨-, hsame | hsame⟩ | ⟨-, hsame⟩
  · rwa [hsame]
  · rwa [hsame]
  · rw [hsame]
    exact hcancel.cancelAll (ha _ _ _) _

theorem made_close {run : Exchange σ} {us : Tokens} :
    (close around (s.withCancel us) patience run).world.tokens.made = run.world.tokens.made := by
  rcases tokens_close around (s.withCancel us) patience run with ⟨-, hsame | hsame⟩ | ⟨-, hsame⟩
  · rw [hsame]
  · rw [hsame]; rfl
  · rw [hsame]; exact Tokens.made_cancelAll _ _ _

theorem mem_close_tokens {run : Exchange σ} {us : Tokens} {c : Token × Moment}
    (h : c ∈ run.world.tokens.canceled) :
    c ∈ (close around (s.withCancel us) patience run).world.tokens.canceled := by
  have hcancel : c ∈ ((s.withCancel us).cancel run.world.tokens run.world.now).canceled :=
    List.mem_cons_of_mem _ h
  rcases tokens_close around (s.withCancel us) patience run with ⟨-, hsame | hsame⟩ | ⟨-, hsame⟩
  · rwa [hsame]
  · rwa [hsame]
  · rw [hsame]
    exact Tokens.mem_cancelAll.mpr (.inl hcancel)

theorem of_undialed (query : Query) (h : (dial around s patience w).ending ≠ .finished (.ok ())) :
    (dialing around s patience query w).world = (dial around s patience w).world ∧
      stopped around s patience query w = (dial around s patience w).world ∧
      told around s patience query w = (Task.ask Request.dial).toldIn around s patience w := by
  unfold dialing stopped told
  cases hd : (dial around s patience w).ending with
  | finished result =>
      cases result with
      | ok _ => exact absurd hd h
      | error e => simp only [hd, and_self]
  | _ => simp only [hd, and_self]

theorem since_dialing (hbound : bound ≤ w.tokens.made) :
    Tokens.Since bound (told around s patience query w) w.tokens
      (dialing around s patience query w).world.tokens := by
  have hdial : Tokens.Since bound ((Task.ask Request.dial).toldIn around s patience w) w.tokens
      (dial around s patience w).world.tokens := since_runIn bound _
  by_cases hd : (dial around s patience w).ending = .finished (.ok ())
  · have hfresh : bound ≤ (dial around s patience w).world.tokens.fresh :=
      hbound.trans (Nat.le_of_eq made_dial.symm)
    have hmake : Tokens.Since bound [] (dial around s patience w).world.tokens
        (dial around s patience w).world.tokens.make :=
      ⟨Nat.le_succ _, fun c _ => by simp [Tokens.make]⟩
    have htalk : Tokens.Since bound _ _
        (talk around s patience query (dial around s patience w).world).world.tokens :=
      since_runIn bound _
    have hclose : Tokens.Since bound _ _
        (work around s patience query (dial around s patience w).world).world.tokens :=
      since_close hfresh
    rw [(dialing_of_dialed query hd).2.1]
    unfold told
    simp only [hd]
    exact ((hdial.trans hmake).trans htalk).trans hclose
  · obtain ⟨hworld, -, htold⟩ := of_undialed query hd
    rw [hworld, htold]
    exact hdial

theorem unborn_dialing (hw : w.tokens.Unborn)
    (ha : ∀ t, w.tokens.made ≤ t → Surroundings.Spare around t) :
    (dialing around s patience query w).world.tokens.Unborn := by
  by_cases hd : (dial around s patience w).ending = .finished (.ok ())
  · rw [(dialing_of_dialed query hd).2.1]
    intro t ht
    rw [work, made_close] at ht
    have hmade : (talk around s patience query (dial around s patience w).world).world.tokens.made =
        w.tokens.made + 1 := Task.made_runIn.trans (congrArg (· + 1) made_dial)
    rw [hmade] at ht
    have hle : w.tokens.made ≤ t := Nat.le_of_succ_le ht
    refine spare_close (Task.spare_runIn (ha t hle) ?_) ?_ (ha t hle)
    · exact Task.spare_runIn (ha t hle) (hw t hle)
    · rw [Tokens.fresh, made_dial]
      exact Nat.ne_of_gt ht
  · rw [(of_undialed query hd).1]
    intro t ht
    rw [made_dial] at ht
    exact Task.spare_runIn (ha t ht) (hw t ht)

theorem mem_stopped {c : Token × Moment} (h : c ∈ (stopped around s patience query w).tokens.canceled) :
    c ∈ (dialing around s patience query w).world.tokens.canceled := by
  by_cases hd : (dial around s patience w).ending = .finished (.ok ())
  · rw [stopped_of_dialed query hd] at h
    rw [(dialing_of_dialed query hd).2.1]
    exact mem_close_tokens h
  · obtain ⟨hworld, hstopped, -⟩ := of_undialed query hd
    rw [hworld]
    rwa [hstopped] at h

/-- The surroundings do not fail as scopes do. -/
structure Honest (around : Counterpart σ) : Prop where
  dial : ∀ now st e, (around now st .dial).answer = .error e → e.isCanceled = false
  openStream : ∀ now st e, (around now st .openStream).answer = .error e → e.isCanceled = false

theorem not_canceled_of_converses {deadline : Option Time} {calls : Calls} {e : Failure}
    (h : Talk.Converses deadline query calls (.error e)) :
    calls = [.answered .openStream (.error e)] ∨ e.isCanceled = false := by
  generalize hr : (Except.error e : Except Failure Reply) = result at h
  cases h with
  | refused f => cases hr; exact .inl rfl
  | unbounded h f => cases hr; exact .inr (Failure.ofIo_not_canceled f)
  | through closed cleared h =>
      refine .inr ?_
      cases h with
      | unencoded h => cases hr; rfl
      | encoded hm hraw hfits later =>
          cases later with
          | failed f => cases hr; exact Failure.ofIo_not_canceled f
          | short h => cases hr; exact Failure.ofIo_not_canceled _
          | through said later =>
              cases later with
              | headless hhead => cases hr; exact Failure.ofIo_not_canceled _
              | bodiless hhead hrest => cases hr; exact Failure.ofIo_not_canceled _
              | complete hhead hrest =>
                  unfold Talk.judge at hr
                  split at hr
                  · cases hr
                  · cases hr; rfl

theorem failure_of_onConnection {e : Failure} (h : Honest around)
    (he : (onConnection around s patience query w).ending = .finished (.error e))
    (hc : e.isCanceled = true) :
    s.failure (onConnection around s patience query w).world.tokens
      (onConnection around s patience query w).world.now = some e := by
  refine (Task.failure_of_runIn he).resolve_right ?_
  rintro ⟨st, es, fin, hgoes⟩
  rcases not_canceled_of_converses (Talk.converses_of_goes hgoes) with rfl | hne
  · obtain ⟨now, st', hanswer⟩ := hgoes.answer _ (List.mem_singleton_self _)
    have hfalse := h.openStream now st' e (Option.some.inj hanswer).symm
    rw [hc] at hfalse
    cases hfalse
  · rw [hc] at hne
    cases hne

theorem failure_of_dial {e : Failure} (h : Honest around)
    (he : (dial around s patience w).ending = .finished (.error e)) (hc : e.isCanceled = true) :
    s.failure (dial around s patience w).world.tokens (dial around s patience w).world.now =
      some e := by
  refine (Task.failure_of_runIn he).resolve_right ?_
  rintro ⟨st, es, fin, hgoes⟩
  cases hgoes with
  | call now later =>
      cases later
      obtain ⟨m, -, hanswer, -⟩ := now
      have hfalse := h.dial m st e hanswer
      rw [hc] at hfalse
      cases hfalse

theorem failure_of_dialing {e : Failure} (h : Honest around) (hw : Private around w)
    (he : (dialing around s patience query w).ending = .finished (.error e))
    (hc : e.isCanceled = true) :
    s.failure (stopped around s patience query w).tokens (stopped around s patience query w).now =
      some e := by
  by_cases hd : (dial around s patience w).ending = .finished (.ok ())
  · rw [(dialing_of_dialed query hd).1] at he
    rw [stopped_of_dialed query hd, ← Scope.failure_withCancel hw.spare_talk]
    exact failure_of_onConnection h (close_eq_finished he) hc
  · cases hr : (dial around s patience w).ending with
    | finished result =>
        cases result with
        | ok _ => exact absurd hr hd
        | error f =>
            rw [(dialing_of_failed query hr).1] at he
            cases he
            rw [stopped_of_failed query hr]
            exact failure_of_dial h hr hc
    | _ => unfold dialing at he; simp only [hr] at he; cases he

end Exchange

namespace Errand

variable {σ : Type}

def stopped (e : Errand σ) (w : World σ) : World σ :=
  if e.dials then Exchange.stopped e.around e.scope e.patience e.query (e.ready w)
  else (e.run w).world

def told (e : Errand σ) (w : World σ) : List (Token × Moment) :=
  if e.dials then Exchange.told e.around e.scope e.patience e.query (e.ready w)
  else (Talk.converse e.scope.deadline e.query).toldIn e.around e.scope e.patience (e.ready w)

def toldAll : List (Errand σ) → World σ → List (Token × Moment)
  | [], _ => []
  | e :: es, w => toldAll es (e.run w).world ++ e.told w

/-- The world has only tokens that were made, and the surroundings cancel none that are still to be
made. -/
structure Apart (es : List (Errand σ)) (w : World σ) : Prop where
  unborn : w.tokens.Unborn
  calls : ∀ e ∈ es, ∀ t, w.tokens.made ≤ t → Surroundings.Spare e.around t

variable {e : Errand σ} {es : List (Errand σ)} {w : World σ} {bound : Token}

theorem since_run (hbound : bound ≤ w.tokens.made) :
    Tokens.Since bound (e.told w) w.tokens (e.run w).world.tokens := by
  unfold told run
  split
  · exact Exchange.since_dialing hbound
  · exact Exchange.since_runIn bound _

theorem Apart.next (h : Apart (e :: es) w) : Apart es (e.run w).world := by
  have hmade : w.tokens.made ≤ (e.run w).world.tokens.made := (since_run (Nat.le_refl _)).made
  have hcalls := h.calls e List.mem_cons_self
  refine ⟨?_, fun f hf t ht => h.calls f (List.mem_cons_of_mem e hf) t (hmade.trans ht)⟩
  unfold run
  split
  · exact Exchange.unborn_dialing h.unborn hcalls
  · intro t ht
    rw [Exchange.onConnection, Task.made_runIn] at ht
    have hle : w.tokens.made ≤ t := ht
    exact Task.spare_runIn (hcalls t hle) (h.unborn t hle)

theorem since_after (hbound : bound ≤ w.tokens.made) :
    Tokens.Since bound (toldAll es w) w.tokens (after es w).tokens := by
  induction es generalizing w with
  | nil => exact .refl bound _
  | cons e es ih =>
      have hrun := since_run (e := e) hbound
      exact hrun.trans (ih (hbound.trans hrun.made))

theorem Apart.after {front back : List (Errand σ)} (h : Apart (front ++ back) w) :
    Apart back (after front w) := by
  induction front generalizing w with
  | nil => exact h
  | cons e front ih => exact ih h.next

theorem failure_of_run {f : Failure} (honest : Exchange.Honest e.around) (h : Apart [e] w)
    (he : (e.run w).ending = .finished (.error f)) (hc : f.isCanceled = true) :
    e.scope.failure (e.stopped w).tokens (e.stopped w).now = some f := by
  unfold stopped
  unfold run at he ⊢
  split
  · rename_i hd
    rw [if_pos hd] at he
    refine Exchange.failure_of_dialing honest ⟨h.unborn _ (Nat.le_refl _), ?_⟩ he hc
    exact h.calls e (List.mem_singleton_self e) _ (Nat.le_refl _)
  · rename_i hd
    rw [if_neg hd] at he
    exact Exchange.failure_of_onConnection honest he hc

theorem mem_of_stopped {c : Token × Moment} (h : c ∈ (e.stopped w).tokens.canceled)
    (hc : c.1 < w.tokens.made) : c ∈ e.told w ∨ c ∈ w.tokens.canceled := by
  refine ((since_run (Nat.le_refl _)).canceled c hc).mp ?_
  unfold stopped at h
  unfold run at h ⊢
  split at h
  · rename_i hd
    rw [if_pos hd]
    exact Exchange.mem_stopped h
  · rename_i hd
    rwa [if_neg hd]

theorem toldAll_append (front back : List (Errand σ)) (w : World σ) :
    toldAll (front ++ back) w = toldAll back (after front w) ++ toldAll front w := by
  induction front generalizing w with
  | nil => exact (List.append_nil _).symm
  | cons e front ih =>
      change toldAll (front ++ back) (e.run w).world ++ e.told w = _
      rw [ih, List.append_assoc]
      rfl

theorem canceled_of_run {front back : List (Errand σ)} {t : Token} {m : Moment}
    (ht : t < w.tokens.made)
    (hc : (t, m) ∈ (e.stopped (after front w)).tokens.canceled) :
    (t, m) ∈ toldAll (front ++ e :: back) w ++ w.tokens.canceled := by
  have hfront : Tokens.Since w.tokens.made (toldAll front w) w.tokens (after front w).tokens :=
    since_after (Nat.le_refl _)
  rw [toldAll_append]
  change (t, m) ∈ ((toldAll back (e.run (after front w)).world ++ e.told (after front w)) ++
    toldAll front w) ++ w.tokens.canceled
  simp only [List.mem_append]
  rcases mem_of_stopped hc (Nat.lt_of_lt_of_le ht hfront.made) with h | h
  · exact .inl (.inl (.inr h))
  · exact ((hfront.canceled _ ht).mp h).imp .inr id

theorem unguarded (h : Apart [e] w) (hd : e.dials = true) :
    let dialed := Exchange.dial e.around e.scope e.patience (e.ready w)
    ∀ result, dialed.ending = .finished (.ok ()) → (e.run w).ending = .finished result →
      (Exchange.onConnection e.around e.scope e.patience e.query
        { dialed.world with tokens := dialed.world.tokens.make }).ending = .finished result := by
  intro dialed result hok hrun
  have hp : Exchange.Private e.around (e.ready w) :=
    ⟨h.unborn _ (Nat.le_refl _), h.calls e (List.mem_singleton_self e) _ (Nat.le_refl _)⟩
  unfold run at hrun
  rw [if_pos hd, (Exchange.dialing_of_dialed e.query hok).1] at hrun
  let made : World σ := { dialed.world with tokens := dialed.world.tokens.make }
  have hspare : made.tokens.Spare dialed.world.tokens.fresh := hp.spare_dial
  have htalk : Exchange.talk e.around e.scope e.patience e.query dialed.world =
      Exchange.onConnection e.around e.scope e.patience e.query made :=
    Task.runIn_withCancel hp.calls_dial hspare _
  rw [← Exchange.close_eq_finished hrun]
  exact congrArg Run.ending htalk.symm

/-- Whatever exchanges are made in scopes, an exchange fails as canceled only if its caller's scope, or one
that it comes from, had been canceled by others when the work stopped, and as too late only if the deadline
had passed then; the scope in which its talk takes place does not show in the result; and afterwards all
scopes fail as if there had been no exchange. -/
theorem scopes_undisturbed (ss : List ForestStep) (es : List (Errand σ)) (w : World σ)
    (hmade : (Forest.empty.steps ss).tokens.made ≤ w.tokens.made) (hapart : Apart es w)
    (honest : ∀ e ∈ es, Exchange.Honest e.around) :
    let f := Forest.empty.steps ss
    let h := History.empty.steps ss
    let told := toldAll es w ++ w.tokens.canceled
    (∀ front e back, es = front ++ e :: back →
      let v := after front w
      let run := e.run v
      let stop := e.stopped v
      (run.ending = .finished (.error .canceled) → ∀ n, f.scopes[n]? = some e.scope →
        ∃ a t m, h.Leads a n ∧ f.ownToken a = some t ∧ (t, m) ∈ told ∧ m ≤ stop.now) ∧
      (run.ending = .finished (.error .deadlineExceeded) →
        ∃ d, e.scope.deadline = some d ∧ d ≤ stop.now.time) ∧
      (e.dials = true →
        let dialed := Exchange.dial e.around e.scope e.patience (e.ready v)
        ∀ result, dialed.ending = .finished (.ok ()) → run.ending = .finished result →
          (Exchange.onConnection e.around e.scope e.patience e.query
            { dialed.world with tokens := dialed.world.tokens.make }).ending = .finished result)) ∧
    ∀ later,
      let made : Forest := { f with now := later, tokens := (after es w).tokens }
      let idle : Forest := { f with now := later, tokens := { w.tokens with canceled := told } }
      made.failures = idle.failures ∧ made.deadlines = idle.deadlines := by
  intro f h told
  have hb : f.Bears h := Forest.bears_empty.steps ss
  have hbelow (u : Scope) (hu : u ∈ f.scopes) (t : Token) (ht : t ∈ u.tokens) : t < w.tokens.made :=
    Nat.lt_of_lt_of_le (hb.below u hu t ht) hmade
  refine ⟨fun front e back hes => ?_, fun later => ⟨?_, rfl⟩⟩
  · intro v run stop
    subst hes
    have hv := hapart.after
    have he : Apart [e] v := ⟨hv.unborn, fun d hd => by
      rw [List.mem_singleton.mp hd]
      exact hv.calls e List.mem_cons_self⟩
    have hfailure {x : Failure} := failure_of_run (f := x) (honest e (by simp)) he
    refine ⟨fun hrun n hn => ?_, fun hrun => ?_, unguarded he⟩
    · obtain ⟨t, ht, m, hm, hle⟩ := Scope.canceled_of_failure (hfailure hrun rfl)
      obtain ⟨a, ha, hown⟩ := (hb.mem_tokens_iff hn t).mp ht
      exact ⟨a, t, m, ha, hown, canceled_of_run (hbelow _ (List.mem_of_getElem? hn) t ht) hm, hle⟩
    · exact Scope.expired_of_failure (hfailure hrun rfl)
  · refine List.map_congr_left fun u hu => Scope.failure_congr ?_
    exact (since_after (Nat.le_refl _)).isCanceled (hbelow u hu) _

theorem honest_script (script : Script) : Exchange.Honest script.counterpart where
  dial now st e h := by
    change (Script.failIf script.dialFailure).mapError Failure.ofIo = .error e at h
    cases hf : script.dialFailure with
    | none => rw [hf] at h; cases h
    | some f => rw [hf] at h; cases h; exact Failure.ofIo_not_canceled f
  openStream now st e h := by
    change script.openAnswer = .error e at h
    unfold Script.openAnswer at h
    split at h
    · cases h; rfl
    · cases h

theorem scopes_undisturbed_canceled :
    let errand (script : Script) : Errand ScriptState :=
      ⟨script.counterpart, ⟨[0], none⟩, true, none, ⟨".", 1, 0, 7, 0⟩, .sharp 0⟩
    let refused := errand { Script.steady with openRefused := true }
    let unopened := errand { Script.steady with openDelay := .never }
    let w : World ScriptState := ⟨.sharp 0, ⟨1, [(0, .sharp 50)]⟩, .start⟩
    let v := after [refused] w
    (unopened.run v).ending = .finished (.error .canceled) ∧
      (∃ t m, (t, m) ∈ toldAll [refused, unopened] w ++ w.tokens.canceled ∧
        m ≤ (unopened.stopped v).now) ∧
      (Forest.mk 40 (after [refused, unopened] w).tokens [⟨[0], none⟩]).failures = [none] := by
  intro errand refused unopened w v
  have hcalls (script : Script) (hq : script.cancelOnQuery = []) (hr : script.cancelOnReply = [])
      (t : Token) : Surroundings.Spare script.counterpart t :=
    (Exchange.private_script hq hr (.sharp 0) t .start).calls
  have hw : Apart [refused, unopened] w := by
    refine ⟨fun t ht c hc => ?_, ?_⟩
    · obtain rfl := List.mem_singleton.mp hc
      exact Nat.ne_of_lt ht
    · refine List.forall_mem_cons.mpr ⟨fun t _ => hcalls _ rfl rfl t, ?_⟩
      exact List.forall_mem_singleton.mpr fun t _ => hcalls _ rfl rfl t
  have honest : ∀ e ∈ [refused, unopened], Exchange.Honest e.around :=
    List.forall_mem_cons.mpr
      ⟨honest_script _, List.forall_mem_singleton.mpr (honest_script _)⟩
  obtain ⟨hresults, hscopes⟩ :=
    scopes_undisturbed [.root] [refused, unopened] w (Nat.le_refl 1) hw honest
  have hv : v = ⟨⟨0, true⟩, ⟨2, [(1, .sharp 0), (0, .sharp 50)]⟩, .start⟩ := rfl
  have hcanceled : (unopened.run v).ending = .finished (.error .canceled) := by
    rw [hv]
    rfl
  have htold : toldAll [refused, unopened] w = [] := by
    change (_ ++ unopened.told v) ++ refused.told w = []
    rw [hv]
    rfl
  obtain ⟨a, t, m, -, hown, hm, hle⟩ :=
    (hresults [refused] unopened [] rfl).1 hcanceled 0 rfl
  refine ⟨hcanceled, ⟨t, m, hm, hle⟩, (hscopes 40).1.trans ?_⟩
  rw [htold]
  rfl

end Errand

end DnsOverStreams
