import DnsOverStreams.Exchange.Basic
import DnsOverStreams.Proofs.Exchange.Calls
import Mathlib.Logic.Relation
/-!
An exchange on a connection that was dialed, and beside it the helper that waits for the end of the
exchange's own scope and then closes the connection. The two take their steps in any order, calls get
any answers, and the exchange can be dropped at any point.
-/

namespace DnsOverStreams

inductive Helper where
  | waiting
  | closing
  | gone
  deriving DecidableEq, Repr

inductive Stage where
  | talking (rest : Talk (Except Failure Reply))
  | awaiting (r : Request) (next : r.Answer → Talk (Except Failure Reply))
  | leaving (result : Except Failure Reply)
  | returned (result : Except Failure Reply)
  | dropped

namespace Stage

def Busy : Stage → Prop
  | talking _ => True
  | awaiting _ _ => True
  | _ => False

def Open : Stage → Prop
  | returned _ => False
  | dropped => False
  | _ => True

theorem Busy.isOpen {stage : Stage} (h : stage.Busy) : stage.Open := by
  cases stage <;> trivial

/-- What is left of the talk leaves the connection open. -/
def Sparing : Stage → Prop
  | talking rest => rest.Only Request.InTalk
  | awaiting _ next => ∀ a, (next a).Only Request.InTalk
  | _ => True

end Stage

/-- An exchange and its helper, with the calls that either has made. -/
structure Course where
  stage : Stage
  helper : Helper
  now : Moment
  tokens : Tokens
  calls : List Request

namespace Course

inductive Step (guard : Scope) : Course → Course → Prop
  | pass {stage : Stage} {helper : Helper} {now later : Moment} {ts us : Tokens}
      {calls : List Request} (hm : now ≤ later) (hc : ∀ c ∈ ts.canceled, c ∈ us.canceled) :
      Step guard ⟨stage, helper, now, ts, calls⟩ ⟨stage, helper, later, us, calls⟩
  | call {r : Request} {next : r.Answer → Talk (Except Failure Reply)} {helper : Helper}
      {now : Moment} {ts : Tokens} {calls : List Request} :
      Step guard ⟨.talking (.call r next), helper, now, ts, calls⟩
        ⟨.awaiting r next, helper, now, ts, calls ++ [r]⟩
  | answer {r : Request} {next : r.Answer → Talk (Except Failure Reply)} {helper : Helper}
      {now : Moment} {ts : Tokens} {calls : List Request} (a : r.Answer) :
      Step guard ⟨.awaiting r next, helper, now, ts, calls⟩ ⟨.talking (next a), helper, now, ts, calls⟩
  | finish {result : Except Failure Reply} {helper : Helper} {now : Moment} {ts : Tokens}
      {calls : List Request} :
      Step guard ⟨.talking (.done result), helper, now, ts, calls⟩
        ⟨.leaving (guard.outcome ts now result), helper, now, guard.cancel ts now, calls⟩
  | giveUp {stage : Stage} {f : Failure} {helper : Helper} {now : Moment} {ts : Tokens}
      {calls : List Request} (hb : stage.Busy) (hf : guard.failure ts now = some f) :
      Step guard ⟨stage, helper, now, ts, calls⟩
        ⟨.leaving (.error f), helper, now, guard.cancel ts now, calls⟩
  | drop {stage : Stage} {helper : Helper} {now : Moment} {ts : Tokens} {calls : List Request}
      (ho : stage.Open) :
      Step guard ⟨stage, helper, now, ts, calls⟩ ⟨.dropped, helper, now, guard.cancel ts now, calls⟩
  | wake {stage : Stage} {now : Moment} {ts : Tokens} {calls : List Request} (occasion : Occasion)
      (hf : (guard.failure ts now).isSome = true) :
      Step guard ⟨stage, .waiting, now, ts, calls⟩
        ⟨stage, .closing, now, ts, calls ++ [.closeConnection occasion]⟩
  | closed {stage : Stage} {now : Moment} {ts : Tokens} {calls : List Request} :
      Step guard ⟨stage, .closing, now, ts, calls⟩ ⟨stage, .gone, now, ts, calls⟩
  | leave {result : Except Failure Reply} {now : Moment} {ts : Tokens} {calls : List Request} :
      Step guard ⟨.leaving result, .gone, now, ts, calls⟩ ⟨.returned result, .gone, now, ts, calls⟩

def Reaches (guard : Scope) : Course → Course → Prop :=
  Relation.ReflTransGen (Step guard)

def start (s : Scope) (query : Query) (now : Moment) (ts : Tokens) : Course :=
  ⟨.talking (Talk.converse s.deadline query), .waiting, now, ts.make, []⟩

/-- The helper closes the connection when the guard has ended, which it has when the talk is over, and
an exchange returns only after that. -/
structure Sound (guard : Scope) (x : Course) : Prop where
  sparing : x.stage.Sparing
  closings : closings x.calls = if x.helper = .waiting then 0 else 1
  ended : (x.stage.Busy ∧ x.helper = .waiting) ∨ (guard.failure x.tokens x.now).isSome = true
  returned : ∀ result, x.stage = .returned result → x.helper = .gone

variable {guard : Scope} {x y : Course}

theorem Sound.step (hg : guard.tokens ≠ []) (hx : x.Sound guard) (h : Step guard x y) :
    y.Sound guard := by
  obtain ⟨hsparing, hclosings, hended, hreturned⟩ := hx
  cases h with
  | pass hm hc =>
      refine ⟨hsparing, hclosings, ?_, hreturned⟩
      rcases hended with hwaits | hf
      · exact .inl hwaits
      · exact .inr (Scope.failure_isSome_mono hf hm hc)
  | call =>
      refine ⟨hsparing.2, ?_, ?_, fun _ h => by cases h⟩
      · rw [← hclosings]
        rw [DnsOverStreams.closings, List.countP_append, DnsOverStreams.closings]
        simp [hsparing.1.not_closes]
      · rcases hended with hwaits | hf
        · exact .inl ⟨trivial, hwaits.2⟩
        · exact .inr hf
  | answer a =>
      refine ⟨hsparing a, hclosings, ?_, fun _ h => by cases h⟩
      rcases hended with hwaits | hf
      · exact .inl ⟨trivial, hwaits.2⟩
      · exact .inr hf
  | finish =>
      exact ⟨trivial, hclosings, .inr (Scope.failure_cancel_isSome hg _ _), fun _ h => by cases h⟩
  | giveUp hb hf =>
      exact ⟨trivial, hclosings, .inr (Scope.failure_cancel_isSome hg _ _), fun _ h => by cases h⟩
  | drop ho =>
      exact ⟨trivial, hclosings, .inr (Scope.failure_cancel_isSome hg _ _), fun _ h => by cases h⟩
  | wake occasion hf =>
      refine ⟨hsparing, ?_, .inr hf, fun result h => ?_⟩
      · simp only [DnsOverStreams.closings, List.countP_append] at hclosings ⊢
        rw [hclosings]
        rfl
      · -- a helper that waits has not let the exchange return
        cases hreturned result h
  | closed => exact ⟨hsparing, hclosings, .inr (hended.resolve_left (by simp)), fun _ _ => rfl⟩
  | leave => exact ⟨trivial, hclosings, hended, fun _ _ => rfl⟩

theorem Sound.reaches (hg : guard.tokens ≠ []) (hx : x.Sound guard) (h : Reaches guard x y) :
    y.Sound guard := by
  induction h with
  | refl => exact hx
  | tail _ h ih => exact ih.step hg h

theorem Sound.closings_le_one (hx : x.Sound guard) : DnsOverStreams.closings x.calls ≤ 1 := by
  rw [hx.closings]
  split <;> omega

theorem Sound.closings_eq_one (hx : x.Sound guard) (hh : x.helper ≠ .waiting) :
    DnsOverStreams.closings x.calls = 1 := by
  rw [hx.closings, if_neg hh]

theorem Sound.wakes (hx : x.Sound guard) (hb : ¬ x.stage.Busy) (hh : x.helper = .waiting) :
    ∃ y, Step guard x y ∧ y.helper = .closing := by
  obtain ⟨stage, helper, now, ts, calls⟩ := x
  cases hh
  rcases hx.ended with hwaits | hf
  · exact absurd hwaits.1 hb
  · exact ⟨_, .wake .done hf, rfl⟩

end Course

end DnsOverStreams
