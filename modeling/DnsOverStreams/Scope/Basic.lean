import DnsOverStreams.Failure
import DnsOverStreams.Moment
/-!
Scopes bound work. A scope ends when one of its tokens is canceled or when its deadline comes. A
scope derived from another one has the tokens of the other and a token of its own, and no later
deadline.
-/

namespace DnsOverStreams

abbrev Token := Nat

/-- The tokens that were made, and the moments at which tokens are canceled, past or to come. -/
structure Tokens where
  made : Nat
  canceled : List (Token × Moment)
  deriving DecidableEq, Repr

namespace Tokens

def none : Tokens := ⟨0, []⟩

def fresh (ts : Tokens) : Token :=
  ts.made

def make (ts : Tokens) : Tokens :=
  { ts with made := ts.made + 1 }

def cancel (ts : Tokens) (t : Token) (m : Moment) : Tokens :=
  { ts with canceled := (t, m) :: ts.canceled }

def cancelAll (ts : Tokens) (canceled : List Token) (m : Moment) : Tokens :=
  canceled.foldl (fun ts t => ts.cancel t m) ts

def isCanceled (ts : Tokens) (t : Token) (m : Moment) : Bool :=
  ts.canceled.any fun (u, since) => u == t && since ≤ m

end Tokens

/-- A scope: the tokens that end it, its own first, and its deadline. -/
structure Scope where
  tokens : List Token
  deadline : Option Time
  deriving DecidableEq, Repr

namespace Scope

def earlier (current : Option Time) (deadline : Time) : Time :=
  match current with
  | some d => min d deadline
  | none => deadline

def root (ts : Tokens) : Scope :=
  ⟨[ts.fresh], none⟩

/-- A scope that can be canceled without the one it is derived from. -/
def withCancel (s : Scope) (ts : Tokens) : Scope :=
  ⟨ts.fresh :: s.tokens, s.deadline⟩

def withDeadline (s : Scope) (ts : Tokens) (deadline : Time) : Scope :=
  ⟨ts.fresh :: s.tokens, some (earlier s.deadline deadline)⟩

def cancel (s : Scope) (ts : Tokens) (m : Moment) : Tokens :=
  match s.tokens with
  | t :: _ => ts.cancel t m
  | [] => ts

def isCanceled (s : Scope) (ts : Tokens) (m : Moment) : Bool :=
  s.tokens.any (ts.isCanceled · m)

/-- Whether the deadline has come, which it has from its sharp moment on. -/
def isExpired (s : Scope) (m : Moment) : Bool :=
  s.deadline.any (· ≤ m.time)

def failure (s : Scope) (ts : Tokens) (m : Moment) : Option Failure :=
  if s.isCanceled ts m then some .canceled
  else if s.isExpired m then some .deadlineExceeded
  else none

def ends (s : Scope) (ts : Tokens) : List Moment :=
  (ts.canceled.filter fun (t, _) => s.tokens.contains t).map (·.2)
    ++ s.deadline.toList.map Moment.sharp

def endsAt (s : Scope) (ts : Tokens) : Option Moment :=
  (s.ends ts).min?

theorem failure_isSome_iff {s : Scope} {ts : Tokens} {m : Moment} :
    (s.failure ts m).isSome = true ↔ ∃ e ∈ s.ends ts, e ≤ m := by
  have hc : s.isCanceled ts m = true ↔
      ∃ e ∈ (ts.canceled.filter fun (t, _) => s.tokens.contains t).map (·.2), e ≤ m := by
    simp only [isCanceled, Tokens.isCanceled, List.any_eq_true, Bool.and_eq_true, beq_iff_eq,
      decide_eq_true_eq, List.mem_map, List.mem_filter, List.contains_iff_mem]
    constructor
    · rintro ⟨t, ht, ⟨u, e⟩, hmem, rfl, hle⟩
      exact ⟨e, ⟨(u, e), ⟨hmem, ht⟩, rfl⟩, hle⟩
    · rintro ⟨e, ⟨⟨u, e'⟩, ⟨hmem, ht⟩, rfl⟩, hle⟩
      exact ⟨u, ht, (u, e'), hmem, rfl, hle⟩
  have hd : s.isExpired m = true ↔ ∃ e ∈ s.deadline.toList.map Moment.sharp, e ≤ m := by
    cases h : s.deadline <;> simp [isExpired, h, Moment.sharp_le_iff]
  unfold failure ends
  simp only [List.mem_append, or_and_right, exists_or]
  rw [← hc, ← hd]
  cases s.isCanceled ts m <;> cases s.isExpired m <;> simp

end Scope

end DnsOverStreams
