import DnsOverStreams.Scope.Forest
import Mathlib.Logic.Relation
/-!
What was done with scopes: how each of them came to be, which of them were canceled, and what time
it is. Such a history knows nothing of tokens. A forest that went through the same steps bears it
out: each of its scopes is made of its parent as the history says.
-/

namespace DnsOverStreams

inductive Origin where
  | new
  | clone (parent : Nat)
  | derived (parent : Nat) (limit : Option Time)
  deriving DecidableEq, Repr

structure History where
  now : Time
  origins : List Origin
  canceled : List Nat
  deriving DecidableEq, Repr

namespace History

def empty : History := ⟨0, [], []⟩

def record (h : History) (o : Origin) : History :=
  { h with origins := h.origins ++ [o] }

def knows (h : History) (n : Nat) : Bool :=
  n < h.origins.length

def step (h : History) : ForestStep → History
  | .root => h.record .new
  | .clone parent => if h.knows parent then h.record (.clone parent) else h
  | .withCancel parent => if h.knows parent then h.record (.derived parent none) else h
  | .withDeadline parent deadline =>
      if h.knows parent then h.record (.derived parent (some deadline)) else h
  | .withTimeout parent ms =>
      if h.knows parent then h.record (.derived parent (some (h.now + ms))) else h
  | .cancel n => if h.knows n then { h with canceled := n :: h.canceled } else h
  | .advance ms => { h with now := h.now + ms }

def steps (h : History) (ss : List ForestStep) : History :=
  ss.foldl step h

def Clones (h : History) (m n : Nat) : Prop :=
  h.origins[n]? = some (.clone m)

def Derives (h : History) (m n : Nat) : Prop :=
  ∃ limit, h.origins[n]? = some (.derived m limit)

/-- Clones of one scope, which are canceled together. -/
def Alike (h : History) : Nat → Nat → Prop :=
  Relation.EqvGen h.Clones

/-- The second comes from the first, as a clone or by derivation, in any number of generations. -/
def Leads (h : History) : Nat → Nat → Prop :=
  Relation.ReflTransGen fun m n => h.Clones m n ∨ h.Derives m n

/-- It was canceled itself, or something that it comes from was, or a clone of either. -/
def Canceled (h : History) (n : Nat) : Prop :=
  ∃ m ∈ h.canceled, ∃ a, h.Alike m a ∧ h.Leads a n

/-- All deadlines that were given on the way to a scope. -/
def limits (h : History) (n : Nat) : Set Time :=
  { t | ∃ a p, h.origins[a]? = some (.derived p (some t)) ∧ h.Leads a n }

/-- The second was derived from the first, or from what comes from it. -/
def Ancestor (h : History) (m n : Nat) : Prop :=
  ∃ a b, h.Leads m a ∧ h.Derives a b ∧ h.Leads b n

def Siblings (h : History) (m n : Nat) : Prop :=
  m ≠ n ∧ ∃ a b, h.Alike a b ∧ h.Derives a m ∧ h.Derives b n

end History

def Scope.child (s : Scope) (t : Token) (limit : Option Time) : Scope :=
  ⟨t :: s.tokens, limit.elim s.deadline fun d => some (Scope.earlier s.deadline d)⟩

def Fresh (scopes : List Scope) (n : Nat) (t : Token) : Prop :=
  ∀ m < n, ∀ s, scopes[m]? = some s → ∀ u ∈ s.tokens, u < t

inductive Origin.Makes (scopes : List Scope) (n : Nat) : Origin → Scope → Prop
  | new {t : Token} (fresh : Fresh scopes n t) : Makes scopes n .new ⟨[t], none⟩
  | clone {parent : Nat} {s : Scope} (older : parent < n) (found : scopes[parent]? = some s) :
      Makes scopes n (.clone parent) s
  | derived {parent : Nat} {limit : Option Time} {s : Scope} {t : Token} (older : parent < n)
      (found : scopes[parent]? = some s) (fresh : Fresh scopes n t) :
      Makes scopes n (.derived parent limit) (s.child t limit)

theorem Fresh.append {scopes : List Scope} {n : Nat} {t : Token} (h : Fresh scopes n t)
    (hn : n ≤ scopes.length) (s : Scope) : Fresh (scopes ++ [s]) n t := by
  intro m hm r hr
  rw [List.getElem?_append_left (by omega)] at hr
  exact h m hm r hr

theorem Origin.Makes.append {scopes : List Scope} {n : Nat} {o : Origin} {r : Scope}
    (h : o.Makes scopes n r) (hn : n ≤ scopes.length) (s : Scope) :
    o.Makes (scopes ++ [s]) n r := by
  cases h with
  | new fresh => exact .new (fresh.append hn s)
  | clone older found =>
      exact .clone older (by rwa [List.getElem?_append_left (by omega)])
  | derived older found fresh =>
      exact .derived older (by rwa [List.getElem?_append_left (by omega)]) (fresh.append hn s)

namespace Forest

/-- The token that a scope has for itself and its clones. -/
def ownToken (f : Forest) (n : Nat) : Option Token :=
  f.scopes[n]?.bind (·.tokens.head?)

structure Bears (f : Forest) (h : History) : Prop where
  now : f.now = h.now
  length : f.scopes.length = h.origins.length
  made : ∀ n s, f.scopes[n]? = some s → ∃ o : Origin, h.origins[n]? = some o ∧ o.Makes f.scopes n s
  below : ∀ s ∈ f.scopes, ∀ t ∈ s.tokens, t < f.tokens.made
  known : ∀ n ∈ h.canceled, n < h.origins.length
  canceled : ∀ t, (∃ m, (t, m) ∈ f.tokens.canceled) ↔ ∃ n ∈ h.canceled, f.ownToken n = some t
  past : ∀ c ∈ f.tokens.canceled, c.2 ≤ f.moment

theorem bears_empty : empty.Bears .empty where
  now := rfl
  length := rfl
  made := by simp [empty]
  below := by simp [empty]
  known := by simp [History.empty]
  canceled := by simp [empty, History.empty, Tokens.none]
  past := by simp [empty, Tokens.none]

namespace Bears

variable {f : Forest} {h : History}

theorem fresh (hb : f.Bears h) : Fresh f.scopes f.scopes.length f.tokens.fresh := by
  intro m _ s hs t ht
  exact hb.below s (List.mem_of_getElem? hs) t ht

theorem knows_of_some (hb : f.Bears h) {n : Nat} {s : Scope} (hs : f.scopes[n]? = some s) :
    h.knows n = true := by
  simpa [History.knows, hb.length] using (List.getElem?_eq_some_iff.mp hs).1

theorem knows_of_none (hb : f.Bears h) {n : Nat} (hs : f.scopes[n]? = none) :
    h.knows n = false := by
  simpa [History.knows, hb.length] using hs

theorem record (hb : f.Bears h) {o : Origin} {s : Scope} {made : Nat}
    (ho : o.Makes f.scopes f.scopes.length s) (hmade : f.tokens.made ≤ made)
    (hs : ∀ t ∈ s.tokens, t < made) :
    ({ f with tokens.made := made, scopes := f.scopes ++ [s] } : Forest).Bears (h.record o) where
  now := hb.now
  length := by simp [History.record, hb.length]
  made := by
    intro n r hr
    rcases Nat.lt_trichotomy n f.scopes.length with hn | rfl | hn
    · simp only [List.getElem?_append_left hn] at hr
      obtain ⟨p, hp, hm⟩ := hb.made n r hr
      refine ⟨p, ?_, hm.append (Nat.le_of_lt hn) s⟩
      simpa [History.record, List.getElem?_append_left (hb.length ▸ hn)] using hp
    · obtain rfl : s = r := by simpa using hr
      exact ⟨o, by simp [History.record, hb.length], ho.append (Nat.le_refl _) s⟩
    · have := (List.getElem?_eq_some_iff.mp hr).1
      simp only [List.length_append, List.length_singleton] at this
      omega
  below := by
    intro r hr t ht
    rcases List.mem_append.mp hr with hr | hr
    · exact Nat.lt_of_lt_of_le (hb.below r hr t ht) hmade
    · obtain rfl := List.mem_singleton.mp hr
      exact hs t ht
  known := by
    intro n hn
    have := hb.known n hn
    simp only [History.record, List.length_append, List.length_singleton]
    omega
  canceled := by
    intro t
    refine (hb.canceled t).trans (exists_congr fun n => and_congr_right fun hn => ?_)
    have hlt : n < f.scopes.length := hb.length ▸ hb.known n hn
    simp only [ownToken, List.getElem?_append_left hlt]
  past := hb.past

theorem cancel (hb : f.Bears h) {n : Nat} {r : Scope} (hr : f.scopes[n]? = some r) :
    ({ f with tokens := r.cancel f.tokens f.moment } : Forest).Bears
      { h with canceled := n :: h.canceled } := by
  have hn : n < h.origins.length := hb.length ▸ (List.getElem?_eq_some_iff.mp hr).1
  have hknown : ∀ m ∈ n :: h.canceled, m < h.origins.length :=
    List.forall_mem_cons.mpr ⟨hn, hb.known⟩
  have hbelow : ∀ u ∈ f.scopes, ∀ t ∈ u.tokens, t < (r.cancel f.tokens f.moment).made := by
    intro u hu t ht
    have := hb.below u hu t ht
    unfold Scope.cancel
    split
    · exact this
    · exact this
  cases ht : r.tokens with
  | nil =>
      refine { hb with below := hbelow, known := hknown, canceled := fun t => ?_, past := ?_ }
      · simp only [Scope.cancel, ht, hb.canceled t, List.mem_cons, exists_eq_or_imp]
        simp [ownToken, hr, ht]
      · simpa only [Scope.cancel, ht] using hb.past
  | cons u us =>
      have hown : f.ownToken n = some u := by simp [ownToken, hr, ht]
      refine { hb with below := hbelow, known := hknown, canceled := fun t => ?_, past := ?_ }
      · simp only [Scope.cancel, ht, Tokens.cancel, List.mem_cons, Prod.mk.injEq, exists_or,
          exists_eq_or_imp, hb.canceled t]
        refine or_congr ?_ Iff.rfl
        change _ ↔ f.ownToken n = some t
        simp [hown, eq_comm]
      · simp only [Scope.cancel, ht, Tokens.cancel]
        exact List.forall_mem_cons.mpr ⟨Moment.le_refl _, hb.past⟩

theorem derive (hb : f.Bears h) {parent : Nat} {r : Scope} (hr : f.scopes[parent]? = some r)
    (limit : Option Time) :
    (f.grow (r.child f.tokens.fresh limit)).Bears (h.record (.derived parent limit)) := by
  refine hb.record (.derived (List.getElem?_eq_some_iff.mp hr).1 hr hb.fresh) (Nat.le_succ _) ?_
  intro t ht
  rcases List.mem_cons.mp ht with rfl | ht
  · exact Nat.lt_succ_self _
  · exact Nat.lt_succ_of_lt (hb.below r (List.mem_of_getElem? hr) t ht)

theorem step (hb : f.Bears h) (s : ForestStep) : (f.step s).Bears (h.step s) := by
  cases s with
  | root =>
      refine hb.record (.new hb.fresh) (Nat.le_succ _) fun t ht => ?_
      obtain rfl := List.mem_singleton.mp ht
      exact Nat.lt_succ_self _
  | clone parent =>
      cases hr : f.scopes[parent]? with
      | none => simpa [Forest.step, History.step, hr, hb.knows_of_none hr] using hb
      | some r =>
          simpa [Forest.step, History.step, hr, hb.knows_of_some hr] using
            hb.record (.clone (List.getElem?_eq_some_iff.mp hr).1 hr) (Nat.le_refl _)
              (hb.below r (List.mem_of_getElem? hr))
  | withCancel parent =>
      cases hr : f.scopes[parent]? with
      | none => simpa [Forest.step, History.step, hr, hb.knows_of_none hr] using hb
      | some r =>
          simpa [Forest.step, History.step, hr, hb.knows_of_some hr, Scope.withCancel,
            Scope.child] using hb.derive hr none
  | withDeadline parent deadline =>
      cases hr : f.scopes[parent]? with
      | none => simpa [Forest.step, History.step, hr, hb.knows_of_none hr] using hb
      | some r =>
          simpa [Forest.step, History.step, hr, hb.knows_of_some hr, Scope.withDeadline,
            Scope.child] using hb.derive hr (some deadline)
  | withTimeout parent ms =>
      cases hr : f.scopes[parent]? with
      | none => simpa [Forest.step, History.step, hr, hb.knows_of_none hr] using hb
      | some r =>
          simpa [Forest.step, History.step, hr, hb.knows_of_some hr, Scope.withDeadline,
            Scope.child, ← hb.now] using hb.derive hr (some (f.now + ms))
  | cancel n =>
      cases hr : f.scopes[n]? with
      | none => simpa [Forest.step, History.step, hr, hb.knows_of_none hr] using hb
      | some r =>
          simpa [Forest.step, History.step, hr, hb.knows_of_some hr] using hb.cancel hr
  | advance ms =>
      refine { hb with now := ?_, past := ?_ }
      · simp [Forest.step, History.step, hb.now]
      · intro c hc
        have : f.moment ≤ (f.step (.advance ms)).moment.settle :=
          Moment.le_settle_iff.mpr (Nat.le_add_right f.now ms)
        exact Moment.le_trans (hb.past c hc) this

theorem steps (hb : f.Bears h) (ss : List ForestStep) : (f.steps ss).Bears (h.steps ss) := by
  induction ss generalizing f h with
  | nil => exact hb
  | cons s ss ih => exact ih (hb.step s)

end Bears

end Forest

end DnsOverStreams
