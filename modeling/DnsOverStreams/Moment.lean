/-!
Times in milliseconds, and the moments of a time. Whoever performs a task is the first to act when a
time comes for which it set a clock, and goes on with what it waits for from others when these have had
their turn. So for it each time has two moments: the sharp one, at which the time comes, and the settled
one, at which all is done that others do at that time.
-/

namespace DnsOverStreams

abbrev Time := Nat

structure Moment where
  time : Time
  settled : Bool
  deriving DecidableEq, Repr

namespace Moment

def sharp (time : Time) : Moment :=
  ⟨time, false⟩

/-- The moment at which all is done that others do at the time of a moment. -/
def settle (m : Moment) : Moment :=
  ⟨m.time, true⟩

def rank (m : Moment) : Nat :=
  2 * m.time + m.settled.toNat

instance : LE Moment :=
  ⟨fun m n => m.rank ≤ n.rank⟩

instance (m n : Moment) : Decidable (m ≤ n) :=
  Nat.decLe m.rank n.rank

instance : Max Moment :=
  maxOfLe

instance : Min Moment :=
  minOfLe

theorem le_def {m n : Moment} : m ≤ n ↔ m.rank ≤ n.rank :=
  Iff.rfl

theorem le_refl (m : Moment) : m ≤ m :=
  Nat.le_refl m.rank

theorem le_trans {m n k : Moment} (h : m ≤ n) (h' : n ≤ k) : m ≤ k :=
  Nat.le_trans h h'

theorem le_total (m n : Moment) : m ≤ n ∨ n ≤ m :=
  Nat.le_total m.rank n.rank

theorem rank_sharp (time : Time) : (sharp time).rank = 2 * time :=
  rfl

theorem rank_settle (m : Moment) : m.settle.rank = 2 * m.time + 1 :=
  rfl

theorem sharp_le_iff {time : Time} {m : Moment} : sharp time ≤ m ↔ time ≤ m.time := by
  rw [le_def, rank_sharp, rank]
  have := Bool.toNat_le m.settled
  unfold Time
  omega

theorem le_sharp {time : Time} {m : Moment} (h : m.time < time) : m ≤ sharp time := by
  rw [le_def, rank_sharp, rank]
  have := Bool.toNat_le m.settled
  unfold Time at *
  omega

theorem le_settle (m : Moment) : m ≤ m.settle := by
  rw [le_def, rank_settle, rank]
  have := Bool.toNat_le m.settled
  omega

theorem le_settle_iff {m n : Moment} : m ≤ n.settle ↔ m.time ≤ n.time := by
  rw [le_def, rank_settle, rank]
  have := Bool.toNat_le m.settled
  unfold Time
  omega

theorem eq_of_rank_eq {m n : Moment} (h : m.rank = n.rank) : m = n := by
  obtain ⟨t, s⟩ := m
  obtain ⟨t', s'⟩ := n
  unfold Time at *
  cases s <;> cases s' <;> simp only [rank, Bool.toNat_true, Bool.toNat_false] at h <;>
    first
    | (obtain rfl : t = t' := by omega
       rfl)
    | omega

instance : Std.IsLinearOrder Moment where
  le_refl := le_refl
  le_trans _ _ _ := le_trans
  le_antisymm _ _ h h' := eq_of_rank_eq (Nat.le_antisymm h h')
  le_total := le_total

instance : Std.LawfulOrderLeftLeaningMin Moment where
  min_eq_left _ _ h := if_pos h
  min_eq_right _ _ h := if_neg h

theorem rank_max (m n : Moment) : (max m n).rank = max m.rank n.rank := by
  change (if m ≤ n then n else m).rank = _
  split
  · rename_i h
    exact (Nat.max_eq_right h).symm
  · rename_i h
    exact (Nat.max_eq_left (Nat.le_of_not_le h)).symm

theorem le_max_settle {m n : Moment} : m ≤ max m.settle n := by
  rw [le_def, rank_max]
  exact Nat.le_trans (le_settle m) (Nat.le_max_left _ _)

theorem time_eq (m : Moment) : m.time = m.rank / 2 := by
  have := Bool.toNat_le m.settled
  unfold rank Time at *
  omega

theorem time_le_of_le {m n : Moment} (h : m ≤ n) : m.time ≤ n.time := by
  rw [le_def, rank, rank] at h
  have := Bool.toNat_le n.settled
  unfold Time
  omega

end Moment

end DnsOverStreams
