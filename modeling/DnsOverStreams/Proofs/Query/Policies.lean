import DnsOverStreams.Proofs.Query.ReadBack

namespace DnsOverStreams

namespace Query

def raised (q : Query) (ps : List Protocol) : Query where
  name := q.name
  recordType := q.recordType
  flags := if .tls ∈ ps ∨ .quic ∈ ps then q.flags ||| (paddingFlag ||| dnssecFlag) else q.flags
  id := if .quic ∈ ps then 0 else q.id
  maxSize := if ps = [] then q.maxSize else maxSizeStream

variable {q : Query} {p : Protocol} {ps qs : List Protocol}

theorem raised_prepare (q : Query) (p : Protocol) (ps : List Protocol) :
    (q.prepare p).raised ps = q.raised (p :: ps) := by
  cases p with
  | tcp => simp [raised, prepare]
  | tls => simp [raised, prepare, UInt16.or_assoc]
  | quic => simp [raised, prepare, UInt16.or_assoc]

theorem prepareAll_eq_raised (q : Query) (ps : List Protocol) : q.prepareAll ps = q.raised ps := by
  induction ps generalizing q with
  | nil => simp [prepareAll, raised]
  | cons p ps ih => exact (ih (q.prepare p)).trans (raised_prepare q p ps)

theorem raised_congr (q : Query) (h : ∀ p, p ∈ ps ↔ p ∈ qs) : q.raised ps = q.raised qs := by
  have hnil : ps = [] ↔ qs = [] := by simp only [List.eq_nil_iff_forall_not_mem, h]
  simp only [raised, h, hnil]

theorem testBit_raised (q : Query) (ps : List Protocol) (i : Nat) :
    (q.raised ps).flags.toNat.testBit i = true ↔
      q.flags.toNat.testBit i = true ∨ i < 2 ∧ (.tls ∈ ps ∨ .quic ∈ ps) := by
  have hboth : (paddingFlag ||| dnssecFlag).toNat.testBit i = decide (i < 2) := by
    change (2 ^ 2 - 1).testBit i = _
    exact Nat.testBit_two_pow_sub_one 2 i
  unfold raised
  split
  · rename_i hs
    rw [UInt16.toNat_or, Nat.testBit_or, hboth]
    simp [hs]
  · rename_i hs
    simp [hs]

/-- What a query becomes when protocols make their settings: all that the caller set is kept. The two lowest
flags are those by which padding and signatures are asked for. -/
structure Settles (q : Query) (ps : List Protocol) (r : Query) : Prop where
  name : r.name = q.name
  recordType : r.recordType = q.recordType
  maxSize : r.maxSize = if ps = [] then q.maxSize else 65535
  flags : ∀ i, r.flags.toNat.testBit i = true ↔
    q.flags.toNat.testBit i = true ∨ i < 2 ∧ (.tls ∈ ps ∨ .quic ∈ ps)
  id : r.id = if .quic ∈ ps then 0 else q.id

theorem settles_raised (q : Query) (ps : List Protocol) : q.Settles ps (q.raised ps) where
  name := rfl
  recordType := rfl
  maxSize := rfl
  flags := testBit_raised q ps
  id := rfl

/-- Protocols that make their settings in turn come to the same in any order and however often. -/
theorem policies_depend_on_set (q : Query) (ps : List Protocol) :
    q.Settles ps (q.prepareAll ps) ∧
      ∀ qs : List Protocol, (∀ p, p ∈ ps ↔ p ∈ qs) → q.prepareAll ps = q.prepareAll qs := by
  rw [prepareAll_eq_raised]
  refine ⟨settles_raised q ps, fun qs h => ?_⟩
  rw [prepareAll_eq_raised]
  exact raised_congr q h

theorem policies_depend_on_set_repeated :
    let q : Query := ⟨"example", 1, 0x8001, 4242, 0⟩
    (∀ p, p ∈ [Protocol.tls, .tcp, .tls] ↔ p ∈ [Protocol.tcp, .tls]) ∧
      q.prepareAll [.tls, .tcp, .tls] = q.prepareAll [.tcp, .tls] ∧
      q.prepareAll [.tcp, .tls] = ⟨"example", 1, 0x8003, 4242, 65535⟩ := by
  intro q
  have hsame : ∀ p, p ∈ [Protocol.tls, .tcp, .tls] ↔ p ∈ [Protocol.tcp, .tls] := by
    intro p
    cases p <;> decide
  exact ⟨hsame, (policies_depend_on_set q [.tls, .tcp, .tls]).2 _ hsame, by decide⟩

end Query

end DnsOverStreams
