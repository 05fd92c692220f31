import DnsOverStreams.DomainName.Compression
import DnsOverStreams.DomainName.Wire
/-!
Names that are written into a message are read from it. A pointer leads to a place at which the rest of
the name was written before, so all that is known stands where it is said to stand, whatever is written
later.
-/

namespace DnsOverStreams

theorem ok_of_bind {ε α β : Type} {x : Except ε α} {f : α → Except ε β} {b : β}
    (h : (x >>= f) = .ok b) : ∃ a, x = .ok a ∧ f a = .ok b := by
  cases x with
  | error e => cases h
  | ok a => exact ⟨a, rfl, h⟩

/-- What is read where the bytes stand, whatever comes after them. -/
def Reads {α : Type} (item : Bytes → Cursor → Option (α × Cursor)) (written bytes : Bytes) (x : α) :
    Prop :=
  ∀ tail, item (written ++ bytes ++ tail) ⟨written.length, bytes ++ tail⟩ =
    some (x, ⟨written.length + bytes.length, tail⟩)

namespace DomainName

def Regular (n : DomainName) : Prop :=
  ∀ l ∈ n, 0 < l.length ∧ l.length ≤ maxLabel

theorem Regular.append_iff {m n : DomainName} : (m ++ n).Regular ↔ m.Regular ∧ n.Regular := by
  refine ⟨fun h => ⟨fun l hl => ?_, fun l hl => ?_⟩, fun h l hl => ?_⟩
  · exact h l (List.mem_append_left _ hl)
  · exact h l (List.mem_append_right _ hl)
  · rcases List.mem_append.mp hl with hl | hl
    · exact h.1 l hl
    · exact h.2 l hl

section

variable {message after : Bytes} {bound : Option Nat} {start place : Nat}

theorem bound_any (h : ∀ b ∈ bound, place < b) : ¬ bound.any (· ≤ place) = true := by
  cases bound with
  | none => simp
  | some b =>
      have := h b rfl
      simpa using this

theorem labelsAt_zero (h : ∀ b ∈ bound, place < b) :
    labelsAt message bound start place (0 :: after) = some ([], ⟨place + 1, after⟩) := by
  rw [labelsAt.eq_def, if_neg (bound_any h)]
  rfl

theorem labelsAt_label {l : Label} (hl : 0 < l.length ∧ l.length ≤ maxLabel)
    (h : ∀ b ∈ bound, place < b) :
    labelsAt message bound start place (UInt8.ofNat l.length :: (l ++ after)) =
      (labelsAt message bound start (place + 1 + l.length) after).map fun (ls, c) =>
        (l :: ls, c) := by
  have hsize : (UInt8.ofNat l.length).toNat = l.length := by
    have := hl.2
    unfold maxLabel at this
    rw [UInt8.toNat_ofNat']
    omega
  have hpos : UInt8.ofNat l.length ≠ 0 := by
    intro h0
    rw [h0] at hsize
    exact absurd hsize.symm (Nat.ne_of_gt hl.1)
  have hsmall : UInt8.ofNat l.length < 64 := by
    rw [UInt8.lt_iff_toNat_lt, hsize]
    exact Nat.lt_succ_of_le hl.2
  rw [labelsAt.eq_def, if_neg (bound_any h)]
  simp only [if_neg hpos, if_pos hsmall, hsize, List.take_left, List.drop_left, if_true]
  cases labelsAt message bound start (place + 1 + l.length) after <;> rfl

theorem labelsAt_labelBytes {front : DomainName} (hf : front.Regular)
    (h : ∀ b ∈ bound, place + front.size ≤ b) :
    labelsAt message bound start place (labelBytes front ++ after) =
      (labelsAt message bound start (place + front.size) after).map fun (ls, c) =>
        (front ++ ls, c) := by
  induction front generalizing place with
  | nil => cases hr : labelsAt message bound start place after <;> simp [labelBytes, hr]
  | cons l front ih =>
      rw [size_cons] at h ⊢
      have hl := hf l List.mem_cons_self
      have hplace : ∀ b ∈ bound, place < b := fun b hb => by
        have := h b hb
        omega
      have hmove : place + (l.length + 1 + size front) = place + 1 + l.length + size front := by
        omega
      simp only [labelBytes, List.cons_append, List.append_assoc]
      rw [hmove] at h ⊢
      rw [labelsAt_label hl hplace, ih (fun k hk => hf k (List.mem_cons_of_mem _ hk)) h,
        Option.map_map]
      rfl

theorem length_pointer (target : Nat) : (pointer target).length = 2 :=
  rfl

theorem pointer_eq {target : Nat} (h : target < 0x4000) :
    ∃ hi lo : UInt8, pointer target = [hi, lo] ∧ 192 ≤ hi.toNat ∧
      (hi.toNat - 192) * 256 + lo.toNat = target := by
  refine ⟨_, _, rfl, ?_, ?_⟩
  all_goals
    simp only [UInt8.toNat_ofNat', UInt16.toNat_ofNat']
    omega

theorem labelsAt_pointer {target : Nat} {n : DomainName} {c : Cursor} (h : ∀ b ∈ bound, place < b)
    (hreach : target < 0x4000) (hstart : target < start)
    (hn : labelsAt message (some start) target target (message.drop target) = some (n, c)) :
    labelsAt message bound start place (pointer target ++ after) =
      some (n, ⟨place + 2, after⟩) := by
  obtain ⟨hi, lo, hp, hhi, htarget⟩ := pointer_eq hreach
  have h0 : hi ≠ 0 := by
    rintro rfl
    simp at hhi
  have h64 : ¬ hi < 64 := by
    rw [UInt8.lt_iff_toNat_lt]
    exact Nat.not_lt.mpr (Nat.le_trans (by decide) hhi)
  have h192 : ¬ hi < 192 := by
    rw [UInt8.lt_iff_toNat_lt]
    exact Nat.not_lt.mpr hhi
  rw [hp, labelsAt.eq_def, if_neg (bound_any h)]
  simp only [List.cons_append, List.nil_append, if_neg h0, if_neg h64, if_neg h192, htarget,
    if_pos hstart, hn]

end

end DomainName

namespace Known

/-- Every name that is known can be read at its place, whatever comes after what is written. -/
def Sound (known : Known) (written : Bytes) : Prop :=
  ∀ n p, (n, p) ∈ known → p < 0x4000 ∧ p < written.length ∧
    ∀ (tail : Bytes) (bound : Option Nat), (∀ b ∈ bound, written.length ≤ b) →
      ∃ c, DomainName.labelsAt (written ++ tail) bound p p ((written ++ tail).drop p) = some (n, c)

theorem sound_nil (written : Bytes) : Sound [] written := by
  intro n p h
  cases h

theorem Sound.extend {known : Known} {written : Bytes} (h : Sound known written) (more : Bytes) :
    Sound known (written ++ more) := by
  intro n p hn
  obtain ⟨hreach, hp, hread⟩ := h n p hn
  rw [List.length_append]
  refine ⟨hreach, Nat.lt_add_right _ hp, fun tail bound hb => ?_⟩
  rw [List.append_assoc]
  exact hread (more ++ tail) bound fun b hmem => Nat.le_trans (Nat.le_add_right _ _) (hb b hmem)

theorem Sound.append {known later : Known} {written : Bytes} (h : Sound known written)
    (h' : Sound later written) : Sound (known ++ later) written := by
  intro n p hn
  rcases List.mem_append.mp hn with hn | hn
  · exact h n p hn
  · exact h' n p hn

end Known

namespace DomainName

theorem labelBytes_append (m n : DomainName) : labelBytes (m ++ n) = labelBytes m ++ labelBytes n := by
  induction m with
  | nil => rfl
  | cons l m ih => simp [labelBytes, ih]

theorem split_eq {known : Known} {n front : DomainName} {rest : Option Nat}
    (h : split known n = (front, rest)) :
    (rest = none ∧ n = front) ∨
      ∃ target suffix, rest = some target ∧ n = front ++ suffix ∧ suffix ≠ [] ∧
        (suffix, target) ∈ known := by
  induction n generalizing front rest with
  | nil => cases h; exact .inl ⟨rfl, rfl⟩
  | cons l n ih =>
      rw [split] at h
      cases hl : known.lookup (l :: n) with
      | some target =>
          rw [hl] at h
          cases h
          obtain ⟨pre, post, rfl, -⟩ := List.lookup_eq_some_iff.mp hl
          exact .inr ⟨target, l :: n, rfl, rfl, List.cons_ne_nil _ _, by simp⟩
      | none =>
          rw [hl] at h
          cases h
          rcases ih (rfl : split known n = ((split known n).1, (split known n).2)) with 
            ⟨hr, hn⟩ | ⟨target, suffix, hr, hn, hk⟩
          · exact .inl ⟨hr, congrArg (l :: ·) hn⟩
          · exact .inr ⟨target, suffix, hr, congrArg (l :: ·) hn, hk⟩

theorem mem_places {place : Nat} {front suffix m : DomainName} {p : Nat}
    (h : (m, p) ∈ places place front.length (front ++ suffix)) :
    ∃ pre post, front = pre ++ post ∧ post ≠ [] ∧ p = place + pre.size ∧ m = post ++ suffix := by
  induction front generalizing place with
  | nil => simp [places] at h
  | cons l front ih =>
      rw [List.length_cons, List.cons_append, places] at h
      rcases List.mem_cons.mp h with h | h
      · cases h
        exact ⟨[], l :: front, rfl, by simp, rfl, rfl⟩
      · obtain ⟨pre, post, rfl, hpost, rfl, rfl⟩ := ih h
        refine ⟨l :: pre, post, rfl, hpost, ?_, rfl⟩
        rw [size_cons]
        omega

/-- How a name ends: with a zero byte, or with a pointer to the place of its rest. -/
inductive Ends (known : Known) : DomainName → Bytes → Prop
  | zero : Ends known [] [0]
  | pointer {suffix : DomainName} {target : Nat} (hs : suffix ≠ []) (h : (suffix, target) ∈ known) :
      Ends known suffix (pointer target)

theorem write_eq_ok {known later : Known} {place : Nat} {n : DomainName} {bytes : Bytes}
    (h : write known place n = .ok (bytes, later)) :
    ∃ front suffix ending, n = front ++ suffix ∧ bytes = labelBytes front ++ ending ∧
      Ends known suffix ending ∧
      (later = known ∨
        (place + n.size < reach ∧ later = known ++ places place front.length n)) := by
  unfold write at h
  cases hs : split known n with
  | mk front rest =>
      rw [hs] at h
      dsimp only at h
      have hlater (k : Known) (hk : k = if place + n.size < reach then
          known ++ places place front.length n else known) :
          k = known ∨ (place + n.size < reach ∧ k = known ++ places place front.length n) := by
        split at hk
        · rename_i hlt
          exact .inr ⟨hlt, hk⟩
        · exact .inl hk
      rcases split_eq hs with ⟨rfl, hn⟩ | ⟨target, suffix, rfl, hn, hs, hk⟩
      · dsimp only at h
        split at h
        · cases h
          exact ⟨front, [], [0], by simpa using hn, rfl, .zero, hlater _ rfl⟩
        · cases h
      · cases h
        exact ⟨front, suffix, pointer target, hn, rfl, .pointer hs hk, hlater _ rfl⟩

theorem labelsAt_written {known : Known} {written ending : Bytes}
    {front suffix : DomainName} {bound : Option Nat} {start place : Nat}
    (hk : Known.Sound known written) (hends : Ends known suffix ending) (hf : front.Regular)
    (hstart : written.length ≤ start) (hbound : ∀ b ∈ bound, place + front.size < b)
    (later after : Bytes) :
    labelsAt (written ++ later) bound start place (labelBytes front ++ ending ++ after) =
      some (front ++ suffix, ⟨place + front.size + ending.length, after⟩) := by
  rw [List.append_assoc, labelsAt_labelBytes hf fun b hb => Nat.le_of_lt (hbound b hb)]
  cases hends with
  | zero =>
      rw [List.singleton_append, labelsAt_zero hbound]
      simp
  | pointer _ h =>
      obtain ⟨hreach, htarget, hread⟩ := hk _ _ h
      obtain ⟨c, hc⟩ := hread later (some start) (by rintro b ⟨⟩; exact hstart)
      rw [labelsAt_pointer hbound hreach (Nat.lt_of_lt_of_le htarget hstart) hc]
      rfl

theorem Ends.length_pos {known : Known} {suffix : DomainName} {ending : Bytes}
    (h : Ends known suffix ending) : 0 < ending.length := by
  cases h with
  | zero => exact Nat.one_pos
  | pointer _ _ => exact Nat.two_pos

theorem sound_places {known : Known} {written ending : Bytes} {front suffix : DomainName}
    (hk : Known.Sound known written) (hends : Ends known suffix ending) (hf : front.Regular)
    (hreach : written.length + (front ++ suffix).size < reach) :
    Known.Sound (places written.length front.length (front ++ suffix))
      (written ++ (labelBytes front ++ ending)) := by
  intro m p hm
  obtain ⟨pre, post, rfl, hpost, rfl, rfl⟩ := mem_places hm
  have hpos := hends.length_pos
  rw [size_append, size_append] at hreach
  have hlength : (written ++ (labelBytes (pre ++ post) ++ ending)).length =
      written.length + pre.size + post.size + ending.length := by
    simp only [List.length_append, length_labelBytes, size_append]
    omega
  refine ⟨Nat.lt_of_le_of_lt ?_ (Nat.lt_trans hreach (by decide)), ?_, fun tail bound hb => ?_⟩
  · omega
  · omega
  · rw [hlength] at hb
    -- the rest begins behind `pre` and ends as the name does
    have hdrop : (written ++ (labelBytes (pre ++ post) ++ ending) ++ tail).drop
        (written.length + pre.size) = labelBytes post ++ ending ++ tail := by
      have hpre : written.length + pre.size = (written ++ labelBytes pre).length := by
        rw [List.length_append, length_labelBytes]
      have happend : written ++ (labelBytes (pre ++ post) ++ ending) ++ tail =
          (written ++ labelBytes pre) ++ (labelBytes post ++ ending ++ tail) := by
        rw [labelBytes_append]
        simp only [List.append_assoc]
      rw [happend, hpre, List.drop_left]
    rw [hdrop, List.append_assoc written]
    refine ⟨_, labelsAt_written hk hends (Regular.append_iff.mp hf).2 (Nat.le_add_right _ _)
      (fun b hmem => ?_) _ _⟩
    have := hb b hmem
    omega

theorem Regular.size_pos {n : DomainName} (h : n.Regular) (hne : n ≠ []) : 2 ≤ n.size := by
  obtain ⟨l, n, rfl⟩ := List.exists_cons_of_ne_nil hne
  have := (h l List.mem_cons_self).1
  rw [size_cons]
  omega

theorem Ends.length_le {known : Known} {front suffix : DomainName} {ending : Bytes}
    (h : Ends known suffix ending) (hn : (front ++ suffix).Regular) :
    (labelBytes front ++ ending).length ≤ (front ++ suffix).wireLength := by
  rw [List.length_append, length_labelBytes, wireLength, size_append]
  cases h with
  | zero => exact Nat.le_refl _
  | pointer hs _ =>
      have := (Regular.append_iff.mp hn).2.size_pos hs
      rw [length_pointer]
      omega

theorem reads_written {known : Known} {written ending : Bytes} {front suffix : DomainName}
    (hk : known.Sound written) (hends : Ends known suffix ending) (hf : front.Regular)
    (hwire : (front ++ suffix).wireLength ≤ maxWire) :
    Reads DomainName.read written (labelBytes front ++ ending) (front ++ suffix) := by
  intro tail
  have hbound : ∀ b ∈ (none : Option Nat), written.length + front.size < b := by
    rintro b ⟨⟩
  have hread := labelsAt_written hk hends hf (Nat.le_refl _) hbound
    (labelBytes front ++ ending ++ tail) tail
  unfold DomainName.read
  rw [List.append_assoc written, hread]
  simp only [if_pos hwire, List.length_append, length_labelBytes, Nat.add_assoc]

theorem write_spec {known later : Known} {written bytes : Bytes} {n : DomainName}
    (hk : known.Sound written) (hn : n.Regular)
    (h : write known written.length n = .ok (bytes, later)) :
    later.Sound (written ++ bytes) ∧ bytes.length ≤ n.wireLength ∧
      (n.wireLength ≤ maxWire → Reads DomainName.read written bytes n) := by
  obtain ⟨front, suffix, ending, rfl, rfl, hends, hlater⟩ := write_eq_ok h
  have hf := (Regular.append_iff.mp hn).1
  refine ⟨?_, hends.length_le hn, reads_written hk hends hf⟩
  rcases hlater with rfl | ⟨hreach, rfl⟩
  · exact hk.extend _
  · exact (hk.extend _).append (sound_places hk hends hf hreach)

theorem write_isOk {n : DomainName} (hn : n.wireLength ≤ maxWire) (known : Known) (place : Nat) :
    ∃ bytes later, write known place n = .ok (bytes, later) := by
  unfold write
  cases split known n with
  | mk front rest =>
      cases rest with
      | some target => exact ⟨_, _, rfl⟩
      | none =>
          dsimp only
          rw [if_pos hn]
          exact ⟨_, _, rfl⟩

def bytes (n : DomainName) : Bytes :=
  labelBytes n ++ [0]

theorem length_bytes (n : DomainName) : n.bytes.length = n.wireLength := by
  rw [bytes, List.length_append, length_labelBytes]
  rfl

theorem write_first {place : Nat} {n : DomainName} {bytes : Bytes} {known : Known}
    (h : write [] place n = .ok (bytes, known)) :
    n.wireLength ≤ maxWire ∧ bytes = n.bytes := by
  unfold write at h
  rw [split_nil] at h
  dsimp only at h
  split at h
  · rename_i hshort
    cases h
    exact ⟨hshort, rfl⟩
  · cases h

end DomainName

end DnsOverStreams
