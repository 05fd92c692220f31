import DnsOverStreams.Message.Reader
import Mathlib.Data.Option.Basic
/-!
The fields that stand at fixed places of a message. Of a message that can be read, the header and the
first question are what the bytes there say.
-/

namespace DnsOverStreams

namespace Bytes

/-- The word at a place, in which bytes that are missing count as zero. -/
def wordAt (bs : Bytes) (place : Nat) : UInt16 :=
  toWord (bs.getD place 0) (bs.getD (place + 1) 0)

def responseBit (bs : Bytes) : Nat :=
  (bs.wordAt 2).toNat >>> 15 % 2

def opcodeBits (bs : Bytes) : Nat :=
  (bs.wordAt 2).toNat >>> 11 % 16

end Bytes

namespace Cursor

variable {bs : Bytes} {place : Nat} {w : UInt16} {c : Cursor}

theorem word_eq_some (h : (seek bs place).word = some (w, c)) :
    place + 2 ≤ bs.length ∧ w = bs.wordAt place ∧ c = seek bs (place + 2) := by
  have hlength : (bs.drop place).length = bs.length - place := List.length_drop
  have hget (i : Nat) : bs.getD (place + i) 0 = (bs.drop place).getD i 0 := by
    rw [List.getD_eq_getElem?_getD, List.getD_eq_getElem?_getD, List.getElem?_drop]
  have hdrop : bs.drop (place + 2) = (bs.drop place).drop 2 := List.drop_drop.symm
  have h0 : bs.getD place 0 = (bs.drop place).getD 0 0 := hget 0
  unfold seek at h ⊢
  unfold Bytes.wordAt
  rw [h0, hget 1, hdrop]
  match hd : bs.drop place with
  | [] => rw [hd] at h; cases h
  | [_] => rw [hd] at h; cases h
  | a :: b :: rest =>
      rw [hd] at h hlength
      cases h
      simp only [List.length_cons] at hlength
      exact ⟨by omega, rfl, rfl⟩

theorem many_eq_some {α : Type} {item : Cursor → Option (α × Cursor)} {n : Nat} {xs : List α}
    {after : Cursor} (h : c.many item n = some (xs, after)) : xs.length = n := by
  induction n generalizing c xs with
  | zero => cases h; rfl
  | succ n ih =>
      simp only [many, Option.bind_eq_bind, Option.bind_eq_some_iff] at h
      obtain ⟨⟨x, c⟩, -, ⟨ys, c'⟩, hys, h⟩ := h
      cases h
      exact congrArg (· + 1) (ih hys)

theorem many_one {α : Type} {item : Cursor → Option (α × Cursor)} {x : α} {after : Cursor}
    (h : c.many item 1 = some ([x], after)) : item c = some (x, after) := by
  simp only [many, Option.bind_eq_bind, Option.bind_eq_some_iff] at h
  obtain ⟨⟨y, c⟩, hy, ⟨ys, c'⟩, hys, h⟩ := h
  cases hys
  cases h
  exact hy

end Cursor

theorem Header.read_eq_some {bs : Bytes} {h : Header} {c : Cursor}
    (hr : Header.read (.seek bs 0) = some (h, c)) :
    12 ≤ bs.length ∧ c = .seek bs 12 ∧
      h = ⟨bs.wordAt 0, bs.wordAt 2, bs.wordAt 4, bs.wordAt 6, bs.wordAt 8, bs.wordAt 10⟩ := by
  simp only [Header.read, Option.bind_eq_bind, Option.bind_eq_some_iff] at hr
  obtain ⟨⟨_, _⟩, h0, ⟨_, _⟩, h2, ⟨_, _⟩, h4, ⟨_, _⟩, h6, ⟨_, _⟩, h8, ⟨_, _⟩, h10, hr⟩ := hr
  obtain ⟨-, rfl, rfl⟩ := Cursor.word_eq_some h0
  obtain ⟨-, rfl, rfl⟩ := Cursor.word_eq_some h2
  obtain ⟨-, rfl, rfl⟩ := Cursor.word_eq_some h4
  obtain ⟨-, rfl, rfl⟩ := Cursor.word_eq_some h6
  obtain ⟨-, rfl, rfl⟩ := Cursor.word_eq_some h8
  obtain ⟨hlong, rfl, rfl⟩ := Cursor.word_eq_some h10
  cases hr
  exact ⟨hlong, rfl, rfl⟩

theorem Opcode.ofCode?_eq_some {code : Nat} {o : Opcode} (h : ofCode? code = some o) :
    o.code = code := by
  unfold ofCode? at h
  split at h <;> cases h <;> rfl

theorem Message.read_eq_some {bs : Bytes} {m : Message} (h : Message.read bs = some m) :
    12 ≤ bs.length ∧ m.id = bs.wordAt 0 ∧ m.flags = Flags.ofWord (bs.wordAt 2) ∧
      m.opcode.code = bs.opcodeBits ∧
      ∃ c, (Cursor.seek bs 12).many (Question.read bs) (bs.wordAt 4).toNat =
        some (m.questions, c) := by
  simp only [Message.read, Option.bind_eq_bind, Option.bind_eq_some_iff] at h
  obtain ⟨⟨_, _⟩, hheader, o, ho, ⟨_, _⟩, hq, ⟨_, _⟩, -, ⟨_, _⟩, -, ⟨_, _⟩, -, e, -, h⟩ := h
  obtain ⟨hlong, rfl, rfl⟩ := Header.read_eq_some hheader
  cases h
  exact ⟨hlong, rfl, rfl, Opcode.ofCode?_eq_some ho, _, hq⟩

end DnsOverStreams
