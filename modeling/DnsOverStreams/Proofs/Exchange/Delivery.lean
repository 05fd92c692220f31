import DnsOverStreams.Exchange.Basic
import DnsOverStreams.Proofs.Exchange.Framing
import DnsOverStreams.Proofs.Task.Answered
/-!
Reading from a stream that hands out its bytes in pieces of any size. What is read does not depend on the
pieces: it is the bytes that were asked for, and no byte after them is taken.
-/

namespace DnsOverStreams

/-- Bytes that are unread come in pieces that are not empty and fit the room there is for them. -/
def Delivers {σ : Type} (around : Counterpart σ) (unread : σ → Bytes) : Prop :=
  ∀ now st room, 0 < room → unread st ≠ [] →
    (around now st (.read room)).delay ≠ .never ∧
      ∃ piece, (around now st (.read room)).answer = .ok piece ∧ piece ≠ [] ∧
        piece.length ≤ room ∧ unread st = piece ++ unread (around now st (.read room)).state

/-- Where bytes are owed, a read hands out a piece of them that is not empty and fits its room, and the
rest is owed. -/
def Hands {σ : Type} (around : Counterpart σ) (Owed : Bytes → σ → Prop) : Prop :=
  ∀ now st room unread, 0 < room → unread ≠ [] → Owed unread st →
    (around now st (.read room)).Gives fun a later =>
      ∃ piece rest, a = .ok piece ∧ piece ≠ [] ∧ piece.length ≤ room ∧ unread = piece ++ rest ∧
        Owed rest later

theorem Delivers.hands {σ : Type} {around : Counterpart σ} {unread : σ → Bytes}
    (hd : Delivers around unread) : Hands around fun bytes st => unread st = bytes := by
  rintro now st room _ hroom hne rfl
  obtain ⟨hdelay, piece, hanswer, hpiece, hfits, hsplit⟩ := hd now st room hroom hne
  exact ⟨hdelay, piece, _, hanswer, hpiece, hfits, hsplit, rfl⟩

namespace Hands

variable {σ : Type} {around : Counterpart σ} {Owed : Bytes → σ → Prop} {st : σ}
variable {front rest body : Bytes} {Q : Except IoFailure Bytes → σ → Prop}

theorem split_piece {piece later : Bytes} (h : piece ++ later = front ++ rest)
    (hle : piece.length ≤ front.length) : ∃ more, front = piece ++ more ∧ later = more ++ rest := by
  rcases List.append_eq_append_iff.mp h with ⟨more, hfront, hlater⟩ | ⟨more, hpiece, hrest⟩
  · exact ⟨more, hfront, hlater⟩
  · have hlength := congrArg List.length hpiece
    rw [List.length_append] at hlength
    have hnil : more = [] := List.eq_nil_of_length_eq_zero (by omega)
    rw [hnil, List.append_nil] at hpiece
    rw [hnil] at hrest
    exact ⟨[], by rw [hpiece, List.append_nil], hrest.symm⟩

theorem readRest (h : Hands around Owed) (whole : Nat) {chunks : List Bytes} {missing : Nat}
    (hst : Owed (front ++ rest) st) (hfront : front.length = missing)
    (hq : ∀ later, Owed rest later → Q (.ok (chunks.reverse.flatten ++ front)) later) :
    (Talk.readRest whole chunks missing).Yields around Q st := by
  induction missing using Nat.strongRecOn generalizing chunks st front with
  | ind missing ih =>
      rw [Talk.readRest]
      split
      · rename_i hzero
        have hnil : front = [] := List.eq_nil_of_length_eq_zero (hfront.trans hzero)
        rw [hnil] at hq hst
        rw [List.append_nil] at hq
        exact hq st hst
      · rename_i hpos
        intro now
        have hne : front ++ rest ≠ [] := by
          intro hnil
          rw [(List.append_eq_nil_iff.mp hnil).1] at hfront
          exact hpos hfront.symm
        obtain ⟨hdelay, piece, left, hanswer, hpiece, hfits, hsplit, hleft⟩ :=
          h now st missing _ (Nat.pos_of_ne_zero hpos) hne hst
        refine ⟨hdelay, ?_⟩
        rw [hanswer]
        dsimp only
        rw [List.take_of_length_le hfits, if_neg hpiece]
        obtain ⟨more, hmore, rfl⟩ :=
          split_piece hsplit.symm (Nat.le_trans hfits (Nat.le_of_eq hfront.symm))
        have hlength : piece.length + more.length = missing := by
          rw [← List.length_append, ← hmore, hfront]
        have hsome := List.length_pos_iff.mpr hpiece
        refine ih (missing - piece.length) (by omega) hleft (by omega) fun later hrest => ?_
        have hdone := hq later hrest
        rw [hmore] at hdone
        simpa using hdone

theorem readExactly (h : Hands around Owed) {n : Nat} (hst : Owed (front ++ rest) st)
    (hfront : front.length = n) (hq : ∀ later, Owed rest later → Q (.ok front) later) :
    (Talk.readExactly n).Yields around Q st :=
  h.readRest n hst hfront hq

theorem readFrame (h : Hands around Owed) (rest : Bytes) (hbody : body.length ≤ Frame.maxBody)
    (hst : Owed (Frame.of body ++ rest) st) (hq : ∀ later, Owed rest later → Q (.ok body) later) :
    Talk.readFrame.Yields around Q st := by
  rw [Frame.of, List.append_assoc] at hst
  refine Task.Yields.bind (h.readExactly hst rfl fun later hlater => ?_)
  dsimp only
  rw [Frame.announced_ofWord hbody]
  exact h.readExactly hlater rfl hq

end Hands

end DnsOverStreams
