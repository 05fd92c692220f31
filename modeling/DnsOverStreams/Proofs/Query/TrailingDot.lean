import DnsOverStreams.Proofs.Query.ReadBack
import DnsOverStreams.Reply

namespace DnsOverStreams

namespace DomainName

namespace Scan

variable {s t : Scan} {c : Char} {text : List Char}

theorem endLabel_resets (h : s.endLabel = .ok t) : t.label = [] ∧ t.escape = .plain := by
  unfold endLabel at h
  obtain ⟨l, -, h⟩ := ok_of_bind h
  dsimp only at h
  split at h
  · cases h
  · cases h
    exact ⟨rfl, rfl⟩

theorem step_dot (hs : s.escape = .plain) : s.step '.' = s.endLabel := by
  unfold step
  rw [hs]
  rfl

theorem step_plain (hs : s.escape = .plain) (hc : c ≠ '\\') (h : s.step c = .ok t) :
    t.escape = .plain ∧ (c ≠ '.' → t.label ≠ []) := by
  unfold step at h
  rw [hs] at h
  dsimp only at h
  split at h
  · rename_i hdot
    exact ⟨(endLabel_resets h).2, fun hother => absurd hdot hother⟩
  · split at h
    · cases h
    · cases h
      exact ⟨rfl, fun _ => List.append_ne_nil_of_right_ne_nil _ (List.cons_ne_nil _ _)⟩

theorem run_plain (hs : s.escape = .plain) (hplain : '\\' ∉ text) (h : s.run text = .ok t) :
    t.escape = .plain := by
  induction text generalizing s with
  | nil => cases h; exact hs
  | cons c cs ih =>
      obtain ⟨hc, hcs⟩ := not_or.mp (mt List.mem_cons.mpr hplain)
      obtain ⟨u, hu, h⟩ := ok_of_bind h
      exact ih (step_plain hs (Ne.symm hc) hu).1 hcs h

theorem run_open (hs : s.escape = .plain) (hplain : '\\' ∉ text) (hlast : text.getLast? = some c)
    (hc : c ≠ '.') (h : s.run text = .ok t) : t.label ≠ [] := by
  obtain ⟨front, rfl⟩ := List.getLast?_eq_some_iff.mp hlast
  obtain ⟨hfront, hback⟩ := not_or.mp (mt List.mem_append.mpr hplain)
  rw [run_append] at h
  obtain ⟨u, hu, h⟩ := ok_of_bind h
  obtain ⟨v, hv, h⟩ := ok_of_bind h
  cases h
  refine (step_plain (run_plain hs hfront hu) ?_ hv).2 hc
  exact fun h => hback (h ▸ List.mem_singleton_self c)

theorem finish_of_dot (hs : s.escape = .plain) (hopen : s.label ≠ []) :
    (s.run ['.'] >>= finish) = s.finish := by
  have hrun : s.run ['.'] = s.endLabel := by
    change (s.step '.' >>= Except.ok) = _
    rw [step_dot hs]
    cases s.endLabel <;> rfl
  rw [hrun]
  unfold finish
  rw [if_neg hopen]
  cases h : s.endLabel with
  | error e => rfl
  | ok t => exact if_pos (endLabel_resets h).1

end Scan

theorem ofText_dot {text : List Char} (hne : text ≠ []) (hplain : '\\' ∉ text)
    (hlast : text.getLast? ≠ some '.') : ofText (text ++ ['.']) = ofText text := by
  have hroot : text ≠ ['.'] := fun h => hlast (h ▸ rfl)
  have hroot' : text ++ ['.'] ≠ ['.'] := fun h => hne (List.append_cancel_right h)
  unfold ofText
  rw [if_neg hroot, if_neg hroot', Scan.run_append]
  cases h : Scan.start.run text with
  | error e => rfl
  | ok s =>
      obtain ⟨c, hc⟩ := Option.ne_none_iff_exists'.mp (mt List.getLast?_eq_none_iff.mp hne)
      have hopen := Scan.run_open rfl hplain hc (fun hdot => hlast (hdot ▸ hc)) h
      exact Scan.finish_of_dot (Scan.run_plain rfl hplain h) hopen

end DomainName

namespace Query

def named (q : Query) (name : String) : Query :=
  { q with name := name }

/-- Neither of the queries can be sent, or both are sent as the same bytes and take the same replies. -/
def SameQuery (p q : Query) : Prop :=
  (∃ e, p.pack = .error e ∧ q.pack = .error e) ∨
    ∃ m n raw, p.message = .ok m ∧ q.message = .ok n ∧ m.write = .ok raw ∧ n.write = .ok raw ∧
      ∀ reply, Reply.ofBytes m reply = Reply.ofBytes n reply

theorem message_named (q : Query) {s t : String}
    (h : DomainName.ofText s.toList = DomainName.ofText t.toList) :
    (q.named s).message = (q.named t).message := by
  unfold message named
  rw [h]
  rfl

theorem sameQuery_of_message {p q : Query} (h : p.message = q.message) : p.SameQuery q := by
  have hpack : p.pack = q.pack := congrArg (· >>= Message.write) h
  cases hp : p.pack with
  | error e => exact .inl ⟨e, hp, hpack ▸ hp⟩
  | ok raw =>
      obtain ⟨m, hm, hraw⟩ := ok_of_bind hp
      exact .inr ⟨m, m, raw, hm, h ▸ hm, hraw, hraw, fun _ => rfl⟩

/-- A dot behind a relative name changes nothing, and behind no name at all it is the root either way. -/
theorem trailing_dot_changes_nothing (q : Query) :
    (∀ s : String, s ≠ "" → '\\' ∉ s.toList → s.toList.getLast? ≠ some '.' →
      (q.named s).SameQuery (q.named (s ++ "."))) ∧
    (q.named "").SameQuery (q.named ".") ∧
      ∃ m raw, (q.named "").message = .ok m ∧ m.write = .ok raw ∧
        m.questions = [⟨DomainName.root, q.recordType, internet⟩] := by
  refine ⟨fun s hne hplain hlast => ?_, ?_, ?_⟩
  · refine sameQuery_of_message (message_named q ?_)
    rw [String.toList_append]
    exact (DomainName.ofText_dot (String.toList_eq_nil_iff.not.mpr hne) hplain hlast).symm
  · exact sameQuery_of_message (message_named q rfl)
  · have hroot : DomainName.ofText (q.named "").name.toList = .ok DomainName.root := rfl
    obtain ⟨options, raw, hm, hraw, -⟩ := message_sent hroot (by decide)
    exact ⟨_, raw, hm, hraw, rfl⟩

theorem trailing_dot_changes_nothing_padded :
    let q : Query := ⟨"", 28, 3, 7, 0⟩
    "Ab.c" ≠ "" ∧ '\\' ∉ "Ab.c".toList ∧ "Ab.c".toList.getLast? ≠ some '.' ∧
      (q.named "Ab.c").SameQuery (q.named "Ab.c.") := by
  intro q
  have hplain : '\\' ∉ "Ab.c".toList := by decide
  have hlast : "Ab.c".toList.getLast? ≠ some '.' := by decide
  exact ⟨by decide, hplain, hlast,
    (trailing_dot_changes_nothing q).1 "Ab.c" (by decide) hplain hlast⟩

end Query

end DnsOverStreams
