import DnsOverStreams.Proofs.Exchange.Delivery
import DnsOverStreams.Proofs.Exchange.Framing
import DnsOverStreams.Proofs.Exchange.Service
/-!
Frames that are read one after the other from a stream which hands out its bytes in pieces of any size.
The bytes alone decide what is read: the messages whose frames have come, and where the stream ends, how
much has come of the unit after them.
-/

namespace DnsOverStreams

namespace Frame

variable {bytes part sent next : Bytes} {messages : List Bytes} {got whole : Nat}

/-- The bytes end within a frame, when so many bytes of a unit have come, its header or its body. -/
inductive Breaks : Bytes → Nat → Nat → Prop where
  | header {part : Bytes} (short : part.length < headerLength) :
      Breaks part part.length headerLength
  | body {header part : Bytes} (complete : header.length = headerLength)
      (short : part.length < announced header) :
      Breaks (header ++ part) part.length (announced header)

theorem Breaks.lt (h : Breaks part got whole) : got < whole := by
  cases h with
  | header short => exact short
  | body complete short => exact short

theorem exists_breaks (bytes : Bytes) :
    ∃ (messages : List Bytes) (part : Bytes) (got whole : Nat),
      (∀ m ∈ messages, m.length ≤ maxBody) ∧ bytes = messages.flatMap of ++ part ∧
        Breaks part got whole := by
  induction h : bytes.length using Nat.strongRecOn generalizing bytes with
  | ind n ih =>
      by_cases hshort : bytes.length < headerLength
      · exact ⟨[], bytes, _, _, nofun, rfl, .header hshort⟩
      · obtain ⟨header, rest, rfl, hheader⟩ :
            ∃ header rest, bytes = header ++ rest ∧ header.length = headerLength :=
          ⟨_, _, (List.take_append_drop headerLength bytes).symm,
            List.length_take_of_le (Nat.le_of_not_lt hshort)⟩
        by_cases hrest : rest.length < announced header
        · exact ⟨[], _, _, _, nofun, rfl, .body hheader hrest⟩
        · obtain ⟨body, later, rfl, hbody⟩ :
              ∃ body later, rest = body ++ later ∧ body.length = announced header :=
            ⟨_, _, (List.take_append_drop (announced header) rest).symm,
              List.length_take_of_le (Nat.le_of_not_lt hrest)⟩
          have hlength : later.length < n := by
            rw [← h, List.length_append, List.length_append, hheader, headerLength]
            omega
          obtain ⟨messages, part, got, whole, hfits, rfl, hbreaks⟩ := ih _ hlength _ rfl
          refine ⟨body :: messages, part, got, whole, ?_, ?_, hbreaks⟩
          · exact List.forall_mem_cons.mpr ⟨hbody ▸ announced_lt header, hfits⟩
          · rw [List.flatMap_cons, ← of_announced hheader hbody]
            simp only [List.append_assoc]

theorem Breaks.of_prefix (h : Breaks part got whole) {later : Bytes} (hnext : next.length ≤ maxBody)
    (hpart : part <+: of next ++ later) :
    part <+: of next ∧ part ≠ of next ∧
      ((part.length < headerLength ∧ got = part.length ∧ whole = headerLength) ∨
        (headerLength ≤ part.length ∧ got = part.length - headerLength ∧ whole = next.length)) := by
  have hlength := length_of next
  suffices part.length < (of next).length ∧ _ by
    obtain ⟨hlt, hunit⟩ := this
    refine ⟨List.prefix_of_prefix_length_le hpart (List.prefix_append _ _) (Nat.le_of_lt hlt), ?_, hunit⟩
    rintro rfl
    exact Nat.lt_irrefl _ hlt
  cases h with
  | header short => exact ⟨by omega, .inl ⟨short, rfl, rfl⟩⟩
  | @body header part complete short =>
      obtain ⟨more, hmore⟩ := hpart
      rw [of, List.append_assoc, List.append_assoc] at hmore
      obtain ⟨rfl, -⟩ := List.append_inj hmore complete
      rw [announced_ofWord hnext] at short ⊢
      rw [List.length_append, complete]
      exact ⟨by omega, .inr ⟨by omega, by omega, rfl⟩⟩

theorem breaks_of_prefix (hfits : ∀ m ∈ messages, m.length ≤ maxBody)
    (hsent : sent <+: messages.flatMap of) (hne : sent ≠ messages.flatMap of) :
    ∃ complete next later part got whole, messages = complete ++ next :: later ∧
      sent = complete.flatMap of ++ part ∧ part <+: of next ∧ part ≠ of next ∧
      Breaks part got whole ∧
      ((part.length < headerLength ∧ got = part.length ∧ whole = headerLength) ∨
        (headerLength ≤ part.length ∧ got = part.length - headerLength ∧ whole = next.length)) := by
  obtain ⟨complete, part, got, whole, hcomplete, rfl, hbreaks⟩ := exists_breaks sent
  obtain ⟨tail, rfl⟩ := prefix_of_frames hcomplete hfits ((List.prefix_append _ _).trans hsent)
  rw [List.flatMap_append, List.prefix_append_right_inj] at hsent
  cases tail with
  | nil =>
      obtain rfl := List.prefix_nil.mp hsent
      simp at hne
  | cons next later =>
      have hnext := hfits next (List.mem_append_right _ List.mem_cons_self)
      rw [List.flatMap_cons] at hsent
      obtain ⟨hpart, hstrict, hunit⟩ := hbreaks.of_prefix hnext hsent
      exact ⟨complete, next, later, part, got, whole, rfl, rfl, hpart, hstrict, hbreaks, hunit⟩

end Frame

namespace Talk

def readFrames : Nat → Talk (List Bytes × Option IoFailure)
  | 0 => .done ([], none)
  | n + 1 => readFrame.bind fun
      | .error e => .done ([], some e)
      | .ok body => (readFrames n).bind fun (bodies, failure) => .done (body :: bodies, failure)

end Talk

/-- When no bytes are unread any more, the stream has ended, and reads give nothing. -/
def RunsOut {σ : Type} (around : Counterpart σ) (unread : σ → Bytes) : Prop :=
  ∀ now st room, 0 < room → unread st = [] →
    (around now st (.read room)).delay ≠ .never ∧ (around now st (.read room)).answer = .ok []

namespace Delivers

variable {σ : Type} {around : Counterpart σ} {unread : σ → Bytes} {st : σ}
variable {part rest : Bytes} {messages : List Bytes} {got whole : Nat}

theorem readRest_ended (hd : Delivers around unread) (hf : RunsOut around unread) (whole : Nat)
    {chunks : List Bytes} {missing : Nat} (hle : missing ≤ whole)
    (hshort : (unread st).length < missing) :
    (Talk.readRest whole chunks missing).Yields around
      (fun a _ => a = .error (.unexpectedEnd (whole - missing + (unread st).length) whole)) st := by
  induction missing using Nat.strongRecOn generalizing chunks st with
  | ind missing ih =>
      have hpos : 0 < missing := Nat.zero_lt_of_lt hshort
      rw [Talk.readRest, if_neg (Nat.ne_of_gt hpos)]
      intro now
      by_cases hnil : unread st = []
      · obtain ⟨hdelay, hanswer⟩ := hf now st missing hpos hnil
        refine ⟨hdelay, ?_⟩
        rw [hanswer]
        dsimp only
        rw [List.take_nil, if_pos rfl, hnil]
        rfl
      · obtain ⟨hdelay, piece, hanswer, hpiece, hroom, hsplit⟩ := hd now st missing hpos hnil
        refine ⟨hdelay, ?_⟩
        rw [hanswer]
        dsimp only
        rw [List.take_of_length_le hroom, if_neg hpiece]
        have hsome := List.length_pos_iff.mpr hpiece
        have hlength := congrArg List.length hsplit
        rw [List.length_append] at hlength
        have hcount : whole - (missing - piece.length) +
            (unread (around now st (.read missing)).state).length =
              whole - missing + (unread st).length := by omega
        rw [← hcount]
        exact ih (missing - piece.length) (by omega) (by omega) (by omega)

theorem readExactly_ended (hd : Delivers around unread) (hf : RunsOut around unread) {n : Nat}
    (hst : unread st = part) (hshort : part.length < n) :
    (Talk.readExactly n).Yields around
      (fun a _ => a = .error (.unexpectedEnd part.length n)) st := by
  subst hst
  have h : (Talk.readRest n [] n).Yields around _ st :=
    hd.readRest_ended hf n (Nat.le_refl n) hshort
  rwa [Nat.sub_self, Nat.zero_add] at h

theorem readFrame_ended (hd : Delivers around unread) (hf : RunsOut around unread)
    (hst : unread st = part) (h : Frame.Breaks part got whole) :
    Talk.readFrame.Yields around (fun a _ => a = .error (.unexpectedEnd got whole)) st := by
  cases h with
  | header short =>
      refine Task.Yields.bind ((hd.readExactly_ended hf hst short).mono ?_)
      rintro a later rfl
      exact rfl
  | body complete short =>
      refine Task.Yields.bind (hd.hands.readExactly hst complete fun later hlater => ?_)
      exact hd.readExactly_ended hf hlater short

theorem readFrames (hd : Delivers around unread) {n : Nat} (hn : n ≤ messages.length)
    (hfits : ∀ m ∈ messages, m.length ≤ Frame.maxBody)
    (hst : unread st = messages.flatMap Frame.of ++ rest) :
    (Talk.readFrames n).Yields around (fun a later => a = (messages.take n, none) ∧
      unread later = (messages.drop n).flatMap Frame.of ++ rest) st := by
  induction n generalizing messages st with
  | zero => exact ⟨rfl, hst⟩
  | succ n ih =>
      cases messages with
      | nil => exact absurd hn (Nat.not_succ_le_zero n)
      | cons body messages =>
          obtain ⟨hbody, hlater⟩ := List.forall_mem_cons.mp hfits
          rw [List.flatMap_cons, List.append_assoc] at hst
          refine Task.Yields.bind (hd.hands.readFrame _ hbody hst fun mid hmid => ?_)
          refine Task.Yields.bind ((ih (Nat.le_of_succ_le_succ hn) hlater hmid).mono ?_)
          rintro a fin ⟨rfl, hfin⟩
          exact ⟨rfl, hfin⟩

theorem readFrames_ended (hd : Delivers around unread) (hf : RunsOut around unread) {n : Nat}
    (hn : messages.length < n) (hfits : ∀ m ∈ messages, m.length ≤ Frame.maxBody)
    (hst : unread st = messages.flatMap Frame.of ++ part) (h : Frame.Breaks part got whole) :
    (Talk.readFrames n).Yields around
      (fun a _ => a = (messages, some (.unexpectedEnd got whole))) st := by
  induction messages generalizing n st with
  | nil =>
      cases n with
      | zero => exact absurd hn (Nat.not_lt_zero _)
      | succ n =>
          refine Task.Yields.bind ((hd.readFrame_ended hf hst h).mono ?_)
          rintro a later rfl
          exact rfl
  | cons body messages ih =>
      cases n with
      | zero => exact absurd hn (Nat.not_lt_zero _)
      | succ n =>
          obtain ⟨hbody, hlater⟩ := List.forall_mem_cons.mp hfits
          rw [List.flatMap_cons, List.append_assoc] at hst
          refine Task.Yields.bind (hd.hands.readFrame _ hbody hst fun mid hmid => ?_)
          refine Task.Yields.bind ((ih (Nat.lt_of_succ_lt_succ hn) hlater hmid).mono ?_)
          rintro a fin rfl
          exact rfl

end Delivers

namespace Talk

/-- Frames that come in any pieces are read exactly, and no byte after them. If the stream ends before
they have all come, the whole ones are read, and then reading fails and tells how much of which unit was
there. So streams of the same bytes give the same. -/
theorem frames_read_exactly {σ : Type} {around : Counterpart σ} {unread : σ → Bytes} {s : Scope}
    {w : World σ} (hd : Delivers around unread) (hs : s.Endless around w.tokens) :
    (∀ m : Bytes, m.length ≤ Frame.maxBody → Frame.encode m = .ok (Frame.of m)) ∧
    (∀ (messages : List Bytes) (rest : Bytes) (n : Nat),
      (∀ m ∈ messages, m.length ≤ Frame.maxBody) → n ≤ messages.length →
      unread w.state = messages.flatMap Frame.of ++ rest →
        let run := (readFrames n).perform around s none w
        run.ending = .finished (messages.take n, none) ∧
          unread run.world.state = (messages.drop n).flatMap Frame.of ++ rest) ∧
    (RunsOut around unread → ∀ messages : List Bytes, (∀ m ∈ messages, m.length ≤ Frame.maxBody) →
      unread w.state <+: messages.flatMap Frame.of → unread w.state ≠ messages.flatMap Frame.of →
        ∃ complete next later part got whole, messages = complete ++ next :: later ∧
          unread w.state = complete.flatMap Frame.of ++ part ∧
          part <+: Frame.of next ∧ part ≠ Frame.of next ∧ got < whole ∧
          ((part.length < 2 ∧ got = part.length ∧ whole = 2) ∨
            (2 ≤ part.length ∧ got = part.length - 2 ∧ whole = next.length)) ∧
          ∀ n, complete.length < n →
            ((readFrames n).perform around s none w).ending =
              .finished (complete, some ⟨.unexpectedEof,
                "stream closed after " ++ toString got ++ " of " ++ toString whole ++ " bytes"⟩)) ∧
    (RunsOut around unread → ∀ (τ : Type) (other : Counterpart τ) (unread' : τ → Bytes)
      (s' : Scope) (v : World τ), Delivers other unread' → RunsOut other unread' →
        s'.Endless other v.tokens → unread' v.state = unread w.state → ∀ n,
          ((readFrames n).perform other s' none v).ending =
            ((readFrames n).perform around s none w).ending) := by
  refine ⟨fun m hfits => Frame.encode_eq_ok_iff.mpr ⟨hfits, rfl⟩,
    fun messages rest n hfits hn hst => ?_, fun hf messages hfits hsent hne => ?_,
    fun hf τ other unread' s' v hd' hf' hs' hsame n => ?_⟩
  · obtain ⟨a, hending, rfl, hrest⟩ := Task.perform_of_yields hs (hd.readFrames hn hfits hst)
    exact ⟨hending, hrest⟩
  · obtain ⟨complete, next, later, part, got, whole, rfl, hcut, hpart, hstrict, hbreaks, hunit⟩ :=
      Frame.breaks_of_prefix hfits hsent hne
    refine ⟨complete, next, later, part, got, whole, rfl, hcut, hpart, hstrict, hbreaks.lt, hunit,
      fun n hn => ?_⟩
    have hcomplete := fun m hm => hfits m (List.mem_append_left _ hm)
    obtain ⟨a, hending, rfl⟩ :=
      Task.perform_of_yields hs (hd.readFrames_ended hf hn hcomplete hcut hbreaks)
    exact hending
  · obtain ⟨messages, part, got, whole, hfits, hcut, hbreaks⟩ := Frame.exists_breaks (unread w.state)
    have hcut' := hsame.trans hcut
    rcases Nat.lt_or_ge messages.length n with hn | hn
    · obtain ⟨a, hending, rfl⟩ :=
        Task.perform_of_yields hs (hd.readFrames_ended hf hn hfits hcut hbreaks)
      obtain ⟨b, hending', rfl⟩ :=
        Task.perform_of_yields hs' (hd'.readFrames_ended hf' hn hfits hcut' hbreaks)
      exact hending'.trans hending.symm
    · obtain ⟨a, hending, rfl, -⟩ := Task.perform_of_yields hs (hd.readFrames hn hfits hcut)
      obtain ⟨b, hending', rfl, -⟩ := Task.perform_of_yields hs' (hd'.readFrames hn hfits hcut')
      exact hending'.trans hending.symm

theorem frames_read_exactly_bytewise :
    let run (n : Nat) (unread : Bytes) := (readFrames n).perform (Exchange.bytewise .tcp .answer)
      ⟨[0], none⟩ none ⟨.sharp 0, ⟨1, []⟩, unread⟩
    (run 2 [0, 2, 7, 8, 0, 0, 5]).ending = .finished ([[7, 8], []], none) ∧
      (run 2 [0, 2, 7, 8, 0, 0, 5]).world.state = [5] ∧
      (run 2 [0, 2, 7, 8, 0, 3, 9]).ending =
        .finished ([[7, 8]], some ⟨.unexpectedEof, "stream closed after 1 of 3 bytes"⟩) := by
  intro run
  have hd : Delivers (Exchange.bytewise .tcp .answer) id :=
    Exchange.bytewise_delivers .tcp .answer
  have hf : RunsOut (Exchange.bytewise .tcp .answer) id := by
    intro now st room _ hnil
    obtain rfl : st = [] := hnil
    exact ⟨Delay.noConfusion, rfl⟩
  have hs : Scope.Endless (Exchange.bytewise .tcp .answer) ⟨[0], none⟩ ⟨1, []⟩ :=
    ⟨rfl, fun t _ c hc => absurd hc List.not_mem_nil, fun t _ => Exchange.bytewise_spare _ _ t⟩
  have start (unread : Bytes) := frames_read_exactly (w := ⟨.sharp 0, ⟨1, []⟩, unread⟩) hd hs
  obtain ⟨hending, hrest⟩ := (start [0, 2, 7, 8, 0, 0, 5]).2.1 [[7, 8], []] [5] 2 (by decide)
    (by decide) rfl
  refine ⟨hending, hrest, ?_⟩
  obtain ⟨complete, next, later, part, got, whole, hmessages, hcut, hpart, -, -, hunit, hended⟩ :=
    (start [0, 2, 7, 8, 0, 3, 9]).2.2.1 hf [[7, 8], [9, 9, 9]] (by decide) (by decide) (by decide)
  -- of the two messages just the first is there
  match complete, hmessages with
  | [], hmessages =>
      cases hmessages
      have hlong := hpart.length_le
      rw [← (show _ = part from hcut)] at hlong
      exact absurd hlong (by decide)
  | [first], hmessages =>
      cases hmessages
      obtain rfl : [0, 3, 9] = part := List.append_cancel_left (show Frame.of [7, 8] ++ _ = _ from hcut)
      rcases hunit with ⟨hshort, -, -⟩ | ⟨-, rfl, rfl⟩
      · exact absurd hshort (by decide)
      · exact hended 2 (by decide)
  | _ :: _ :: _, hmessages => simp at hmessages

end Talk

end DnsOverStreams
