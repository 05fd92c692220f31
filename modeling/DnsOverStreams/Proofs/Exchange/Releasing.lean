import DnsOverStreams.Proofs.Exchange.Calls
import DnsOverStreams.Proofs.Exchange.Order
/-!
How the stream of an exchange is left. The stream is closed, and its deadline cleared, by the last calls
of a talk. A talk that is given up before them, or that cannot bound its stream, leaves these out. It has
closed the stream all the same if it was already reading, since it closes it once for writing.
-/

namespace DnsOverStreams

namespace Request

def Writes : Request → Prop
  | openStream => True
  | setDeadline (some _) => True
  | prepare _ => True
  | write _ => True
  | showQuery _ => True
  | _ => False

def Reads : Request → Prop
  | closeStream => True
  | read _ => True
  | showReply _ => True
  | _ => False

/-- When the call is made the stream is closed at the latest, and its deadline cleared if it has one. -/
def EndsUse (deadline : Option Time) (r : Request) : Prop :=
  r.closes = true ∨ r = .setDeadline none ∨ r.Reads ∧ deadline = none

theorem Writes.not_endsUse {r : Request} (h : r.Writes) (deadline : Option Time) :
    ¬ r.EndsUse deadline := by
  rintro (hcloses | rfl | ⟨hreads, -⟩)
  · cases r <;> first | exact h | cases hcloses
  · exact h
  · cases r <;> first | exact h | exact hreads

theorem Reads.endsUse_iff {r : Request} (h : r.Reads) {deadline : Option Time} :
    r.EndsUse deadline ↔ deadline = none := by
  refine ⟨?_, fun hnone => .inr (.inr ⟨h, hnone⟩)⟩
  rintro (hcloses | rfl | ⟨-, hnone⟩)
  · cases r <;> first | exact h.elim | cases hcloses
  · exact h.elim
  · exact hnone

end Request

namespace Talk

/-- The stream was closed, and its deadline cleared if one was set. -/
def Releases (calls : Calls) : Prop :=
  (∃ e ∈ calls, e.request = .closeStream) ∧
    ∀ d, .answered (.setDeadline (some d)) (.ok ()) ∈ calls →
      ∃ e ∈ calls, e.request = .setDeadline none

/-- The calls of a talk on a stream that could be bounded: the first ones write, those from the first
closing of the stream on read and close it at last, and then its deadline is cleared. -/
structure Phases (deadline : Option Time) (full early late cleared : Calls) : Prop where
  whole : full = early ++ (late ++ cleared)
  writes : ∀ e ∈ early, e.request.Writes
  bounded : ∀ d a, .answered (.setDeadline (some d)) a ∈ early ↔ deadline = some d ∧ a = .ok ()
  closed : ∃ said reads, late = .answered .closeStream said :: reads
  reads : ∀ e ∈ late, e.request.Reads
  clears : ∃ a, cleared = deadline.toList.map fun _ => .answered (.setDeadline none) a

section

variable {query : Query} {calls : Calls}

theorem reads_readsUnit {whole : Nat} {got : Bytes} {result : Except IoFailure Bytes}
    (h : ReadsUnit whole got calls result) : ∀ e ∈ calls, e.request.Reads := by
  intro e he
  obtain ⟨before, later, hcalls⟩ := List.append_of_mem he
  obtain ⟨⟨room, hroom⟩, -⟩ := each_readsUnit h before e later hcalls
  rw [hroom]
  trivial

theorem reads_receives {message : Message} {result : Except Failure Reply}
    (h : Receives message calls result) : ∀ e ∈ calls, e.request.Reads := by
  cases h with
  | headless hhead => exact reads_readsUnit hhead
  | bodiless hhead hrest =>
      exact List.forall_mem_append.mpr ⟨reads_readsUnit hhead, reads_readsUnit hrest⟩
  | complete hhead hrest =>
      refine List.forall_mem_append.mpr ⟨reads_readsUnit hhead, List.forall_mem_append.mpr
        ⟨reads_readsUnit hrest, List.forall_mem_singleton.mpr trivial⟩⟩

theorem phases_roundTrips {result : Except Failure Reply} (h : RoundTrips query calls result) :
    ∃ early late, calls = early ++ late ∧
      (∀ e ∈ early, e.request.Writes ∧ ∀ d, e.request ≠ .setDeadline d) ∧
      (∀ e ∈ late, e.request.Reads) ∧
      (late = [] ∨ ∃ said reads, late = .answered .closeStream said :: reads) := by
  cases h with
  | unencoded h =>
      exact ⟨_, [], (List.append_nil _).symm, by simp [Event.answered, Request.Writes],
        List.forall_mem_nil _, .inl rfl⟩
  | encoded hm hraw hfits later =>
      cases later with
      | failed e =>
          exact ⟨_, [], (List.append_nil _).symm, by simp [Event.answered, Request.Writes],
            List.forall_mem_nil _, .inl rfl⟩
      | short h =>
          exact ⟨_, [], (List.append_nil _).symm, by simp [Event.answered, Request.Writes],
            List.forall_mem_nil _, .inl rfl⟩
      | through said later =>
          refine ⟨[_, _, _], _, rfl, by simp [Event.answered, Request.Writes], ?_, .inr ⟨_, _, rfl⟩⟩
          exact List.forall_mem_cons.mpr ⟨trivial, reads_receives later⟩

theorem phases_through (deadline : Option Time) {result : Except Failure Reply}
    (closed cleared : Except IoFailure Unit) (h : RoundTrips query calls result) :
    ∃ early late clearing, Phases deadline
      (opened deadline ++ (calls ++ released deadline closed cleared)) early late clearing := by
  obtain ⟨early, late, rfl, hwrites, hreads, hlate⟩ := phases_roundTrips h
  refine ⟨opened deadline ++ early, late ++ [.answered .closeStream closed], _, ?whole, ?writes,
    ?bounded, ?closed, ?reads, cleared, rfl⟩
  case whole => simp only [released, List.append_assoc, List.cons_append, List.nil_append]
  case writes =>
    refine List.forall_mem_append.mpr ⟨?_, fun e he => (hwrites e he).1⟩
    cases deadline <;> simp [opened, Event.answered, Request.Writes]
  case bounded =>
    intro d a
    have hearly : .answered (.setDeadline (some d)) a ∉ early :=
      fun he => (hwrites _ he).2 (some d) rfl
    rw [List.mem_append, or_iff_left hearly]
    cases deadline <;> simp [opened, Event.answered, eq_comm]
  case closed =>
    rcases hlate with rfl | ⟨said, reads, rfl⟩
    · exact ⟨closed, [], rfl⟩
    · exact ⟨said, _, rfl⟩
  case reads => exact List.forall_mem_append.mpr ⟨hreads, List.forall_mem_singleton.mpr trivial⟩

end

section

variable {deadline : Option Time} {full early late cleared front later : Calls} {r : Request}
variable {x : r.Answer}

namespace Phases

theorem mem_of_bounded (h : Phases deadline full early late cleared) {d : Time}
    {a : Except IoFailure Unit} (hmem : .answered (.setDeadline (some d)) a ∈ full) :
    deadline = some d ∧ a = .ok () := by
  rw [h.whole] at hmem
  rcases List.mem_append.mp hmem with hmem | hmem
  · exact (h.bounded d a).mp hmem
  · rcases List.mem_append.mp hmem with hmem | hmem
    · exact (h.reads _ hmem).elim
    · obtain ⟨b, hcleared⟩ := h.clears
      rw [hcleared] at hmem
      obtain ⟨_, -, heq⟩ := List.mem_map.mp hmem
      cases heq

theorem closes (h : Phases deadline full early late cleared) :
    ∃ e ∈ late, e.request = .closeStream := by
  obtain ⟨said, reads, rfl⟩ := h.closed
  exact ⟨_, List.mem_cons_self, rfl⟩

theorem releases (h : Phases deadline full early late cleared) : Releases full := by
  refine ⟨?_, fun d hmem => ?_⟩
  · obtain ⟨e, he, hclose⟩ := h.closes
    exact ⟨e, by simp [h.whole, he], hclose⟩
  · obtain ⟨rfl, -⟩ := h.mem_of_bounded hmem
    obtain ⟨a, rfl⟩ := h.clears
    exact ⟨.answered (.setDeadline none) a, by simp [h.whole], rfl⟩

end Phases

theorem not_releases_of_writes {calls : Calls} (h : ∀ e ∈ calls, e.request.Writes) :
    ¬ Releases calls := by
  rintro ⟨⟨e, he, hclose⟩, -⟩
  exact (hclose ▸ h e he : Request.Writes .closeStream)

theorem cut_cases {α : Type} {xs ys front later : List α} {x : α} (h : xs ++ ys = front ++ x :: later) :
    (∃ more, xs = front ++ x :: more) ∨ ∃ more, front = xs ++ more ∧ ys = more ++ x :: later := by
  rcases List.append_eq_append_iff.mp h with ⟨more, hfront, hys⟩ | ⟨more, hxs, hys⟩
  · exact .inr ⟨more, hfront, hys⟩
  · cases more with
    | nil => exact .inr ⟨[], by simp [hxs], by simpa using hys.symm⟩
    | cons b more =>
        cases hys
        exact .inl ⟨more, hxs⟩

namespace Phases

theorem releases_early (h : Phases deadline full early late cleared)
    (hearly : early = front ++ .answered r x :: later) :
    Releases (front ++ [⟨r, none⟩]) ↔ r.EndsUse deadline := by
  subst hearly
  have hr : r.Writes := h.writes (.answered r x) (by simp)
  have hwrites : ∀ e ∈ front ++ [⟨r, none⟩], e.request.Writes := by
    refine List.forall_mem_append.mpr ⟨fun e he => h.writes e (by simp [he]), ?_⟩
    exact List.forall_mem_singleton.mpr hr
  exact iff_of_false (not_releases_of_writes hwrites) (hr.not_endsUse deadline)

theorem releases_late (h : Phases deadline full early late cleared)
    (hlate : late = front ++ .answered r x :: later) :
    Releases (early ++ front ++ [⟨r, none⟩]) ↔ r.EndsUse deadline := by
  subst hlate
  have hr : r.Reads := h.reads (.answered r x) (by simp)
  rw [hr.endsUse_iff]
  refine ⟨fun hreleases => ?_, ?_⟩
  · cases deadline with
    | none => rfl
    | some d =>
        have hbound : .answered (.setDeadline (some d)) (.ok ()) ∈ early :=
          (h.bounded d (.ok ())).mpr ⟨rfl, rfl⟩
        obtain ⟨e, he, hclear⟩ := hreleases.2 d (by simp [hbound])
        have hcall : e.request.Writes ∨ e.request.Reads := by
          simp only [List.mem_append, List.mem_singleton] at he
          rcases he with (he | he) | rfl
          · exact .inl (h.writes e he)
          · exact .inr (h.reads e (List.mem_append_left _ he))
          · exact .inr hr
        rw [hclear] at hcall
        exact (hcall.elim id id).elim
  · rintro rfl
    refine ⟨?_, fun d hmem => ?_⟩
    · obtain ⟨said, reads, hclosed⟩ := h.closed
      cases front with
      | nil =>
          cases hclosed
          exact ⟨⟨.closeStream, none⟩, by simp, rfl⟩
      | cons b front =>
          cases hclosed
          exact ⟨.answered .closeStream said, by simp, rfl⟩
    · have hfull : .answered (.setDeadline (some d)) (.ok ()) ∈ full := by
        rw [h.whole]
        simp only [List.mem_append, List.mem_singleton] at hmem ⊢
        rcases hmem with (hmem | hmem) | heq
        · exact .inl hmem
        · exact .inr (.inl (.inl hmem))
        · cases heq
      cases (h.mem_of_bounded hfull).1

theorem releases_cleared (h : Phases deadline full early late cleared)
    (hcleared : cleared = front ++ .answered r x :: later) :
    Releases (early ++ (late ++ front) ++ [⟨r, none⟩]) ↔ r.EndsUse deadline := by
  have hr : r = .setDeadline none := by
    obtain ⟨a, ha⟩ := h.clears
    have hmem : .answered r x ∈ cleared := by simp [hcleared]
    rw [ha] at hmem
    obtain ⟨_, -, heq⟩ := List.mem_map.mp hmem
    cases heq
    rfl
  subst hr
  refine iff_of_true ⟨?_, fun _ _ => ⟨⟨.setDeadline none, none⟩, by simp, rfl⟩⟩ (.inr (.inl rfl))
  obtain ⟨e, he, hclose⟩ := h.closes
  exact ⟨e, by simp [he], hclose⟩

theorem releases_cut (h : Phases deadline full early late cleared)
    (hfull : full = front ++ .answered r x :: later) :
    Releases (front ++ [⟨r, none⟩]) ↔ r.EndsUse deadline := by
  rcases cut_cases (h.whole.symm.trans hfull) with ⟨more, hearly⟩ | ⟨front, rfl, hrest⟩
  · exact h.releases_early hearly
  · rcases cut_cases hrest with ⟨more, hlate⟩ | ⟨front, rfl, hcleared⟩
    · exact h.releases_late hlate
    · exact h.releases_cleared hcleared

end Phases

end

/-- The calls of a talk that was given up at one of the calls, or else of one that came to its end. -/
structure Spoken (deadline : Option Time) (query : Query) (calls full : Calls) : Prop where
  converses : ∃ result, Converses deadline query full result
  answered : ∀ r, ⟨r, none⟩ ∉ full
  inTalk : ∀ e ∈ calls, e.request.InTalk
  course : calls = full ∨ ∃ front r x later, full = front ++ .answered r x :: later ∧
    calls = front ++ [⟨r, none⟩]

section

variable {deadline : Option Time} {query : Query} {calls full : Calls}

theorem Spoken.requests (h : Spoken deadline query calls full) {e : Event Request Request.Answer}
    (he : e ∈ calls) : ∃ f ∈ full, f.request = e.request := by
  rcases h.course with rfl | ⟨front, r, x, later, rfl, rfl⟩
  · exact ⟨e, he, rfl⟩
  · rcases List.mem_append.mp he with he | he
    · exact ⟨e, List.mem_append_left _ he, rfl⟩
    · obtain rfl := List.mem_singleton.mp he
      exact ⟨.answered r x, by simp, rfl⟩

theorem Spoken.mem (h : Spoken deadline query calls full) {r : Request} {a : r.Answer}
    (he : .answered r a ∈ calls) : .answered r a ∈ full := by
  rcases h.course with rfl | ⟨front, r', x, later, rfl, rfl⟩
  · exact he
  · rcases List.mem_append.mp he with he | he
    · exact List.mem_append_left _ he
    · cases List.mem_singleton.mp he

theorem Spoken.releases_iff (h : Spoken deadline query calls full)
    (opened : .answered .openStream (.ok ()) ∈ calls) :
    Releases calls ↔ (∀ d e, .answered (.setDeadline (some d)) (.error e) ∉ calls) ∧
      ∀ r, ⟨r, none⟩ ∈ calls → r.EndsUse deadline := by
  have hopened := h.mem opened
  obtain ⟨result, hconverses⟩ := h.converses
  cases hconverses with
  | refused e => simp [Event.answered] at hopened
  | @unbounded d hd e =>
      have hwrites : ∀ e ∈ calls, e.request.Writes := by
        intro e he
        obtain ⟨f, hf, hrequest⟩ := h.requests he
        rw [← hrequest]
        simp only [List.mem_cons, List.not_mem_nil, or_false] at hf
        rcases hf with rfl | rfl <;> trivial
      refine iff_of_false (not_releases_of_writes hwrites) ?_
      rintro ⟨hclean, hgiven⟩
      rcases h.course with rfl | ⟨front, r, x, later, -, rfl⟩
      · exact hclean d e (by simp)
      · exact (hwrites ⟨r, none⟩ (by simp)).not_endsUse deadline (hgiven r (by simp))
  | through closed cleared htrip =>
      obtain ⟨early, late, clearing, hphases⟩ := phases_through deadline closed cleared htrip
      have hclean (d : Time) (e : IoFailure) :
          .answered (.setDeadline (some d)) (.error e) ∉ calls := by
        intro he
        cases (hphases.mem_of_bounded (h.mem he)).2
      rcases h.course with rfl | ⟨front, r, x, later, hcut, rfl⟩
      · exact iff_of_true hphases.releases ⟨hclean, fun r hr => absurd hr (h.answered r)⟩
      · rw [hphases.releases_cut hcut]
        refine ⟨fun hr => ⟨hclean, fun r' hr' => ?_⟩, fun hr => hr.2 r (by simp)⟩
        rcases List.mem_append.mp hr' with hr' | hr'
        · exact absurd (hcut ▸ List.mem_append_left _ hr') (h.answered r')
        · cases List.mem_singleton.mp hr'
          exact hr

theorem Spoken.released_last (h : Spoken deadline query calls full)
    (opened : .answered .openStream (.ok ()) ∈ calls)
    (bounded : ∀ d e, .answered (.setDeadline (some d)) (.error e) ∉ calls)
    (kept : ∀ r, ⟨r, none⟩ ∉ calls) :
    ∃ front closed cleared, calls = front ++ released deadline closed cleared := by
  obtain rfl : calls = full := by
    rcases h.course with hfull | ⟨front, r, x, later, -, rfl⟩
    · exact hfull
    · exact absurd (by simp) (kept r)
  obtain ⟨result, hconverses⟩ := h.converses
  cases hconverses with
  | refused e => simp [Event.answered] at opened
  | @unbounded d hd e => exact absurd (by simp) (bounded d e)
  | through closed cleared htrip => exact ⟨_, closed, cleared, (List.append_assoc _ _ _).symm⟩

end

end Talk

namespace Exchange

variable {σ : Type} {around : Counterpart σ} {s : Scope} {patience : Option Time} {query : Query}
variable {w : World σ}

theorem spoken_onConnection
    (opened : .answered .openStream (.ok ()) ∈ (onConnection around s patience query w).events) :
    ∃ full, Talk.Spoken s.deadline query (onConnection around s patience query w).events full := by
  have hrun : onConnection around s patience query w =
    (Talk.converse s.deadline query).runIn around s patience w := rfl
  have hinTalk : ∀ e ∈ (onConnection around s patience query w).events, e.request.InTalk :=
    (Talk.converse_inTalk s.deadline query).runIn_events
  rw [hrun] at opened hinTalk ⊢
  cases hs : s.failure w.tokens w.now with
  | some f =>
      rw [Task.runIn_of_failure hs] at opened
      exact absurd opened List.not_mem_nil
  | none =>
      rw [Task.runIn_of_live around patience _ hs] at hinTalk ⊢
      obtain ⟨full, result, hgoes, hcourse⟩ :=
        Task.whole_or_cut around s patience (Talk.converse s.deadline query) w
      exact ⟨full, ⟨result, Talk.converses_of_goes hgoes⟩, hgoes.not_given_up, hinTalk, hcourse⟩

/-- What stands before and after the calls of a talk is the dialing and the closing of a connection. -/
structure Encloses (before calls closing : Calls) : Prop where
  dials : ∀ e ∈ before, ∃ a, e = .answered .dial a
  inTalk : ∀ e ∈ calls, e.request.InTalk
  closes : ∀ e ∈ closing, e.request.closes = true

section

variable {before calls closing : Calls}

theorem Encloses.mem_iff (h : Encloses before calls closing) {e : Event Request Request.Answer}
    (he : e.request.InTalk) : e ∈ before ++ (calls ++ closing) ↔ e ∈ calls := by
  simp only [List.mem_append]
  refine ⟨?_, fun hcall => .inr (.inl hcall)⟩
  rintro (hmem | hmem | hmem)
  · obtain ⟨a, rfl⟩ := h.dials e hmem
    exact he.elim
  · exact hmem
  · cases he.not_closes.symm.trans (h.closes e hmem)

theorem Encloses.releases_iff (h : Encloses before calls closing) :
    Talk.Releases (before ++ (calls ++ closing)) ↔ Talk.Releases calls := by
  have hcalled (r : Request) (hr : r.InTalk) :
      (∃ e ∈ before ++ (calls ++ closing), e.request = r) ↔ ∃ e ∈ calls, e.request = r :=
    exists_congr fun e => and_congr_left fun he => h.mem_iff (he ▸ hr)
  have hbound (d : Time) : .answered (.setDeadline (some d)) (.ok ()) ∈ before ++ (calls ++ closing) ↔
      .answered (.setDeadline (some d)) (.ok ()) ∈ calls := h.mem_iff trivial
  simp only [Talk.Releases, hcalled .closeStream trivial, hcalled (.setDeadline none) trivial, hbound]

theorem Encloses.given_up (h : Encloses before calls closing) {r : Request}
    (hr : ⟨r, none⟩ ∈ before ++ (calls ++ closing)) : ⟨r, none⟩ ∈ calls ∨ r.closes = true := by
  rcases List.mem_append.mp hr with hmem | hmem
  · obtain ⟨a, heq⟩ := h.dials _ hmem
    cases heq
  · exact (List.mem_append.mp hmem).imp id (h.closes _)

end

theorem spoken_of_opened {run : Exchange σ}
    (h : run = onConnection around s patience query w ∨ run = dialing around s patience query w)
    (opened : .answered .openStream (.ok ()) ∈ run.events) :
    ∃ before calls closing full, run.events = before ++ (calls ++ closing) ∧
      Encloses before calls closing ∧ .answered .openStream (.ok ()) ∈ calls ∧
      Talk.Spoken s.deadline query calls full := by
  rcases h with rfl | rfl
  · obtain ⟨full, hspoken⟩ := spoken_onConnection opened
    have hencloses := Encloses.mk (List.forall_mem_nil _) hspoken.inTalk (List.forall_mem_nil _)
    exact ⟨[], _, [], full, (List.append_nil _).symm, hencloses, opened, hspoken⟩
  · by_cases hd : (dial around s patience w).ending = .finished (.ok ())
    · obtain ⟨-, -, hevents⟩ := dialing_of_dialed query hd
      obtain ⟨closing, hclose, hcloses⟩ := closes_close around
        (s.withCancel (dial around s patience w).world.tokens) patience
        (talk around s patience query (dial around s patience w).world)
      rw [work, hclose, events_of_dialed hd] at hevents
      have htalk : .answered .openStream (.ok ()) ∈
          (talk around s patience query (dial around s patience w).world).events := by
        rw [hevents] at opened
        simp only [List.mem_append, List.mem_singleton] at opened
        rcases opened with heq | hmem | hmem
        · cases heq
        · exact hmem
        · cases hcloses _ hmem
      obtain ⟨full, hspoken⟩ := spoken_onConnection htalk
      have hencloses := Encloses.mk (fun e he => ⟨.ok (), List.mem_singleton.mp he⟩) hspoken.inTalk hcloses
      exact ⟨_, _, closing, full, hevents, hencloses, htalk, hspoken⟩
    · rw [events_of_undialed hd] at opened
      rcases events_dial around s patience w with hnil | ⟨a, hdial⟩
      · rw [hnil] at opened
        exact absurd opened List.not_mem_nil
      · rw [hdial] at opened
        cases List.mem_singleton.mp opened

/-- An exchange that opened its stream has closed it, and cleared a deadline that it had set, unless the
deadline could not be set or the exchange was given up while it used the stream. When neither happens the
stream is released by the last calls that are made on it. -/
theorem stream_released_iff {run : Exchange σ}
    (h : run = onConnection around s patience query w ∨ run = dialing around s patience query w)
    (opened : .answered .openStream (.ok ()) ∈ run.events) :
    (Talk.Releases run.events ↔
      (∀ d e, .answered (.setDeadline (some d)) (.error e) ∉ run.events) ∧
        ∀ r, ⟨r, none⟩ ∈ run.events → r.EndsUse s.deadline) ∧
    ((∀ d e, .answered (.setDeadline (some d)) (.error e) ∉ run.events) →
      (∀ r, ⟨r, none⟩ ∈ run.events → r.closes = true) →
      ∃ front closed cleared closing,
        run.events = front ++ (Talk.released s.deadline closed cleared ++ closing) ∧
          ∀ e ∈ closing, e.request.closes = true) := by
  obtain ⟨before, calls, closing, full, hevents, hencloses, htalk, hspoken⟩ := spoken_of_opened h opened
  rw [hevents]
  have hbound (d : Time) (e : IoFailure) :
      .answered (.setDeadline (some d)) (.error e) ∈ before ++ (calls ++ closing) ↔
        .answered (.setDeadline (some d)) (.error e) ∈ calls := hencloses.mem_iff trivial
  simp only [hbound]
  have hgiven {r : Request} (hr : ⟨r, none⟩ ∈ calls) : ⟨r, none⟩ ∈ before ++ (calls ++ closing) :=
    (hencloses.mem_iff (hencloses.inTalk _ hr)).mpr hr
  refine ⟨?_, fun hclean hkept => ?_⟩
  · rw [hencloses.releases_iff, hspoken.releases_iff htalk]
    refine and_congr_right fun _ => ⟨fun hends r hr => ?_, fun hends r hr => hends r (hgiven hr)⟩
    exact (hencloses.given_up hr).elim (hends r) .inl
  · have hnone (r : Request) (hr : ⟨r, none⟩ ∈ calls) : False := by
      have hin := hencloses.inTalk _ hr
      cases hin.not_closes.symm.trans (hkept r (hgiven hr))
    obtain ⟨front, closed, cleared, rfl⟩ := hspoken.released_last htalk hclean hnone
    exact ⟨before ++ front, closed, cleared, closing, by simp, hencloses.closes⟩

theorem stream_released_iff_unwritten :
    let exchange (script : Script) := dialing script.counterpart ⟨[0], some 9⟩ none
      ⟨"a..b", 1, 0, 7, 0⟩ ⟨.sharp 0, ⟨1, []⟩, .start⟩
    let unbounded := exchange { Script.steady with boundFailure := some .notConnected }
    Talk.Releases (exchange Script.steady).events ∧ ¬ Talk.Releases unbounded.events := by
  intro exchange unbounded
  have released (script : Script)
      (opened : (exchange script).events[1]? = some (.answered .openStream (.ok ()))) :=
    (stream_released_iff (.inr (Eq.refl (exchange script))) (List.mem_of_getElem? opened)).1
  constructor
  · obtain ⟨prepared, occasion, hevents⟩ : ∃ prepared occasion, (exchange Script.steady).events =
        [.answered .dial (.ok ()), .answered .openStream (.ok ()),
          .answered (.setDeadline (some 9)) (.ok ()), .answered (.prepare _) prepared,
          .answered .closeStream (.ok ()), .answered (.setDeadline none) (.ok ()),
          .answered (.closeConnection occasion) .closed] := ⟨_, _, rfl⟩
    refine (released _ rfl).mpr ⟨fun d e he => ?_, fun r hr => ?_⟩
    · rw [hevents] at he
      simp [Event.answered] at he
    · have hgiven : (exchange Script.steady).events.filter (·.answer.isNone) = [] := rfl
      exact absurd rfl (List.filter_eq_nil_iff.mp hgiven _ hr)
  · intro hreleases
    have hrefused : unbounded.events[2]? =
      some (.answered (.setDeadline (some 9)) (.error .notConnected)) := rfl
    exact ((released _ rfl).mp hreleases).1 9 _ (List.mem_of_getElem? hrefused)

/-- An exchange whose deadline comes while it writes does not close its stream, nor does one that cannot
bound it. -/
theorem stream_left_open :
    let exchange (script : Script) := onConnection script.counterpart ⟨[0], some 100⟩ none
      ⟨".", 1, 0, 4242, 0⟩ ⟨.sharp 0, ⟨1, []⟩, .start⟩
    let late := exchange { Script.steady with writeHangs := true }
    let unbounded := exchange { Script.steady with boundFailure := some .notConnected }
    (.answered .openStream (.ok ()) ∈ late.events ∧ ¬ Talk.Releases late.events ∧
        late.ending = .finished (.error .deadlineExceeded)) ∧
      .answered .openStream (.ok ()) ∈ unbounded.events ∧ ¬ Talk.Releases unbounded.events ∧
        unbounded.ending = .finished (.error (.ofIo .notConnected)) := by
  intro exchange late unbounded
  have left (run : Exchange ScriptState) (e : Failure)
      (h : (run.events[0]?, run.events.all (·.request ≠ .closeStream), run.ending) =
        (some (.answered .openStream (.ok ())), true, .finished (.error e))) :
      .answered .openStream (.ok ()) ∈ run.events ∧ ¬ Talk.Releases run.events ∧
        run.ending = .finished (.error e) := by
    simp only [Prod.mk.injEq] at h
    obtain ⟨hopened, hunclosed, hending⟩ := h
    refine ⟨List.mem_of_getElem? hopened, ?_, hending⟩
    rintro ⟨⟨e, he, hclose⟩, -⟩
    exact of_decide_eq_true (List.all_eq_true.mp hunclosed e he) hclose
  exact ⟨left late _ rfl, left unbounded _ rfl⟩

end Exchange

end DnsOverStreams
