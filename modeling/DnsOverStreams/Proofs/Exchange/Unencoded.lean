import DnsOverStreams.Proofs.Exchange.Releasing
import DnsOverStreams.Proofs.Exchange.Service
import DnsOverStreams.Proofs.Query.Encoding

namespace DnsOverStreams

namespace Talk

theorem encode_of_pack {q : Query} {raw : Bytes} (h : q.pack = .ok raw) :
    ∃ message frame, q.message = .ok message ∧ message.write = .ok raw ∧
      Frame.encode raw = .ok frame ∧ encode q = .ok (message, raw, frame) := by
  obtain ⟨message, hm, hraw⟩ := ok_of_bind h
  obtain ⟨hfits, hencode⟩ := encode_of_packed hm hraw
  exact ⟨message, Frame.of raw, hm, hraw, Frame.encode_eq_ok_iff.mpr ⟨hfits, rfl⟩, hencode⟩

variable {deadline : Option Time} {query asked prepared : Query} {cause : WriteError} {calls : Calls}
variable {result : Except Failure Reply}

theorem unprepared_sends {message : Message} {raw : Bytes} (h : Sends message raw calls result) :
    ∀ e ∈ calls, ∀ q, e.request ≠ .prepare q := by
  cases h with
  | failed e => exact List.forall_mem_singleton.mpr fun _ => Request.noConfusion
  | short h => exact List.forall_mem_singleton.mpr fun _ => Request.noConfusion
  | through said later =>
      intro e he q hq
      simp only [List.mem_cons] at he
      rcases he with rfl | rfl | rfl | he
      · cases hq
      · cases hq
      · cases hq
      · have hreads := reads_receives later e he
        rw [hq] at hreads
        exact hreads

theorem unwritten_of_unpacked (h : Converses deadline query calls result)
    (hprepared : .answered (.prepare asked) prepared ∈ calls) (hp : prepared.pack = .error cause) :
    result = .error (.encoding cause) ∧ ∀ e ∈ calls, ∀ frame, e.request ≠ .write frame := by
  cases h with
  | refused e => simp [Event.answered] at hprepared
  | unbounded h e => simp [Event.answered] at hprepared
  | through closed cleared h =>
      -- nothing is prepared before the round trip or after it
      have hmem : .answered (.prepare asked) prepared ∈ opened deadline ++ released deadline closed cleared →
          False := by
        cases deadline <;> simp [opened, released, Event.answered]
      cases h with
      | unencoded h =>
          simp only [List.mem_append, List.mem_singleton] at hprepared hmem
          rcases hprepared with hopened | heq | hreleased
          · exact (hmem (.inl hopened)).elim
          · cases heq
            cases h.symm.trans hp
            exact ⟨rfl, by cases deadline <;> simp [opened, released, Event.answered]⟩
          · exact (hmem (.inr hreleased)).elim
      | encoded hm hraw hfits later =>
          simp only [List.mem_append, List.mem_cons] at hprepared hmem
          rcases hprepared with hopened | (heq | hsent) | hreleased
          · exact (hmem (.inl hopened)).elim
          · cases heq
            unfold Query.pack at hp
            rw [hm] at hp
            cases hraw.symm.trans hp
          · exact absurd rfl (unprepared_sends later _ hsent asked)
          · exact (hmem (.inr hreleased)).elim

end Talk

namespace Exchange

variable {σ : Type} {around : Counterpart σ} {s : Scope} {patience : Option Time} {query asked : Query}
variable {w : World σ} {run : Exchange σ} {prepared : Query} {cause : WriteError}
variable {result : Except Failure Reply} {ended : Option Failure}

/-- An exchange, and how its scope had ended, if it had, when the work stopped. -/
inductive Stops (around : Counterpart σ) (s : Scope) (patience : Option Time) (query : Query)
    (w : World σ) : Exchange σ → Option Failure → Prop where
  | onConnection : Stops around s patience query w (onConnection around s patience query w)
      (s.failure (onConnection around s patience query w).world.tokens
        (onConnection around s patience query w).world.now)
  | dialing (own : Private around w) : Stops around s patience query w
      (dialing around s patience query w)
      (s.failure (stopped around s patience query w).tokens (stopped around s patience query w).now)

theorem unwritten_onConnection
    (hprepared : .answered (.prepare asked) prepared ∈ (onConnection around s patience query w).events)
    (hp : prepared.pack = .error cause) :
    ∀ e ∈ (onConnection around s patience query w).events, ∀ frame, e.request ≠ .write frame := by
  obtain ⟨full, result, hfull, hbegins⟩ := (inOrder_onConnection around s patience query w).whole
  obtain ⟨before, later, hcalls⟩ := List.append_of_mem hprepared
  obtain ⟨a, more, hmore, hsame⟩ := hbegins.split hcalls
  have hmem : .answered (.prepare asked) prepared ∈ full := by
    rw [hmore, (hsame rfl).1]
    exact List.mem_append_right _ List.mem_cons_self
  obtain ⟨-, hunwritten⟩ := Talk.unwritten_of_unpacked hfull hmem hp
  intro e he frame hwrite
  have hrequest := hbegins.requests.subset (List.mem_map_of_mem he)
  obtain ⟨f, hf, hfe⟩ := List.mem_map.mp hrequest
  exact hunwritten f hf frame (hfe.trans hwrite)

theorem fails_onConnection
    (hprepared : .answered (.prepare asked) prepared ∈ (onConnection around s patience query w).events)
    (hp : prepared.pack = .error cause)
    (h : (onConnection around s patience query w).ending = .finished result) :
    result = .error ((s.failure (onConnection around s patience query w).world.tokens
      (onConnection around s patience query w).world.now).getD (.encoding cause)) := by
  rcases Task.finished_cases h with ⟨f, rfl, hf⟩ | hgoes
  · have hended : s.failure (onConnection around s patience query w).world.tokens
        (onConnection around s patience query w).world.now = some f := hf
    rw [hended]
    rfl
  · obtain ⟨rfl, -⟩ := Talk.unwritten_of_unpacked (Talk.converses_of_goes hgoes) hprepared hp
    cases hf : s.failure (onConnection around s patience query w).world.tokens
        (onConnection around s patience query w).world.now with
    | none => rfl
    | some f => exact congrArg Except.error (Task.runIn_error h hf)

theorem dialed_of_prepared
    (h : .answered (.prepare asked) prepared ∈ (dialing around s patience query w).events) :
    (dial around s patience w).ending = .finished (.ok ()) ∧
      .answered (.prepare asked) prepared ∈
        (talk around s patience query (dial around s patience w).world).events ∧
      ∀ e ∈ (dialing around s patience query w).events, ∀ frame, e.request = .write frame →
        e ∈ (talk around s patience query (dial around s patience w).world).events := by
  have hdial : ∀ e ∈ (dial around s patience w).events, e.request = .dial := by
    rcases events_dial around s patience w with hnil | ⟨a, hdial⟩
    · rw [hnil]
      exact List.forall_mem_nil _
    · rw [hdial]
      exact List.forall_mem_singleton.mpr rfl
  by_cases hd : (dial around s patience w).ending = .finished (.ok ())
  · obtain ⟨-, -, hevents⟩ := dialing_of_dialed query hd
    obtain ⟨closing, hclose, hcloses⟩ := closes_close around
      (s.withCancel (dial around s patience w).world.tokens) patience
      (talk around s patience query (dial around s patience w).world)
    rw [work, hclose] at hevents
    have hsaid {e : Event Request Request.Answer} (he : e ∈ (dialing around s patience query w).events)
        (hne : e.request ≠ .dial) (hopen : e.request.closes = false) :
        e ∈ (talk around s patience query (dial around s patience w).world).events := by
      rw [hevents] at he
      simp only [List.mem_append] at he
      rcases he with he | he | he
      · exact absurd (hdial e he) hne
      · exact he
      · cases hopen.symm.trans (hcloses e he)
    refine ⟨hd, hsaid h Request.noConfusion rfl, fun e he frame hwrite => ?_⟩
    exact hsaid he (by rw [hwrite]; exact Request.noConfusion) (by rw [hwrite]; rfl)
  · rw [events_of_undialed hd] at h
    cases hdial _ h

theorem Stops.unwritten (h : Stops around s patience query w run ended)
    (hprepared : .answered (.prepare asked) prepared ∈ run.events) (hp : prepared.pack = .error cause) :
    ∀ e ∈ run.events, ∀ frame, e.request ≠ .write frame := by
  cases h with
  | onConnection => exact unwritten_onConnection hprepared hp
  | dialing own =>
      obtain ⟨-, hasked, hwrites⟩ := dialed_of_prepared hprepared
      intro e he frame hwrite
      exact unwritten_onConnection hasked hp e (hwrites e he frame hwrite) frame hwrite

theorem Stops.fails (h : Stops around s patience query w run ended)
    (hprepared : .answered (.prepare asked) prepared ∈ run.events) (hp : prepared.pack = .error cause)
    (hresult : run.ending = .finished result) : result = .error (ended.getD (.encoding cause)) := by
  cases h with
  | onConnection => exact fails_onConnection hprepared hp hresult
  | dialing own =>
      obtain ⟨hd, hasked, -⟩ := dialed_of_prepared hprepared
      rw [(dialing_of_dialed query hd).1] at hresult
      rw [stopped_of_dialed query hd, ← Scope.failure_withCancel own.spare_talk]
      exact fails_onConnection hasked hp (close_eq_finished hresult)

theorem Stops.finishes (h : Stops around s none query w run ended)
    (answered : ∀ now st r, (around now st r).delay ≠ .never) :
    ∃ result, run.ending = .finished result := by
  cases h with
  | onConnection => exact Task.runIn_of_answered answered _
  | dialing own => exact dialing_of_answered answered

theorem fails_inside
    (hprepared : .answered (.prepare asked) prepared ∈
      (Task.perform around s patience (Talk.converse s.deadline query) w).events)
    (hp : prepared.pack = .error cause)
    (h : (Task.perform around s patience (Talk.converse s.deadline query) w).ending = .finished result) :
    result = .error (.encoding cause) :=
  (Talk.unwritten_of_unpacked (Talk.converses_of_goes (Task.goes_of_finished h)) hprepared hp).1

/-- Whether a query can be encoded, and if not why, is decided by the text of its name, whatever else it asks
for and whatever settings protocols have made. What is encoded always fits a frame. An exchange that cannot
encode its query writes nothing and fails for that reason, in place of which whoever waits for it is told how
its scope has ended, if it has. -/
theorem encoding_decided_by_name {q q' : Query} (hname : q.name = q'.name) (ps ps' : List Protocol) :
    ((∃ raw, (q.prepareAll ps).pack = .ok raw) ↔ ∃ raw, (q'.prepareAll ps').pack = .ok raw) ∧
    (∀ cause, (q.prepareAll ps).pack = .error cause ↔
      ∃ e, DomainName.Unsendable q.name.toList e ∧ cause = .name e) ∧
    (∀ raw, (q.prepareAll ps).pack = .ok raw → raw.length ≤ 384) ∧
    (∀ prepared : Query,
      (∃ e, DomainName.Unsendable prepared.name.toList e ∧
        Talk.encode prepared = .error (.encoding (.name e))) ∨
      ∃ message raw frame, prepared.message = .ok message ∧ message.write = .ok raw ∧
        Frame.encode raw = .ok frame ∧ Talk.encode prepared = .ok (message, raw, frame)) ∧
    (∀ {σ : Type} (around : Counterpart σ) (s : Scope) (patience : Option Time) (query : Query)
      (w : World σ) (prepared : Query) (cause : WriteError) (result : Except Failure Reply),
      .answered (.prepare query) prepared ∈
          (Task.perform around s patience (Talk.converse s.deadline query) w).events →
        prepared.pack = .error cause →
        (Task.perform around s patience (Talk.converse s.deadline query) w).ending = .finished result →
          result = .error (.encoding cause)) ∧
    ∀ {σ : Type} (around : Counterpart σ) (s : Scope) (patience : Option Time) (query : Query)
      (w : World σ) (run : Exchange σ) (ended : Option Failure) (prepared : Query) (cause : WriteError),
      Stops around s patience query w run ended →
      .answered (.prepare query) prepared ∈ run.events → prepared.pack = .error cause →
        (∀ e ∈ run.events, ∀ frame, e.request ≠ .write frame) ∧
        (∀ result, run.ending = .finished result → result = .error (ended.getD (.encoding cause))) ∧
        (patience = none → (∀ now st r, (around now st r).delay ≠ .never) →
          run.ending = .finished (.error (ended.getD (.encoding cause)))) := by
  have hq := (Query.prepareAll_keeps ps q).1
  have hq' := (Query.prepareAll_keeps ps' q').1
  refine ⟨?_, fun cause => ?_, fun raw => Query.length_of_pack, fun prepared => ?_,
    fun _ _ _ _ _ _ _ _ => fails_inside, ?_⟩
  · rw [Query.pack_isOk_iff, Query.pack_isOk_iff, hq, hq', hname]
  · rw [Query.pack_eq_error_iff, hq]
  · cases hp : prepared.pack with
    | error cause =>
        obtain ⟨e, he, rfl⟩ := Query.pack_eq_error_iff.mp hp
        exact .inl ⟨e, he, Talk.encode_of_unpacked hp⟩
    | ok raw =>
        obtain ⟨message, frame, h⟩ := Talk.encode_of_pack hp
        exact .inr ⟨message, raw, frame, h⟩
  · intro σ around s patience query w run ended prepared cause h hprepared hp
    refine ⟨h.unwritten hprepared hp, fun result => h.fails hprepared hp, ?_⟩
    rintro rfl answered
    obtain ⟨result, hresult⟩ := h.finishes answered
    rw [hresult, h.fails hprepared hp hresult]

/-- A name can be too long only when it is written, and an exchange can fail before that. -/
theorem encoding_decided_by_name_long :
    let text := String.ofList (List.replicate 63 'a' ++ '.' :: List.replicate 63 'b' ++ '.' ::
      List.replicate 63 'c' ++ '.' :: List.replicate 62 'd')
    let run := dialing Script.steady.counterpart ⟨[0], some 9⟩ none ⟨"a..b", 1, 0, 7, 0⟩
      ⟨.sharp 0, ⟨1, []⟩, .start⟩
    (Query.prepareAll [.quic] ⟨text, 1, 1, 9, 512⟩).pack = .error (.name (.longName 256)) ∧
      (∀ e ∈ run.events, ∀ frame, e.request ≠ .write frame) ∧
      run.ending = .finished (.error (.encoding (.name (.malformedLabel [])))) := by
  intro text run
  have htext : DomainName.ofText text.toList = .ok [List.replicate 63 97, List.replicate 63 98,
      List.replicate 63 99, List.replicate 62 100] := by
    rw [String.toList_ofList]
    decide +kernel
  have hlong : DomainName.Unsendable text.toList (.longName 256) := .long htext (by decide)
  have hsame : (Query.mk text 1 1 9 512).name = (Query.mk text 28 0 7 0).name := rfl
  obtain ⟨-, hcause, -, -, -, hexchange⟩ := encoding_decided_by_name hsame [.quic] [.tcp]
  have hprepared : run.events[3]? = some (.answered (.prepare ⟨"a..b", 1, 0, 7, 0⟩)
    (Query.prepare .tcp ⟨"a..b", 1, 0, 7, 0⟩)) := rfl
  obtain ⟨hunwritten, -, hfinished⟩ := hexchange Script.steady.counterpart ⟨[0], some 9⟩ none _ _ run none
    _ (.name (.malformedLabel [])) (.dialing (private_script rfl rfl _ _ _))
    (List.mem_of_getElem? hprepared) rfl
  exact ⟨(hcause _).mpr ⟨_, hlong, rfl⟩, hunwritten, hfinished rfl (answered_script
    Delay.noConfusion Delay.noConfusion ⟨rfl, Delay.noConfusion⟩ ⟨rfl, Delay.noConfusion⟩)⟩

end Exchange

end DnsOverStreams
