import DnsOverStreams.Proofs.Exchange.Accounts
import DnsOverStreams.Proofs.Exchange.Networked
import DnsOverStreams.Proofs.Exchange.Order
import DnsOverStreams.Proofs.Exchange.Series
/-!
Exchanges one after the other on a connection that their caller owns, whose peer answers each query with one
frame. As long as none of them breaks off, every exchange finds the connection at the beginning of a frame
and leaves it there, so each of them judges the reply to its own query.
-/

namespace DnsOverStreams

namespace Site

variable {st fin : Site} {p : Protocol} {calls : Calls} {written read : Bytes}

theorem Resting.steps (h : st.Resting) (hs : Task.Steps (Serves p) st calls fin)
    (hwhole : ∀ e ∈ calls, e.Whole) (hb : st.Balanced written read) :
    fin.Resting ∧ fin.Balanced (written ++ calls.flatMap Event.writtenBytes)
      (read ++ calls.flatMap Event.readBytes) := by
  induction hs generalizing written read with
  | nil st => simpa using ⟨h, hb⟩
  | cons now later ih =>
      obtain ⟨hfirst, hwhole⟩ := List.forall_mem_cons.mp hwhole
      simpa using ih (now.resting h) hwhole (now.effect h hfirst hb)

theorem fits_of_steps (hs : Task.Steps (Serves p) st calls fin) {r : Request} {a : r.Answer}
    (h : .answered r a ∈ calls) : ∃ notices, r.Fits p notices a := by
  induction hs with
  | nil st => cases h
  | cons now later ih =>
      rcases List.mem_cons.mp h with heq | h
      · cases heq
        obtain ⟨xs, ys, -, -, -, hfits⟩ := now.served
        exact ⟨_, hfits⟩
      · exact ih h

/-- So many whole frames have been written on the connection and read from it. -/
structure InFrame (st : Site) (raws replies : List Bytes) : Prop where
  resting : st.Resting
  balanced : st.Balanced (raws.flatMap Frame.of) (replies.flatMap Frame.of)
  count : replies.length = raws.length
  raws : ∀ b ∈ raws, b.length ≤ Frame.maxBody
  replies : ∀ b ∈ replies, b.length ≤ Frame.maxBody

theorem InFrame.empty {raws replies : List Bytes} (h : st.InFrame raws replies)
    (ha : Frame.Answered st.received st.sent) :
    st.received = raws.flatMap Frame.of ∧ st.sent = replies.flatMap Frame.of ∧
      st.connection.link.outgoing.content = [] ∧ st.connection.link.incoming.content = [] := by
  obtain ⟨queries, sent, hle, hqueries, hsent, hreceived, hput⟩ := ha
  have hreceived' : st.received <+: raws.flatMap Frame.of := ⟨_, h.balanced.outgoing⟩
  have hread : replies.flatMap Frame.of <+: st.sent := ⟨_, h.balanced.incoming⟩
  have hfront := Frame.prefix_of_frames hqueries h.raws (hreceived.trans hreceived')
  have hback := Frame.prefix_of_frames h.replies hsent (hread.trans hput)
  -- as many were read as were written, and no more were put in than were taken out
  have hcount := h.count
  have hqueries : queries = raws := by
    refine hfront.eq_of_length_le ?_
    have := hback.length_le
    omega
  have hreplies : replies = sent := by
    refine hback.eq_of_length_le ?_
    have := hfront.length_le
    omega
  subst hqueries hreplies
  have hall : st.received = queries.flatMap Frame.of :=
    hreceived'.eq_of_length_le hreceived.length_le
  have hnone : st.sent = replies.flatMap Frame.of := hput.eq_of_length_le hread.length_le
  have hout := h.balanced.outgoing
  have hin := h.balanced.incoming
  rw [hall] at hout
  rw [hnone] at hin
  exact ⟨hall, hnone, List.append_right_eq_self.mp hout, List.append_right_eq_self.mp hin⟩

end Site

theorem Talk.settled_of_marks {deadline : Option Time} {query : Query} {calls : Calls}
    {result : Except Failure Reply} (h : Converses deadline query calls result)
    (hmarks : marks calls = [.write, .showQuery, .showReply]) : Settled result := by
  cases h with
  | refused e => cases hmarks
  | unbounded h e => cases hmarks
  | through closed cleared h =>
      rw [marks_through] at hmarks
      cases h with
      | unencoded h => trivial
      | encoded hm hraw hfits later =>
          cases later with
          | failed e => cases hmarks
          | short h => cases hmarks
          | @through calls _ said later =>
              have hreply : marks calls = [.showReply] := (List.cons.inj (List.cons.inj hmarks).2).2
              -- unless both parts of the frame were read, there was no reply to show
              cases later with
              | headless hhead => cases (marks_readsUnit hhead).symm.trans hreply
              | bodiless hhead hrest =>
                  rw [marks_append, marks_readsUnit hhead, marks_readsUnit hrest] at hreply
                  cases hreply
              | @complete _ _ _ body _ _ =>
                  unfold judge
                  split <;> trivial

namespace Exchange

variable {σ : Type} {around : Counterpart σ} {p : Protocol} {On : σ → Site → Prop}
variable {s : Scope} {patience : Option Time} {query : Query} {w : World σ}
variable {result : Except Failure Reply}

theorem goes_of_settled (h : (onConnection around s patience query w).ending = .finished result)
    (hr : Talk.Settled result) :
    Task.Goes (Task.Answers around) (Talk.converse s.deadline query) w.state
      (onConnection around s patience query w).events result
      (onConnection around s patience query w).world.state := by
  rcases Task.finished_cases h with ⟨f, rfl, hf⟩ | hgoes
  · unfold Scope.failure at hf
    split at hf
    · cases hf; exact hr.elim
    · split at hf
      · cases hf; exact hr.elim
      · cases hf
  · exact hgoes

end Exchange

namespace Talk

/-- The messages of queries that have one, with all settings of a protocol made. -/
def raws (p : Protocol) (queries : List Query) : List Bytes :=
  queries.filterMap fun query =>
    match encode (query.prepare p) with
    | .ok (_, raw, _) => some raw
    | .error _ => none

/-- What comes of queries when each one that has a message is answered by the next reply. -/
def verdicts (p : Protocol) : List Query → List Bytes → List (Except Failure Reply)
  | [], _ => []
  | query :: queries, replies =>
      match encode (query.prepare p) with
      | .error e => .error e :: verdicts p queries replies
      | .ok (message, _, _) =>
          match replies with
          | [] => []
          | body :: replies => judge message body :: verdicts p queries replies

end Talk

namespace Shared

variable {σ : Type} {around : Counterpart σ} {p : Protocol} {On : σ → Site → Prop}
variable {s : Scope} {patience : Option Time} {query : Query} {w : World σ}
variable {result : Except Failure Reply} {st : Site} {raws replies : List Bytes}

theorem exchange (h : Shared around p On) (hw : On w.state st) (hst : st.InFrame raws replies)
    (he : (Exchange.onConnection around s patience query w).ending = .finished result)
    (hr : Talk.Settled result) :
    let run := Exchange.onConnection around s patience query w
    ∃ fin, On run.world.state fin ∧
      ((∃ e, Talk.encode (query.prepare p) = .error e ∧ result = .error e ∧
          fin.InFrame raws replies ∧ Moves run.events [] []) ∨
        ∃ message raw body, Talk.encode (query.prepare p) = .ok (message, raw, Frame.of raw) ∧
          result = Talk.judge message body ∧ fin.InFrame (raws ++ [raw]) (replies ++ [body]) ∧
          Moves run.events (Frame.of raw) (Frame.of body)) := by
  intro run
  have hgoes := Exchange.goes_of_settled he hr
  have htalk : ∀ e ∈ run.events, e.request.InTalk :=
    (Talk.converse_inTalk s.deadline query).runIn_events
  obtain ⟨fin, hsteps, hon⟩ := h.steps hgoes.steps htalk hw
  -- streams are always opened here, so the talk got as far as its query
  have hopen (e : Failure) : .answered .openStream (.error e) ∉ run.events := by
    intro hmem
    obtain ⟨notices, hfits⟩ := Site.fits_of_steps hsteps hmem
    cases hfits
  obtain ⟨prepared, hmem, haccounts⟩ :=
    Talk.accounts_converses (Talk.converses_of_goes hgoes) hr hopen
  obtain ⟨notices, hprepared⟩ := Site.fits_of_steps hsteps hmem
  obtain rfl : prepared = query.prepare p := hprepared
  refine ⟨fin, hon, ?_⟩
  cases haccounts with
  | @unencoded e hencode moves =>
      have hrest := hst.resting.steps hsteps moves.whole hst.balanced
      rw [moves.written, moves.read, List.append_nil, List.append_nil] at hrest
      exact .inl ⟨e, hencode, rfl, ⟨hrest.1, hrest.2, hst.count, hst.raws, hst.replies⟩, moves⟩
  | @judged message raw body hencode hraw hbody moves =>
      have hrest := hst.resting.steps hsteps moves.whole hst.balanced
      rw [moves.written, moves.read] at hrest
      refine .inr ⟨message, raw, body, hencode, rfl, ⟨hrest.1, ?_, ?_, ?_, ?_⟩, moves⟩
      · simpa using hrest.2
      · simpa using hst.count
      · simpa [or_imp, forall_and] using ⟨hst.raws, hraw⟩
      · simpa [or_imp, forall_and] using ⟨hst.replies, hbody⟩

theorem series {es : List (Errand σ)} (h : Shared around p On)
    (hes : ∀ e ∈ es, e.around = around ∧ e.dials = false) (hw : On w.state st)
    (hst : st.InFrame raws replies)
    (hsettled : ∀ x ∈ Errand.endings es w, ∃ result, x = .finished result ∧ Talk.Settled result) :
    ∃ fin bodies, On (Errand.after es w).state fin ∧
      fin.InFrame (raws ++ Talk.raws p (es.map (·.query))) (replies ++ bodies) ∧
      Errand.endings es w = (Talk.verdicts p (es.map (·.query)) bodies).map .finished ∧
      Moves (Errand.calls es w) ((Talk.raws p (es.map (·.query))).flatMap Frame.of)
        (bodies.flatMap Frame.of) := by
  induction es generalizing w st raws replies with
  | nil => exact ⟨st, [], hw, by simpa [Talk.raws] using hst, rfl, .nil⟩
  | cons e es ih =>
      obtain ⟨⟨haround, hdials⟩, hlater⟩ := List.forall_mem_cons.mp hes
      obtain ⟨⟨result, hresult, hr⟩, hothers⟩ := List.forall_mem_cons.mp hsettled
      have hrun : e.run w =
          Exchange.onConnection around e.scope e.patience e.query (e.ready w) := by
        rw [Errand.run, hdials, haround]
        rfl
      rw [hrun] at hresult hothers
      obtain ⟨mid, hon, hcase⟩ := h.exchange (w := e.ready w) hw hst hresult hr
      have hendings : Errand.endings (e :: es) w =
          .finished result :: Errand.endings es (e.run w).world := by
        rw [Errand.endings, hrun, hresult]
      have hcalls : Errand.calls (e :: es) w =
          (Exchange.onConnection around e.scope e.patience e.query (e.ready w)).events ++
            Errand.calls es (e.run w).world := by
        rw [Errand.calls, hrun]
      rw [hendings, hcalls, hrun]
      have hafter : Errand.after (e :: es) w = Errand.after es
          (Exchange.onConnection around e.scope e.patience e.query (e.ready w)).world := by
        rw [← hrun]
        rfl
      rw [hafter]
      rcases hcase with ⟨e', hencode, rfl, hmid, moves⟩ |
        ⟨message, raw, body, hencode, rfl, hmid, moves⟩
      · obtain ⟨fin, bodies, hfin, hinframe, hverdicts, hmoves⟩ := ih hlater hon hmid hothers
        refine ⟨fin, bodies, hfin, ?_, ?_, ?_⟩
        · simpa [Talk.raws, hencode] using hinframe
        · simp [Talk.verdicts, hencode, hverdicts]
        · simpa [Talk.raws, hencode] using moves.append hmoves
      · obtain ⟨fin, bodies, hfin, hinframe, hverdicts, hmoves⟩ := ih hlater hon hmid hothers
        refine ⟨fin, body :: bodies, hfin, ?_, ?_, ?_⟩
        · simpa [Talk.raws, hencode] using hinframe
        · simp [Talk.verdicts, hencode, hverdicts]
        · simpa [Talk.raws, hencode] using moves.append hmoves

theorem whole_frames {es : List (Errand σ)} (h : Shared around p On) (capacity : Nat)
    (shutdown : Option IoFailure) (time : Time)
    (hw : On w.state ⟨{ Connection.opened capacity shutdown with now := time }, [], []⟩)
    (hes : ∀ e ∈ es, e.around = around ∧ e.dials = false)
    (hsettled : ∀ x ∈ Errand.endings es w, ∃ result, x = .finished result ∧ Talk.Settled result) :
    let raws := Talk.raws p (es.map (·.query))
    ∃ fin replies, On (Errand.after es w).state fin ∧ fin.InFrame raws replies ∧
      Errand.endings es w = (Talk.verdicts p (es.map (·.query)) replies).map .finished ∧
      Moves (Errand.calls es w) (raws.flatMap Frame.of) (replies.flatMap Frame.of) ∧
      fin.received = raws.flatMap Frame.of ∧ fin.sent = replies.flatMap Frame.of ∧
      fin.connection.link.outgoing.content = [] ∧ fin.connection.link.incoming.content = [] := by
  intro raws
  have hnew : Site.InFrame ⟨{ Connection.opened capacity shutdown with now := time }, [], []⟩ [] [] :=
    ⟨⟨⟨rfl, rfl⟩, rfl⟩, ⟨rfl, rfl⟩, rfl, nofun, nofun⟩
  obtain ⟨fin, replies, hon, hfin, hverdicts, hmoves⟩ := h.series hes hw hnew hsettled
  exact ⟨fin, replies, hon, hfin, hverdicts, hmoves, hfin.empty (h.answered hon)⟩

end Shared

namespace Exchange

/-- The peer has taken these queries, and has sent something of so many copies of its reply. -/
def Replying (body : Bytes) (st : Site) (queries : List Bytes) : Prop :=
  st.received = queries.flatMap Frame.of ∧ (∀ b ∈ queries, b.length ≤ Frame.maxBody) ∧
    st.sent <+: (List.replicate queries.length body).flatMap Frame.of

instance (body : Bytes) (st : Site) (queries : List Bytes) : Decidable (Replying body st queries) :=
  inferInstanceAs (Decidable (_ ∧ _))

/-- A peer that answers every query with the same message, of which some bytes come with each reading. What
does not go so is never answered. -/
def trickle (p : Protocol) (body : Bytes) : Counterpart (Site × List Bytes) :=
  fun _ (st, queries) r =>
    let unsent := ((List.replicate queries.length body).flatMap Frame.of).drop st.sent.length
    let besides : List Happening := match r with
      | .write frame => [.turn 0, .step (.peerRead frame.length)]
      | .read _ => [.step (.peerWrite (unsent.take 10)), .turn 0]
      | _ => []
    let taken := match r with
      | .write frame => queries ++ [frame.drop Frame.headerLength]
      | _ => queries
    let xs := (r.steps st.stream).map .step ++ besides
    let outcome := Contact.outcome? (st.connection.after xs).2
    { delay :=
        if Replying body (st.after xs) taken ∧ (r.moves → outcome.isSome) then .atOnce else .never
      answer := match r with
        | .dial => .ok ()
        | .openStream => .ok ()
        | .setDeadline _ => .ok ()
        | .prepare query => query.prepare p
        | .write _ => (outcome.getD (.failed .notConnected)).written
        | .showQuery _ => ()
        | .closeStream => .ok ()
        | .read _ => (outcome.getD (.failed .notConnected)).read
        | .showReply _ => ()
        | .closeConnection _ => .closed
      state := (st.after xs, taken)
      abandoned := fun _ => (st, queries)
      cancels := [] }

theorem shared_trickle (p : Protocol) {body : Bytes} (hbody : body.length ≤ Frame.maxBody) :
    Shared (trickle p body) p fun v st => v.1 = st ∧ Replying body v.1 v.2 where
  serves now v st r hv hr hdelay := by
    obtain ⟨rfl, -⟩ := hv
    obtain ⟨st, queries⟩ := v
    obtain ⟨hreplying, hended⟩ := Decidable.of_not_not fun h => hdelay (if_neg h)
    refine ⟨_, ⟨[], _, nofun, ?_, rfl, ?_⟩, rfl, hreplying⟩
    · cases r with
      | write frame => exact List.forall_mem_cons.mpr ⟨trivial, List.forall_mem_singleton.mpr trivial⟩
      | read room => exact List.forall_mem_cons.mpr ⟨trivial, List.forall_mem_singleton.mpr trivial⟩
      | _ => exact nofun
    · cases r with
      | write frame =>
          obtain ⟨o, ho⟩ := Option.isSome_iff_exists.mp (hended rfl)
          refine ⟨o, ho, ?_⟩
          change Outcome.written (Option.getD _ _) = o.written
          rw [ho]
          rfl
      | read room =>
          obtain ⟨o, ho⟩ := Option.isSome_iff_exists.mp (hended rfl)
          refine ⟨o, ho, ?_⟩
          change Outcome.read (Option.getD _ _) = o.read
          rw [ho]
          rfl
      | dial => exact hr.elim
      | closeConnection occasion => exact hr.elim
      | _ => first | rfl | trivial
  answered := by
    rintro ⟨st, queries⟩ _ ⟨rfl, hreceived, hqueries, hsent⟩
    refine ⟨queries, List.replicate queries.length body, ?_, hqueries, ?_, ?_, hsent⟩
    · rw [List.length_replicate]
    · intro b hb
      rw [List.eq_of_mem_replicate hb]
      exact hbody
    · exact hreceived ▸ List.prefix_rfl

end Exchange

namespace Errand

variable {σ : Type} {around : Counterpart σ} {p : Protocol} {On : σ → Site → Prop}
variable {es : List (Errand σ)} {w : World σ}

/-- An exchange that has shown a reply is settled, if neither its scope nor its caller has ended it. -/
theorem settles_of_marks {e : Errand σ} (hdials : e.dials = false)
    (hends : (e.run w).ending ∉ [.ended, .dropped, .hung])
    (live : e.scope.failure (e.run w).world.tokens (e.run w).world.now = none)
    (hmarks : Talk.marks (e.run w).events = [.write, .showQuery, .showReply]) :
    ∃ result, (e.run w).ending = .finished result ∧ Talk.Settled result := by
  have hrun : e.run w = Exchange.onConnection e.around e.scope e.patience e.query (e.ready w) :=
    if_neg (by rw [hdials]; exact Bool.noConfusion)
  rw [hrun] at hends live hmarks ⊢
  cases h : (Exchange.onConnection e.around e.scope e.patience e.query (e.ready w)).ending with
  | finished result =>
      exact ⟨result, rfl, Talk.settled_of_marks (Exchange.converses_of_live live h) hmarks⟩
  | _ => simp [h] at hends

/-- Exchanges one after the other on a new connection of their caller, to a peer that answers each frame of
a query with one frame. As long as each exchange ends with a reply, a refused reply or a query without a
message, the peer has received the frames of the queries that have one and nothing else, each exchange has
judged the reply to its own query, every byte that the peer has sent was read, and read once, and the
connection is open. -/
theorem connection_in_frame (h : Shared around p On) (capacity : Nat) (shutdown : Option IoFailure)
    (time : Time)
    (hw : On w.state ⟨{ Connection.opened capacity shutdown with now := time }, [], []⟩)
    (hes : ∀ e ∈ es, e.around = around ∧ e.dials = false)
    (hsettled : ∀ x ∈ endings es w, ∃ result, x = .finished result ∧ Talk.Settled result) :
    let queries := es.map (·.query)
    ∃ fin replies, On (after es w).state fin ∧
      replies.length = (Talk.raws p queries).length ∧
      endings es w = (Talk.verdicts p queries replies).map .finished ∧
      fin.received = (Talk.raws p queries).flatMap Frame.of ∧
      fin.sent = replies.flatMap Frame.of ∧
      (calls es w).flatMap Event.writtenBytes = fin.received ∧
      (calls es w).flatMap Event.readBytes = fin.sent ∧
      fin.connection.link.outgoing.content = [] ∧ fin.connection.link.incoming.content = [] ∧
      fin.connection.isClosed = false ∧ fin.connection.taken = false ∧
      fin.connection.line = [] := by
  intro queries
  obtain ⟨fin, replies, hon, hfin, hverdicts, hmoves, hreceived, hsent, hout, hin⟩ :=
    h.whole_frames capacity shutdown time hw hes hsettled
  exact ⟨fin, replies, hon, hfin.count, hverdicts, hreceived, hsent,
    hmoves.written.trans hreceived.symm, hmoves.read.trans hsent.symm, hout, hin,
    hfin.resting.ours.alive, hfin.resting.ours.held, hfin.resting.line⟩

theorem connection_in_frame_trickled :
    let body : Bytes := [0, 7, 0x81, 0x80, 0, 1, 0, 0, 0, 0, 0, 0, 0, 0, 1, 0, 1]
    let errand (name : String) (id : UInt16) : Errand (Site × List Bytes) :=
      ⟨Exchange.trickle .tcp body, ⟨[], some 80⟩, false, none, ⟨name, 1, 0, id, 0⟩, .sharp 0⟩
    let es := [errand "." 7, errand ".." 7, errand "." 8]
    let w : World (Site × List Bytes) :=
      ⟨.sharp 0, ⟨0, []⟩, ⟨⟨Connection.opened 64 none, [], []⟩, []⟩⟩
    let fin := (after es w).state.1
    (∃ reply, endings es w = [.finished (.ok reply),
      .finished (.error (.encoding (.name (.malformedLabel [])))),
      .finished (.error (.invalidReply (.idMismatch 8 7)))]) ∧
    ∃ replies : List Bytes, replies.length = 2 ∧ fin.sent = replies.flatMap Frame.of ∧
      fin.received = (Talk.raws .tcp (es.map (·.query))).flatMap Frame.of ∧
      (calls es w).flatMap Event.readBytes = fin.sent ∧ fin.connection.isClosed = false := by
  intro body errand es w fin
  have hsettled : ∀ x ∈ endings es w, ∃ result, x = .finished result ∧ Talk.Settled result := by
    have hall : endings es w = [((errand "." 7).run w).ending,
        ((errand ".." 7).run (after [errand "." 7] w)).ending,
        ((errand "." 8).run (after [errand "." 7, errand ".." 7] w)).ending] := rfl
    rw [hall]
    refine List.forall_mem_cons.mpr ⟨?_, List.forall_mem_cons.mpr ⟨?_, List.forall_mem_singleton.mpr ?_⟩⟩
    · refine settles_of_marks rfl ?_ ?_ ?_ <;> decide +kernel
    · exact ⟨.error (.encoding (.name (.malformedLabel []))), by decide +kernel, trivial⟩
    · refine settles_of_marks rfl ?_ ?_ ?_ <;> decide +kernel
  have hes : ∀ e ∈ es, e.around = Exchange.trickle .tcp body ∧ e.dials = false := by
    simp [es, errand]
  obtain ⟨_, replies, ⟨rfl, -⟩, hcount, hverdicts, hreceived, hsent, -, hall, -, -, hopen, -⟩ :=
    connection_in_frame (Exchange.shared_trickle .tcp (by decide)) 64 none 0 (w := w)
      ⟨rfl, rfl, List.forall_mem_nil _, List.prefix_rfl⟩ hes hsettled
  have hreplies : replies = [body, body] :=
    Frame.eq_of_frames (hsent.symm.trans (by decide +kernel)) (by decide)
  let reply : Reply :=
    ⟨⟨7, .query, ⟨true, false, false, true, true, false, false⟩, 0, [⟨[], 1, 1⟩], [], [], [], none⟩⟩
  let message (id : UInt16) : Message := (⟨".", 1, 0, id, 65535⟩ : Query).messageFor [] []
  let raw (id : UInt8) : Bytes :=
    [0, id, 1, 0, 0, 1, 0, 0, 0, 0, 0, 1, 0, 0, 1, 0, 1, 0, 0, 41, 0xff, 0xff, 0, 0, 0, 0, 0, 0]
  have hfirst : Talk.encode ((errand "." 7).query.prepare .tcp) =
      .ok (message 7, raw 7, Frame.of (raw 7)) := by decide +kernel
  have hsecond : Talk.encode ((errand ".." 7).query.prepare .tcp) =
      .error (.encoding (.name (.malformedLabel []))) := by decide +kernel
  have hthird : Talk.encode ((errand "." 8).query.prepare .tcp) =
      .ok (message 8, raw 8, Frame.of (raw 8)) := by decide +kernel
  have hproper : reply.message.Proper :=
    ⟨by decide, List.forall_mem_singleton.mpr DomainName.root_proper, List.forall_mem_nil _,
      List.forall_mem_nil _, List.forall_mem_nil _, fun _ h => by cases h⟩
  have hwrite : reply.message.write = .ok body := by decide +kernel
  have hread : Message.read body = some reply.message :=
    (Message.writtenWhole_of_write hwrite (by decide)).read hproper
  have hright : Talk.judge (message 7) body = .ok reply := by
    rw [Talk.judge, Reply.ofBytes, hread]
    rfl
  have hwrong : Talk.judge (message 8) body = .error (.invalidReply (.idMismatch 8 7)) := by
    rw [Talk.judge, Reply.ofBytes, hread]
    rfl
  have hendings : endings es w = [.finished (.ok reply),
      .finished (.error (.encoding (.name (.malformedLabel [])))),
      .finished (.error (.invalidReply (.idMismatch 8 7)))] := by
    rw [hverdicts, hreplies]
    simp only [es, List.map_cons, List.map_nil, Talk.verdicts, hfirst, hsecond, hthird, hright, hwrong]
  exact ⟨⟨reply, hendings⟩, replies, hcount.trans (by decide +kernel), hsent, hreceived, hall, hopen⟩

/-- So it is with a scripted peer that answers. -/
theorem scripted_in_frame {es : List (Errand Contacts)} {w : World Contacts} (net : Network)
    {script : List PeerStep} (hscript : Peer.Answers script) (capacity : Nat)
    (shutdown : Option IoFailure) (time : Time) (former : Contacts)
    (hw : w.state = Contact.opened capacity shutdown time script :: former)
    (hes : ∀ e ∈ es, e.around = net.counterpart ∧ e.dials = false)
    (hsettled : ∀ x ∈ endings es w, ∃ result, x = .finished result ∧ Talk.Settled result) :
    let queries := es.map (·.query)
    ∃ x others replies, (after es w).state = x :: others ∧
      endings es w = (Talk.verdicts net.protocol queries replies).map .finished ∧
      x.peer.intake.taken = (Talk.raws net.protocol queries).flatMap Frame.of ∧
      (calls es w).flatMap Event.readBytes = replies.flatMap Frame.of ∧
      x.connection.link.outgoing.content = [] ∧ x.connection.link.incoming.content = [] ∧
      x.connection.isClosed = false := by
  intro queries
  have hon := Network.answering_opened hscript capacity shutdown time former
  rw [← hw] at hon
  obtain ⟨fin, replies, ⟨x, others, hx, hseen, hresting⟩, hfin, hverdicts, hmoves, hreceived, hsent,
    hout, hin⟩ := net.shared_answering.whole_frames capacity shutdown time hon hes hsettled
  have halive := hresting.ours.alive
  rw [hseen.connection] at hout hin halive
  exact ⟨x, others, replies, hx, hverdicts, hseen.received.symm.trans hreceived, hmoves.read, hout, hin,
    halive⟩

end Errand

end DnsOverStreams
