import DnsOverStreams.Proofs.Exchange.Accounts
import DnsOverStreams.Proofs.Exchange.Order
import DnsOverStreams.Proofs.Exchange.Service
import DnsOverStreams.Proofs.Task.Canceling

namespace DnsOverStreams

/-- How a frame breaks off when its stream ends after these bytes of it: the two bytes of the length
are one unit, what they announce is the other. -/
def Frame.brokenOff : Bytes → IoFailure
  | hi :: lo :: body =>
      ⟨.unexpectedEof, "stream closed after " ++ toString body.length ++ " of " ++
        toString (hi.toNat * 256 + lo.toNat) ++ " bytes"⟩
  | part =>
      ⟨.unexpectedEof,
        "stream closed after " ++ toString part.length ++ " of " ++ toString 2 ++ " bytes"⟩

def IoFailure.reported (e : IoFailure) : Failure :=
  if e.kind = .timedOut then .timeout else .io ⟨e.kind, e.text⟩

/-- The failure that an answer is, when these bytes of the reply's frame were read before. -/
def Request.trouble (got : Bytes) : (r : Request) → r.Answer → Option Failure
  | .dial, .error e => some e
  | .openStream, .error e => some e
  | .setDeadline (some _), .error e => some e.reported
  | .prepare _, prepared =>
      match Query.pack prepared with
      | .error e => some (.encoding e)
      | .ok _ => none
  | .write _, .error e => some e.reported
  | .write frame, .ok n =>
      if n = frame.length then none
      else some (.io ⟨.writeZero,
        "short write: " ++ toString n ++ " of " ++ toString frame.length ++ " bytes"⟩)
  | .read _, .error e => some e.reported
  | .read _, .ok bytes => if bytes = [] then some (.io (Frame.brokenOff got)) else none
  | _, _ => none

namespace Event

def trouble (got : Bytes) (e : Event Request Request.Answer) : Option Failure :=
  e.answer.bind (e.request.trouble got)

theorem trouble_of_cleansUp {e : Event Request Request.Answer} (h : e.request.cleansUp = true)
    (got : Bytes) : e.trouble got = none := by
  obtain ⟨r, a⟩ := e
  unfold trouble
  cases a with
  | none => rfl
  | some a =>
      cases r with
      | closeStream | closeConnection => rfl
      | setDeadline d =>
          cases d with
          | none => rfl
          | some d => cases h
      | _ => cases h

end Event

namespace Talk

variable {got : Bytes} {es fs calls : Calls} {e : Event Request Request.Answer}

def Smooth (got : Bytes) (calls : Calls) : Prop :=
  Each (fun before e _ => e.trouble (got ++ before.flatMap Event.readBytes) = none) calls

theorem smooth_one (h : e.trouble got = none) : Smooth got [e] :=
  each_cons (by rwa [List.flatMap_nil, List.append_nil]) each_nil

theorem Smooth.append (h : Smooth got es) (h' : Smooth (got ++ es.flatMap Event.readBytes) fs) :
    Smooth got (es ++ fs) :=
  each_append h <| h'.mono fun before e later htrouble => by
    rwa [List.flatMap_append, ← List.append_assoc]

theorem smooth_of_cleansUp (h : ∀ e ∈ es, e.request.cleansUp = true) : Smooth got es :=
  each_of_forall fun e he _ _ => e.trouble_of_cleansUp (h e he) _

/-- How the calls came out: by the failure of one of them, after which things are only cleaned up, or
without any. -/
inductive Ends (got : Bytes) : Calls → Option Failure → Prop where
  | failed {before later : Calls} {e : Event Request Request.Answer} {f : Failure}
      (smooth : Smooth got before)
      (first : e.trouble (got ++ before.flatMap Event.readBytes) = some f)
      (rest : ∀ e ∈ later, e.request.cleansUp = true) : Ends got (before ++ e :: later) (some f)
  | through {calls : Calls} (smooth : Smooth got calls) : Ends got calls none

namespace Ends

variable {x : Option Failure} {f : Failure}

theorem last (h : e.trouble got = some f) : Ends got [e] (some f) :=
  failed each_nil (by rwa [List.flatMap_nil, List.append_nil]) (List.forall_mem_nil _)

theorem after (h : Smooth got es) (h' : Ends (got ++ es.flatMap Event.readBytes) fs x) :
    Ends got (es ++ fs) x := by
  cases h' with
  | through smooth => exact .through (h.append smooth)
  | @failed before later e f smooth first rest =>
      rw [← List.append_assoc es]
      refine .failed (h.append smooth) ?_ rest
      rwa [List.flatMap_append, ← List.append_assoc]

theorem smooth (h : Ends got es none) : Smooth got es := by
  cases h with
  | through smooth => exact smooth

theorem cons (h : e.trouble got = none) (h' : Ends (got ++ e.readBytes) es x) :
    Ends got (e :: es) x := by
  have hends : Ends got ([e] ++ es) x := after (smooth_one h) (by rwa [List.flatMap_singleton])
  exact hends

theorem cleaned (h : Ends got es x) (hfs : ∀ e ∈ fs, e.request.cleansUp = true) :
    Ends got (es ++ fs) x := by
  cases h with
  | through smooth => exact .through (smooth.append (smooth_of_cleansUp hfs))
  | @failed before later e f smooth first rest =>
      rw [List.append_assoc, List.cons_append]
      exact .failed smooth first (List.forall_mem_append.mpr ⟨rest, hfs⟩)

end Ends

def unread : Except IoFailure Bytes → Option Failure
  | .error e => some (.ofIo e)
  | .ok _ => none

/-- `front` is what was read of the frame before the unit. -/
theorem ends_readsUnit {whole : Nat} {front : Bytes} {result : Except IoFailure Bytes}
    (hfront : ∀ part : Bytes, part.length < whole →
      Frame.brokenOff (front ++ part) = .unexpectedEnd part.length whole)
    (h : ReadsUnit whole got calls result) : Ends (front ++ got) calls (unread result) := by
  induction h with
  | complete h => exact .through each_nil
  | @piece got bytes calls result h hne later ih =>
      refine .cons (if_neg hne) ?_
      rwa [List.append_assoc]
  | ended h =>
      refine .last ?_
      change some (Failure.io (Frame.brokenOff _)) = _
      rw [hfront _ h]
      rfl
  | failed h e => exact .last rfl

theorem brokenOff_header (part : Bytes) (h : part.length < Frame.headerLength) :
    Frame.brokenOff ([] ++ part) = .unexpectedEnd part.length Frame.headerLength :=
  match part, h with
  | [], _ => rfl
  | [_], _ => rfl

theorem ends_header {result : Except IoFailure Bytes}
    (h : ReadsUnit Frame.headerLength [] calls result) : Ends [] calls (unread result) := by
  have hends := ends_readsUnit brokenOff_header h
  exact hends

theorem brokenOff_body {header : Bytes} (hheader : header.length = Frame.headerLength)
    (part : Bytes) :
    Frame.brokenOff (header ++ part) = .unexpectedEnd part.length (Frame.announced header) := by
  obtain ⟨hi, lo, rfl⟩ := List.length_eq_two.mp hheader
  rw [show Frame.announced [hi, lo] = hi.toNat * 256 + lo.toNat from Bytes.toWord_toNat hi lo]
  rfl

theorem ends_body {head rest : Calls} {header : Bytes} {result : Except IoFailure Bytes}
    (hhead : ReadsUnit Frame.headerLength [] head (.ok header))
    (hrest : ReadsUnit (Frame.announced header) [] rest result) :
    Ends [] (head ++ rest) (unread result) := by
  obtain ⟨hlength, read, hmoves, hheader⟩ := moves_readsUnit hhead
  have hread : head.flatMap Event.readBytes = header := hmoves.read.trans hheader.symm
  have hends := ends_readsUnit (fun part _ => brokenOff_body hlength part) hrest
  rw [List.append_nil, ← hread] at hends
  exact .after (ends_header hhead).smooth hends

theorem ends_receives {message : Message} {result : Except Failure Reply}
    (h : Receives message calls result) :
    (∃ e, result = .error (.ofIo e) ∧ Ends [] calls (some (.ofIo e))) ∨
      ∃ body, body.length ≤ Frame.maxBody ∧ result = judge message body ∧ Ends [] calls none ∧
        Moves calls [] (Frame.of body) := by
  cases h with
  | headless hhead => exact .inl ⟨_, rfl, ends_header hhead⟩
  | bodiless hhead hrest => exact .inl ⟨_, rfl, ends_body hhead hrest⟩
  | @complete head rest header body hhead hrest =>
      obtain ⟨hbody, hmoves⟩ := moves_complete hhead hrest
      refine .inr ⟨body, hbody, rfl, ?_, hmoves⟩
      rw [← List.append_assoc]
      exact .after (ends_body hhead hrest).smooth (.through (smooth_one rfl))

/-- What decides the result of a talk about a query: a failure, or the reply to the message that the
query was sent as. -/
inductive Decided (query : Query) (calls : Calls) : Except Failure Reply → Prop where
  | failed {f : Failure} (ends : Ends [] calls (some f)) : Decided query calls (.error f)
  | judged {prepared : Query} {message : Message} {raw body : Bytes} (ends : Ends [] calls none)
      (asked : .answered (.prepare query) prepared ∈ calls) (named : prepared.message = .ok message)
      (packed : message.write = .ok raw) (moves : Moves calls (Frame.of raw) (Frame.of body))
      (fits : body.length ≤ Frame.maxBody)
      (unlimited : ∀ n m, { prepared with maxSize := n }.message = .ok m →
        Reply.ofBytes m body = Reply.ofBytes message body) :
      Decided query calls ((Reply.ofBytes message body).mapError .invalidReply)

theorem ofBytes_maxSize {q : Query} {n : UInt16} {m m' : Message} (hm : q.message = .ok m)
    (hm' : { q with maxSize := n }.message = .ok m') (body : Bytes) :
    Reply.ofBytes m' body = Reply.ofBytes m body := by
  obtain ⟨name, hname, hm⟩ := Query.message_eq_ok hm
  obtain ⟨name', hname', hm'⟩ := Query.message_eq_ok hm'
  cases hname.symm.trans hname'
  obtain ⟨options, rfl⟩ : ∃ options, m = q.messageFor name options := by
    rcases hm with ⟨-, rfl⟩ | ⟨bytes, -, -, rfl⟩
    · exact ⟨_, rfl⟩
    · exact ⟨_, rfl⟩
  obtain ⟨options', rfl⟩ : ∃ options', m' = { q with maxSize := n }.messageFor name options' := by
    rcases hm' with ⟨-, rfl⟩ | ⟨bytes, -, -, rfl⟩
    · exact ⟨_, rfl⟩
    · exact ⟨_, rfl⟩
  rfl

theorem judge_eq (message : Message) (body : Bytes) :
    judge message body = (Reply.ofBytes message body).mapError .invalidReply := by
  unfold judge
  cases Reply.ofBytes message body <;> rfl

theorem decided_roundTrips {query : Query} {result : Except Failure Reply}
    (h : RoundTrips query calls result) : Decided query calls result := by
  cases h with
  | @unencoded prepared e h =>
      refine .failed (.last ?_)
      change (match prepared.pack with | .error e => some (Failure.encoding e) | .ok _ => none) = _
      rw [h]
  | @encoded prepared message raw calls _ hm hraw hfits later =>
      have hprepared : (Event.answered (A := Request.Answer) (.prepare query) prepared).trouble [] =
          none := by
        change (match prepared.pack with | .error e => some (Failure.encoding e) | .ok _ => none) = _
        unfold Query.pack
        rw [hm]
        change (match message.write with | .error e => some (Failure.encoding e) | .ok _ => none) = _
        rw [hraw]
      cases later with
      | failed e => exact .failed (.cons hprepared (.last rfl))
      | short h => exact .failed (.cons hprepared (.last (if_neg h)))
      | @through calls _ said later =>
          have sent {x : Option Failure} (h : Ends [] calls x) :
              Ends [] (.answered (.prepare query) prepared ::
                .answered (.write (Frame.of raw)) (.ok (Frame.of raw).length) ::
                  .answered (.showQuery raw) () :: .answered .closeStream said :: calls) x :=
            .cons hprepared (.cons (if_pos rfl) (.cons rfl (.cons rfl h)))
          rcases ends_receives later with ⟨e, rfl, h⟩ | ⟨body, hbody, rfl, h, hmoves⟩
          · exact .failed (sent h)
          · rw [judge_eq]
            exact .judged (sent h) List.mem_cons_self hm hraw (moves_sent query said hmoves) hbody
              fun n m hn => ofBytes_maxSize hm hn body

theorem Decided.around {query : Query} {before later : Calls} {result : Except Failure Reply}
    (h : Decided query calls result) (smooth : Smooth [] before) (still : Moves before [] [])
    (clean : ∀ e ∈ later, e.request.cleansUp = true) :
    Decided query (before ++ (calls ++ later)) result := by
  have ends {x : Option Failure} (hends : Ends [] calls x) :
      Ends [] (before ++ (calls ++ later)) x := by
    refine .after smooth (.cleaned ?_ clean)
    rwa [still.read]
  cases h with
  | failed hends => exact .failed (ends hends)
  | judged hends asked named packed moves fits unlimited =>
      have hall := still.append (moves.append (Moves.of_cleansUp clean))
      rw [List.nil_append, List.nil_append, List.append_nil, List.append_nil] at hall
      exact .judged (ends hends) (List.mem_append_right _ (List.mem_append_left _ asked)) named packed
        hall fits unlimited

theorem smooth_opened (deadline : Option Time) : Smooth [] (opened deadline) := by
  cases deadline with
  | none => exact smooth_one rfl
  | some d =>
      have hboth : Smooth [] ([.answered .openStream (.ok ())] ++
          [.answered (.setDeadline (some d)) (.ok ())]) := (smooth_one rfl).append (smooth_one rfl)
      exact hboth

theorem decided_converses {deadline : Option Time} {query : Query} {result : Except Failure Reply}
    (h : Converses deadline query calls result) : Decided query calls result := by
  cases h with
  | refused e => exact .failed (.last rfl)
  | unbounded h e => exact .failed (.cons rfl (.last rfl))
  | through closed cleared h =>
      exact (decided_roundTrips h).around (smooth_opened deadline) (moves_opened deadline)
        (released_cleansUp deadline closed cleared)

theorem unwritten_converses {deadline : Option Time} {query : Query} {cause : WriteError}
    (h : Converses deadline query calls (.error (.encoding cause))) :
    ∀ e ∈ calls, ∀ frame, e.request ≠ .write frame := by
  generalize hr : (Except.error (.encoding cause) : Except Failure Reply) = result at h
  have hsettled : Settled result := hr ▸ trivial
  cases h with
  | refused e => simp [Event.answered]
  | unbounded h e => simp [Event.answered]
  | through closed cleared h =>
      cases h with
      | unencoded h => cases deadline <;> simp [opened, released, Event.answered]
      | encoded hm hraw hfits later =>
          cases later with
          | failed e => exact absurd hsettled Settled.ne_ofIo
          | short h => exact absurd hsettled Settled.ne_ofIo
          | through said later =>
              rcases ends_receives later with ⟨e, rfl, -⟩ | ⟨body, -, rfl, -, -⟩
              · exact absurd hsettled Settled.ne_ofIo
              · unfold judge at hr
                split at hr <;> cases hr

end Talk

namespace Exchange

variable {σ : Type} {around : Counterpart σ} {s : Scope} {patience : Option Time} {query : Query}
variable {w : World σ} {run : Exchange σ} {result : Except Failure Reply}

/-- An exchange whose scope has not ended when the work stops. -/
inductive Lasting (around : Counterpart σ) (s : Scope) (patience : Option Time) (query : Query)
    (w : World σ) : Exchange σ → Prop where
  | onConnection
      (live : s.failure (onConnection around s patience query w).world.tokens
        (onConnection around s patience query w).world.now = none) :
      Lasting around s patience query w (onConnection around s patience query w)
  | dialing (own : Private around w)
      (live : s.failure (stopped around s patience query w).tokens
        (stopped around s patience query w).now = none) :
      Lasting around s patience query w (dialing around s patience query w)

structure Verdict (query : Query) (calls : Calls) (result : Except Failure Reply) : Prop where
  decided : Talk.Decided query calls result
  unwritten : ∀ cause, result = .error (.encoding cause) →
    ∀ e ∈ calls, ∀ frame, e.request ≠ .write frame

theorem Verdict.of_converses {deadline : Option Time} {calls : Calls}
    (h : Talk.Converses deadline query calls result) : Verdict query calls result where
  decided := Talk.decided_converses h
  unwritten _ hr := Talk.unwritten_converses (hr ▸ h)

theorem Verdict.dialed {calls later : Calls} (h : Verdict query calls result)
    (clean : ∀ e ∈ later, e.request.cleansUp = true) :
    Verdict query ([.answered .dial (.ok ())] ++ (calls ++ later)) result where
  decided := h.decided.around (Talk.smooth_one rfl) (.still .dial (.ok ()) rfl) clean
  unwritten cause hr := by
    have hdial : ∀ frame, (Event.answered (A := Request.Answer) .dial (.ok ())).request ≠
        .write frame := fun _ => Request.noConfusion
    refine List.forall_mem_append.mpr ⟨List.forall_mem_singleton.mpr hdial, ?_⟩
    refine List.forall_mem_append.mpr ⟨h.unwritten cause hr, fun e he frame hwrite => ?_⟩
    have hclean := clean e he
    rw [hwrite] at hclean
    cases hclean

theorem verdict_of_dialing (own : Private around w)
    (live : s.failure (stopped around s patience query w).tokens
      (stopped around s patience query w).now = none)
    (h : (dialing around s patience query w).ending = .finished result) :
    Verdict query (dialing around s patience query w).events result := by
  cases hd : (dial around s patience w).ending with
  | finished dialed =>
      cases dialed with
      | error e =>
          obtain ⟨hending, -, hevents⟩ := dialing_of_failed query hd
          rw [stopped_of_failed query hd] at live
          obtain rfl : .error e = result := Ending.finished.inj (hending.symm.trans h)
          rcases dial_of_finished hd with ⟨f, -, hf⟩ | hdial
          · cases live.symm.trans hf
          · rw [hevents, hdial]
            refine ⟨.failed (.last rfl), fun cause _ => List.forall_mem_singleton.mpr ?_⟩
            exact fun frame => Request.noConfusion
      | ok _ =>
          obtain ⟨hending, -, hevents⟩ := dialing_of_dialed query hd
          rw [stopped_of_dialed query hd, ← Scope.failure_withCancel own.spare_talk] at live
          have htalk := converses_of_live live (close_eq_finished (hending.symm.trans h))
          obtain ⟨closing, hclose, hcloses⟩ := closes_close around
            (s.withCancel (dial around s patience w).world.tokens) patience
            (talk around s patience query (dial around s patience w).world)
          rw [hevents, work, hclose, events_of_dialed hd]
          refine (Verdict.of_converses htalk).dialed fun e he => ?_
          exact Request.cleansUp_of_closes (hcloses e he)
  | _ => unfold dialing at h; simp only [hd] at h; cases h

theorem finishes_of_answered (answered : ∀ now st r, (around now st r).delay ≠ .never)
    (h : Lasting around s none query w run) : ∃ result, run.ending = .finished result := by
  cases h with
  | onConnection live => exact Task.runIn_of_answered answered _
  | dialing own live => exact dialing_of_answered answered

/-- In a scope that does not end, an exchange whose calls are all answered has a result, and that is
decided by the first call that fails or, if none does, by the reply. -/
theorem decided_by_first_failure (h : Lasting around s patience query w run) :
    (∀ result, run.ending = .finished result → Verdict query run.events result) ∧
      (patience = none → (∀ now st r, (around now st r).delay ≠ .never) →
        ∃ result, run.ending = .finished result) := by
  constructor
  · intro result hresult
    cases h with
    | onConnection live => exact .of_converses (converses_of_live live hresult)
    | dialing own live => exact verdict_of_dialing own live hresult
  · rintro rfl answered
    exact finishes_of_answered answered h

/-- A script by which a write is short, and neither the stream nor the connection is closed well. -/
def clipped : Script :=
  { Script.steady with
    shortBy := 1, streamCloseFailure := some .notConnected, closeFailure := some .brokenPipe }

theorem decided_by_first_failure_clipped :
    let run := dialing clipped.counterpart ⟨[0], some 100⟩ none ⟨".", 1, 0, 7, 0⟩
      ⟨.sharp 0, ⟨1, []⟩, .start⟩
    ∃ result, run.ending = .finished result ∧ Verdict ⟨".", 1, 0, 7, 0⟩ run.events result ∧
      result = .error (.io ⟨.writeZero, "short write: 29 of 30 bytes"⟩) := by
  intro run
  have lasting : Lasting clipped.counterpart ⟨[0], some 100⟩ none ⟨".", 1, 0, 7, 0⟩
      ⟨.sharp 0, ⟨1, []⟩, .start⟩ run := .dialing (private_script rfl rfl _ _ _) rfl
  obtain ⟨verdict, finishes⟩ := decided_by_first_failure lasting
  obtain ⟨result, hresult⟩ := finishes rfl (answered_script Delay.noConfusion Delay.noConfusion
    ⟨rfl, Delay.noConfusion⟩ ⟨rfl, Delay.noConfusion⟩)
  have hending : run.ending =
      .finished (.error (.io ⟨.writeZero, "short write: 29 of 30 bytes"⟩)) := rfl
  exact ⟨result, hresult, verdict result hresult, Ending.finished.inj (hresult.symm.trans hending)⟩

end Exchange

end DnsOverStreams
