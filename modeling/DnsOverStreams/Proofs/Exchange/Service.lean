import DnsOverStreams.Proofs.Exchange.Delivery
import DnsOverStreams.Proofs.Exchange.ScopeEnd
import DnsOverStreams.Proofs.Query.Sent
import DnsOverStreams.Proofs.Responder.Replies
/-!
Exchanges with a responder that does what it must, when nothing ends them before they are over. What it
must do is told for each phase of an exchange: only the calls that are made there are answered.
-/

namespace DnsOverStreams

/-- Where an exchange stands: the frame of the query was written, or no more will be and so much of the
reply's frame is unread. -/
inductive Phase where
  | undialed
  | dialed
  | opened
  | asked (frame : Bytes)
  | replying (unread : Bytes)
  deriving DecidableEq, Repr

/-- A counterpart of an exchange of one query that makes the settings of a protocol, takes the frame of the
query, and when it is told that no more will come hands out the frame of the responder's reply. `At` tells
in which states it is in a phase. -/
structure Serves {σ : Type} (around : Counterpart σ) (p : Protocol) (manner : Manner) (query : Query)
    (At : Phase → σ → Prop) : Prop where
  dials : ∀ now st, At .undialed st →
    (around now st .dial).Gives fun a later => a = .ok () ∧ At .dialed later
  opens : ∀ now st, At .dialed st →
    (around now st .openStream).Gives fun a later => a = .ok () ∧ At .opened later
  prepares : ∀ now st, At .opened st →
    (around now st (.prepare query)).Gives fun a later => a = query.prepare p ∧ At .opened later
  writes : ∀ now st message raw frame, Talk.encode (query.prepare p) = .ok (message, raw, frame) →
    At .opened st → (around now st (.write frame)).Gives fun a later =>
      a = .ok frame.length ∧ At (.asked frame) later
  shows : ∀ now st raw frame, At (.asked frame) st →
    (around now st (.showQuery raw)).Gives fun _ later => At (.asked frame) later
  replies : ∀ now st raw reply, Responder.reply raw manner = .ok (some reply) →
    At (.asked (Frame.of raw)) st →
      (around now st .closeStream).Gives fun _ later => At (.replying (Frame.of reply)) later
  hands : Hands around fun unread => At (.replying unread)
  showsReply : ∀ now st raw, At (.replying []) st →
    (around now st (.showReply raw)).Gives fun _ later => At (.replying []) later
  releases : ∀ now st, At (.replying []) st →
    (around now st .closeStream).Gives fun _ later => At (.replying []) later
  closes : ∀ now st occasion, At (.replying []) st →
    (around now st (.closeConnection occasion)).delay ≠ .never

namespace Serves

variable {σ : Type} {around : Counterpart σ} {p : Protocol} {manner : Manner} {query : Query}
variable {At : Phase → σ → Prop} {message : Message} {raw reply : Bytes} {name : DomainName}
variable {st : σ}

theorem send (h : Serves around p manner query At)
    (hmessage : Talk.encode (query.prepare p) = .ok (message, raw, Frame.of raw))
    (hreply : Responder.reply raw manner = .ok (some reply))
    (hlength : reply.length ≤ Frame.maxBody) (hst : At .opened st) :
    (Talk.send message raw (Frame.of raw)).Yields around
      (fun a later => a = Talk.judge message reply ∧ At (.replying []) later) st := by
  intro now
  obtain ⟨hwrite, hanswer, hasked⟩ := h.writes now st message raw _ hmessage hst
  refine ⟨hwrite, ?_⟩
  rw [hanswer]
  dsimp only
  rw [if_pos rfl]
  intro shown
  obtain ⟨hshow, hasked⟩ := h.shows shown _ raw _ hasked
  refine ⟨hshow, fun ended => ?_⟩
  obtain ⟨hend, hreplying⟩ := h.replies ended _ raw reply hreply hasked
  refine ⟨hend, Task.Yields.bind ?_⟩
  rw [← List.append_nil (Frame.of reply)] at hreplying
  refine h.hands.readFrame [] hlength hreplying fun later hlater read => ?_
  obtain ⟨hread, hdone⟩ := h.showsReply read later reply hlater
  exact ⟨hread, rfl, hdone⟩

theorem roundTrip (h : Serves around p manner query At)
    (hmessage : Talk.encode (query.prepare p) = .ok (message, raw, Frame.of raw))
    (hreply : Responder.reply raw manner = .ok (some reply))
    (hlength : reply.length ≤ Frame.maxBody) (hst : At .opened st) :
    (Talk.roundTrip query).Yields around
      (fun a later => a = Talk.judge message reply ∧ At (.replying []) later) st := by
  intro now
  obtain ⟨hprepare, hanswer, hopened⟩ := h.prepares now st hst
  refine ⟨hprepare, ?_⟩
  rw [hanswer]
  dsimp only
  rw [hmessage]
  exact h.send hmessage hreply hlength hopened

theorem converse (h : Serves around p manner query At)
    (hmessage : Talk.encode (query.prepare p) = .ok (message, raw, Frame.of raw))
    (hreply : Responder.reply raw manner = .ok (some reply))
    (hlength : reply.length ≤ Frame.maxBody) (hst : At .dialed st) :
    (Talk.converse none query).Yields around
      (fun a later => a = Talk.judge message reply ∧ At (.replying []) later) st := by
  intro now
  obtain ⟨hopen, hanswer, hopened⟩ := h.opens now st hst
  refine ⟨hopen, ?_⟩
  rw [hanswer]
  refine Task.Yields.bind ((h.roundTrip hmessage hreply hlength hopened).mono ?_)
  rintro a later ⟨rfl, hdone⟩ released
  obtain ⟨hrelease, hdone⟩ := h.releases released later hdone
  exact ⟨hrelease, rfl, hdone⟩

end Serves

namespace Exchange

variable {σ : Type} {around : Counterpart σ} {s : Scope} {query : Query} {w : World σ}

theorem dialing_of_talk {result : Except Failure Reply}
    (hd : (dial around s none w).ending = .finished (.ok ())) :
    let run := talk around s none query (dial around s none w).world
    run.ending = .finished result →
      (∀ occasion, (around run.world.now run.world.state (.closeConnection occasion)).delay ≠ .never) →
        (dialing around s none query w).ending = .finished result := by
  intro run h closes
  rw [(dialing_of_dialed query hd).1]
  obtain ⟨ms, hms⟩ := Delay.duration_of_answered
    (closes (occasion (s.withCancel (dial around s none w).world.tokens) run.world.now))
  exact (close_of_finished _ h hms (by rintro t ⟨⟩)).1

theorem dialing_of_answered (answered : ∀ now st r, (around now st r).delay ≠ .never) :
    ∃ result, (dialing around s none query w).ending = .finished result := by
  obtain ⟨dialed, hd⟩ : ∃ dialed, (dial around s none w).ending = .finished dialed :=
    Task.runIn_of_answered answered _
  cases dialed with
  | error e => exact ⟨_, (dialing_of_failed query hd).1⟩
  | ok _ =>
      obtain ⟨result, htalk⟩ : ∃ result,
          (talk around s none query (dial around s none w).world).ending = .finished result :=
        Task.runIn_of_answered answered _
      exact ⟨result, dialing_of_talk hd htalk fun _ => answered _ _ _⟩

def sentBack (manner : Manner) (frame : Bytes) : Bytes :=
  match Responder.reply (frame.drop Frame.headerLength) manner with
  | .ok (some reply) => Bytes.ofWord (.ofNat reply.length) ++ reply
  | _ => []

def bytewise (p : Protocol) (manner : Manner) : Counterpart Bytes :=
  fun _ unread r =>
    match r with
    | .dial => ⟨.answered 3, .ok (), unread, fun _ => unread, []⟩
    | .openStream => .instant (.ok ()) unread
    | .setDeadline _ => .instant (.ok ()) unread
    | .prepare query => .instant (query.prepare p) unread
    | .write frame => .instant (.ok frame.length) (sentBack manner frame)
    | .showQuery _ => .instant () unread
    | .closeStream => .instant (.ok ()) unread
    | .read _ => ⟨.answered 5, .ok (unread.take 1), unread.drop 1, fun _ => unread, []⟩
    | .showReply _ => .instant () unread
    | .closeConnection _ => .instant .closed unread

theorem bytewise_spare (p : Protocol) (manner : Manner) (t : Token) :
    Surroundings.Spare (bytewise p manner) t := by
  intro now st r
  cases r <;> exact List.not_mem_nil

theorem bytewise_delivers (p : Protocol) (manner : Manner) : Delivers (bytewise p manner) id := by
  intro now st room hroom hne
  obtain ⟨b, rest, rfl⟩ := List.exists_cons_of_ne_nil hne
  exact ⟨Delay.noConfusion, [b], rfl, List.cons_ne_nil _ _, hroom, rfl⟩

end Exchange

end DnsOverStreams
