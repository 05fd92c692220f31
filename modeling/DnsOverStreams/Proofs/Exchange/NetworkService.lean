import DnsOverStreams.Exchange.Network
import DnsOverStreams.Proofs.Connection.Serving
import DnsOverStreams.Proofs.Exchange.Service
/-!
A network does what a responder must, if the peer of the connection that is dialed takes one query and then
puts in the frame of the reply to it: however it is cut and delayed, and whatever the capacity of the pipes.
-/

namespace DnsOverStreams

namespace Contact

variable {α : Type} {query unsent owed : Bytes} {steps : List PeerStep} {x : Contact}
variable {result : Outcome → α}

namespace Serving

variable (hsteps : ∀ s ∈ steps, s.answers = true) (hquery : query.length ≤ Frame.maxBody)

include hsteps hquery

theorem operate (aim : Aim) {op : Operation} (h : Serving query steps unsent owed x)
    (idle : x.connection.line = [])
    (begins : ∀ y, Serving query steps unsent owed y → y.connection.Runs op →
      Underway query steps aim owed y) (now : Moment) :
    (x.operate now op result).Gives fun a y =>
      ∃ o, a = result o ∧ Succeeds query steps aim owed o y := by
  obtain ⟨hserving, hidle⟩ := h.atTime hsteps hquery idle now.time
  have hstart := Contact.start_of_nobody hserving.ours.alive hidle op
  rw [hserving.deadline] at hstart
  let begun : Connection := { (x.atTime now.time).connection with
    line := [.operation ⟨(x.atTime now.time).stream, op, none, false⟩] }
  have hbegun : Underway query steps aim owed ⟨begun, (x.atTime now.time).peer⟩ :=
    begins _ ⟨hserving.present, hserving.engaged, ⟨hserving.ours.alive, hserving.ours.held⟩,
      hserving.unbounded⟩ ⟨_, false, rfl⟩
  unfold Contact.operate
  rw [hstart]
  cases hbegun.settle with
  | ends o outcome succeeds =>
      rw [outcome]
      exact ⟨Delay.noConfusion, o, rfl, succeeds⟩
  | waits outcome underway =>
      obtain ⟨o, y, hwait, hsucceeds⟩ := underway.wait hsteps hquery
      rw [outcome]
      dsimp only
      rw [hwait]
      exact ⟨Delay.noConfusion, o, rfl, hsucceeds⟩

theorem writes (h : Serving query steps (Frame.of query) owed x) (idle : x.connection.line = [])
    (now : Moment) :
    (x.operate now (.write [] (Frame.of query)) result).Gives fun a y =>
      a = result (.wrote (Frame.of query).length) ∧ Serving query steps [] owed y ∧
        y.connection.line = [] := by
  obtain ⟨hdelay, o, hanswer, hsucceeds⟩ := h.operate hsteps hquery (.send (Frame.of query).length)
    idle (fun y hy runs => .send (by rw [List.length_nil, Nat.zero_add]) hy runs) now
  refine ⟨hdelay, ?_⟩
  generalize (x.operate now (.write [] (Frame.of query)) result).state = y at hsucceeds ⊢
  cases hsucceeds with
  | sent serving idle => exact ⟨hanswer, serving, idle⟩

theorem reads {room : Nat} (h : Serving query steps [] owed x) (idle : x.connection.line = [])
    (some : owed ≠ []) (asked : 0 < room) (now : Moment) :
    (x.operate now (.read room) result).Gives fun a y => ∃ piece rest, a = result (.got piece) ∧
      piece ≠ [] ∧ piece.length ≤ room ∧ owed = piece ++ rest ∧ Serving query steps [] rest y ∧
        y.connection.line = [] := by
  obtain ⟨hdelay, o, hanswer, hsucceeds⟩ := h.operate hsteps hquery (.fetch room) idle
    (fun y hy runs => .fetch some asked hy runs) now
  refine ⟨hdelay, ?_⟩
  generalize (x.operate now (.read room) result).state = y at hsucceeds ⊢
  cases hsucceeds with
  | @fetched piece rest _ _ hpiece hfits serving idle =>
      exact ⟨piece, rest, hanswer, hpiece, hfits, rfl, serving, idle⟩

end Serving

end Contact

namespace Network

def Ready (raw : Bytes) (steps : List PeerStep) (former : Contacts) (unsent owed : Bytes)
    (contacts : Contacts) : Prop :=
  ∃ x, contacts = x :: former ∧ x.Serving raw steps unsent owed ∧ x.connection.line = []

/-- The connections in a phase of an exchange, when those of `former` were made before. -/
def At (raw : Bytes) (steps : List PeerStep) (former : Contacts) : Phase → Contacts → Prop
  | .undialed => fun contacts => contacts = former
  | .dialed => Ready raw steps former (Frame.of raw) (steps.flatMap (·.puts raw))
  | .opened => Ready raw steps former (Frame.of raw) (steps.flatMap (·.puts raw))
  | .asked frame => fun contacts =>
      frame = Frame.of raw ∧ Ready raw steps former [] (steps.flatMap (·.puts raw)) contacts
  | .replying unread => Ready raw steps former [] unread

variable {former : Contacts} {query : Query} {manner : Manner} {message : Message} {raw reply : Bytes}
variable {steps : List PeerStep}

theorem ready_connect {net : Network} (hcapacity : 0 < net.capacity)
    (hscript : net.script former.length = .takeQuery :: steps) (time : Time) :
    Ready raw steps former (Frame.of raw) (steps.flatMap (·.puts raw)) (net.connect former time) := by
  refine ⟨_, rfl, ⟨rfl, ?_, ⟨rfl, rfl⟩, List.forall_mem_nil _⟩, rfl⟩
  refine ⟨⟨rfl, hcapacity⟩, ⟨rfl, hcapacity⟩, rfl, _, ?_, rfl⟩
  change Peer.Due raw steps (net.script former.length) [] .empty _
  rw [hscript]
  exact .coming

/-- Whatever the peer of the next connection is to do when it has the query, and in whatever pieces, with
whatever pauses: if it puts in the frame of the reply, the network serves. -/
theorem serves (net : Network) (hdials : net.dialFailure = none) (hcapacity : 0 < net.capacity)
    (hscript : net.script former.length = .takeQuery :: steps)
    (hsteps : ∀ s ∈ steps, s.answers = true)
    (hmessage : Talk.encode (query.prepare net.protocol) = .ok (message, raw, Frame.of raw))
    (hraw : raw.length ≤ Frame.maxBody) (hreply : Responder.reply raw manner = .ok (some reply))
    (hputs : steps.flatMap (·.puts raw) = Frame.of reply) :
    Serves net.counterpart net.protocol manner query (At raw steps former) where
  dials := by
    intro now st hst
    obtain rfl : former = st := hst.symm
    change (net.dial now former).Gives _
    unfold Network.dial
    rw [hdials]
    exact ⟨Delay.ofMs_ne_never _, rfl, ready_connect hcapacity hscript _⟩
  opens := by
    rintro now _ ⟨x, rfl, h, idle⟩
    refine ⟨Delay.noConfusion, rfl, x.openStream, rfl, ⟨h.present, h.engaged, ⟨h.ours.alive, h.ours.held⟩,
      ?_⟩, idle⟩
    exact List.forall_mem_append.mpr ⟨h.unbounded, List.forall_mem_singleton.mpr rfl⟩
  prepares := by
    rintro now _ ⟨x, rfl, h, idle⟩
    exact ⟨Delay.noConfusion, rfl, x, rfl, h, idle⟩
  writes := by
    rintro now _ message' raw' frame hencode ⟨x, rfl, h, idle⟩
    cases hmessage.symm.trans hencode
    obtain ⟨hdelay, hanswer, hserving, hidle⟩ := h.writes hsteps hraw idle now
    exact ⟨hdelay, hanswer, rfl, _, rfl, hserving, hidle⟩
  shows := by
    rintro now _ raw' frame ⟨hframe, x, rfl, h, idle⟩
    exact ⟨Delay.noConfusion, hframe, x, rfl, h, idle⟩
  replies := by
    rintro now _ raw' reply' hreply' ⟨hframe, x, rfl, h, idle⟩
    obtain rfl := Frame.of_inj hframe
    cases hreply.symm.trans hreply'
    rw [hputs] at h
    exact ⟨Delay.noConfusion, x, rfl, h, idle⟩
  hands := by
    rintro now _ room unread hroom hne ⟨x, rfl, h, idle⟩
    obtain ⟨hdelay, piece, rest, hanswer, hpiece, hfits, hsplit, hserving, hidle⟩ :=
      h.reads hsteps hraw idle hne hroom now
    exact ⟨hdelay, piece, rest, hanswer, hpiece, hfits, hsplit, _, rfl, hserving, hidle⟩
  showsReply := by
    rintro now _ raw' ⟨x, rfl, h, idle⟩
    exact ⟨Delay.noConfusion, x, rfl, h, idle⟩
  releases := by
    rintro now _ ⟨x, rfl, h, idle⟩
    exact ⟨Delay.noConfusion, x, rfl, h, idle⟩
  closes := by
    rintro now _ occasion ⟨x, rfl, h, idle⟩
    exact Delay.noConfusion

theorem spare (net : Network) (hquery : net.cancelOnQuery = []) (hreply : net.cancelOnReply = [])
    (t : Token) : Surroundings.Spare net.counterpart t := by
  intro now contacts r
  have hoperate {α : Type} (x : Contact) (op : Operation) (result : Outcome → α) :
      t ∉ (x.operate now op result).cancels := by
    unfold Contact.operate
    split <;> exact List.not_mem_nil
  have hlatest (x : Contact) (r : Request) : t ∉ (net.onLatest now x r).cancels := by
    cases r with
    | write frame => exact hoperate x _ _
    | read room => exact hoperate x _ _
    | showQuery raw =>
        change t ∉ net.cancelOnQuery
        exact hquery ▸ List.not_mem_nil
    | showReply raw =>
        change t ∉ net.cancelOnReply
        exact hreply ▸ List.not_mem_nil
    | _ => exact List.not_mem_nil
  cases r with
  | dial =>
      change t ∉ (net.dial now contacts).cancels
      unfold Network.dial
      split <;> exact List.not_mem_nil
  | _ =>
      cases contacts with
      | nil => exact List.not_mem_nil
      | cons x former => exact hlatest x _

end Network

end DnsOverStreams
