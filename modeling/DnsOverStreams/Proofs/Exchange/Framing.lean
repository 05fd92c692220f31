import DnsOverStreams.Frame
/-!
Frames one after the other. The length at the head of a frame tells where it ends, so a stream of frames
is cut into them in one way only, and what begins such a stream with whole frames begins with its own.
-/

namespace DnsOverStreams

namespace Frame

def of (raw : Bytes) : Bytes :=
  Bytes.ofWord (UInt16.ofNat raw.length) ++ raw

theorem length_of (raw : Bytes) : (of raw).length = headerLength + raw.length := by
  rw [of, List.length_append]
  rfl

theorem of_inj {b c : Bytes} (h : of b = of c) : b = c :=
  (List.append_inj h rfl).2

theorem of_ne_nil (raw : Bytes) : of raw ≠ [] :=
  nofun

theorem of_announced {header body : Bytes} (hheader : header.length = headerLength)
    (hbody : body.length = announced header) : header ++ body = of body := by
  match header, hheader with
  | [hi, lo], _ =>
    have hword : UInt16.ofNat body.length = Bytes.toWord hi lo := by
      rw [hbody]
      exact UInt16.ofNat_toNat
    rw [of, hword, Bytes.ofWord_toWord]

theorem announced_lt (header : Bytes) : announced header ≤ maxBody := by
  unfold announced
  split
  · exact Nat.le_of_lt_succ (UInt16.toNat_lt _)
  · exact Nat.zero_le _

theorem of_append_inj {b c x y : Bytes} (hb : b.length ≤ maxBody) (hc : c.length ≤ maxBody)
    (h : of b ++ x = of c ++ y) : b = c ∧ x = y := by
  unfold of at h
  rw [List.append_assoc, List.append_assoc] at h
  obtain ⟨hheader, hrest⟩ := List.append_inj h rfl
  have hlength : b.length = c.length := by
    rw [← announced_ofWord hb, hheader, announced_ofWord hc]
  exact List.append_inj hrest hlength

theorem prefix_of_frames {bs cs : List Bytes} (hbs : ∀ b ∈ bs, b.length ≤ maxBody)
    (hcs : ∀ c ∈ cs, c.length ≤ maxBody) (h : bs.flatMap of <+: cs.flatMap of) : bs <+: cs := by
  induction bs generalizing cs with
  | nil => exact List.nil_prefix
  | cons b bs ih =>
      obtain ⟨more, hmore⟩ := h
      cases cs with
      | nil => simp [of_ne_nil] at hmore
      | cons c cs =>
          rw [List.flatMap_cons, List.flatMap_cons, List.append_assoc] at hmore
          obtain ⟨hbound, hlater⟩ := List.forall_mem_cons.mp hbs
          obtain ⟨hbound', hlater'⟩ := List.forall_mem_cons.mp hcs
          obtain ⟨rfl, hrest⟩ := of_append_inj hbound hbound' hmore
          exact List.cons_prefix_cons.mpr ⟨rfl, ih hlater hlater' ⟨more, hrest⟩⟩

theorem length_le_of_mem {b : Bytes} {bs : List Bytes} (h : b ∈ bs) :
    b.length ≤ (bs.flatMap of).length := by
  obtain ⟨front, back, rfl⟩ := List.append_of_mem h
  simp only [List.flatMap_append, List.flatMap_cons, List.length_append, length_of]
  omega

theorem eq_of_frames {bs cs : List Bytes} (h : bs.flatMap of = cs.flatMap of)
    (hshort : (cs.flatMap of).length ≤ maxBody) : bs = cs := by
  have hbs : ∀ b ∈ bs, b.length ≤ maxBody := fun b hb =>
    Nat.le_trans (length_le_of_mem hb) (h ▸ hshort)
  have hcs : ∀ c ∈ cs, c.length ≤ maxBody := fun c hc => Nat.le_trans (length_le_of_mem hc) hshort
  have hfront : bs <+: cs := prefix_of_frames hbs hcs (h ▸ List.prefix_rfl)
  have hback : cs <+: bs := prefix_of_frames hcs hbs (h ▸ List.prefix_rfl)
  exact hfront.eq_of_length_le hback.length_le

/-- Nothing but frames was sent, and no more of them, begun or complete, than were received whole. -/
def Answered (received sent : Bytes) : Prop :=
  ∃ queries replies : List Bytes, replies.length ≤ queries.length ∧
    (∀ b ∈ queries, b.length ≤ maxBody) ∧ (∀ b ∈ replies, b.length ≤ maxBody) ∧
    queries.flatMap of <+: received ∧ sent <+: replies.flatMap of

theorem Answered.receives {received sent : Bytes} (h : Answered received sent) (more : Bytes) :
    Answered (received ++ more) sent := by
  obtain ⟨queries, replies, hcount, hqueries, hreplies, hreceived, hsent⟩ := h
  exact ⟨queries, replies, hcount, hqueries, hreplies, hreceived.trans (List.prefix_append _ _), hsent⟩

end Frame

end DnsOverStreams
