import DnsOverStreams.Query.Basic
import DnsOverStreams.Proofs.DomainName.Spelled
import DnsOverStreams.Proofs.Message.RoundTrip

namespace DnsOverStreams

namespace Query

def preparedFor (p : Option Protocol) (q : Query) : Query :=
  p.elim q fun p => q.prepare p

def sentId (p : Option Protocol) (q : Query) : UInt16 :=
  if p = some .quic then 0 else q.id

def question (q : Query) (name : DomainName) : Question :=
  ⟨name, q.recordType, internet⟩

variable {p : Option Protocol} {q : Query} {m : Message} {name : DomainName}

theorem preparedFor_spec (p : Option Protocol) (q : Query) :
    (q.preparedFor p).name = q.name ∧ (q.preparedFor p).recordType = q.recordType ∧
      (q.preparedFor p).id = q.sentId p := by
  match p with
  | none => exact ⟨rfl, rfl, rfl⟩
  | some .tcp => exact ⟨rfl, rfl, rfl⟩
  | some .tls => exact ⟨rfl, rfl, rfl⟩
  | some .quic => exact ⟨rfl, rfl, rfl⟩

theorem message_eq_ok (h : q.message = .ok m) :
    ∃ name, DomainName.ofText q.name.toList = .ok name ∧
      ((q.padding = false ∧ m = q.messageFor name []) ∨
        ∃ bytes, q.padding = true ∧ (q.messageFor name []).write = .ok bytes ∧
          m = q.messageFor name [paddingOption bytes.length]) := by
  unfold message at h
  cases hn : DomainName.ofText q.name.toList with
  | error e => rw [hn] at h; cases h
  | ok name =>
      rw [hn] at h
      refine ⟨name, rfl, ?_⟩
      change (if q.padding = true then _ else _) = Except.ok m at h
      split at h
      · rename_i hp
        cases hw : (q.messageFor name []).write with
        | error e => rw [hw] at h; cases h
        | ok bytes =>
            rw [hw] at h
            cases h
            exact .inr ⟨bytes, hp, rfl, rfl⟩
      · rename_i hp
        cases h
        exact .inl ⟨Bool.eq_false_iff.mpr hp, rfl⟩

theorem message_eq_messageFor (h : q.message = .ok m) :
    ∃ name options, DomainName.ofText q.name.toList = .ok name ∧ m = q.messageFor name options := by
  obtain ⟨name, hn, ⟨-, rfl⟩ | ⟨bytes, -, -, rfl⟩⟩ := message_eq_ok h
  · exact ⟨name, _, hn, rfl⟩
  · exact ⟨name, _, hn, rfl⟩

structure Modest (options : List EdnsOption) : Prop where
  allowed : ∀ o ∈ options, EdnsOption.allows o.code o.data = true
  length : (options.flatMap Message.optionBytes).length < optionHeader + block

theorem modest_nil : Modest [] :=
  ⟨fun _ h => absurd h List.not_mem_nil, by decide⟩

theorem modest_padding (length : Nat) : Modest [paddingOption length] := by
  refine ⟨fun o ho => ?_, ?_⟩
  · rw [List.mem_singleton.mp ho]
    rfl
  · have hlt : paddingFor length < block := Nat.mod_lt _ (by decide)
    rw [List.flatMap_singleton, EdnsOption.length_optionBytes, paddingOption]
    simp only [List.length_replicate]
    unfold optionHeader
    omega

def maxSent : Nat :=
  Message.headerLength + (DomainName.maxWire + 4) + (11 + optionHeader + block)

theorem messageFor_proper {options : List EdnsOption} (q : Query) (hn : name.Proper)
    (ho : Modest options) : (q.messageFor name options).Proper where
  lowCode := Nat.succ_pos _
  questions := fun p hp => by rw [List.mem_singleton.mp hp]; exact hn
  answers := fun _ h => absurd h List.not_mem_nil
  authority := fun _ h => absurd h List.not_mem_nil
  additional := fun _ h => absurd h List.not_mem_nil
  edns := by
    intro e he
    change e ∈ (if q.hasEdns then some (q.edns options) else none) at he
    split at he
    · cases he
      refine ⟨Nat.succ_pos _, Nat.succ_pos _, ?_, ho.allowed, ?_⟩
      · change Edns.minPayload ≤ if q.maxSize ≤ Edns.minPayload then Edns.minPayload else q.maxSize
        split
        · exact UInt16.le_refl _
        · rename_i hlarge
          exact (UInt16.le_total _ _).resolve_left hlarge
      · exact Nat.le_trans (Nat.le_of_lt ho.length) (by decide)
    · cases he

theorem room_messageFor {options : List EdnsOption} (q : Query) (hn : name.Proper)
    (ho : Modest options) : (q.messageFor name options).room ≤ maxSent := by
  have hshort := hn.short
  have hlength := ho.length
  have hlast : ((q.messageFor name options).lastSection.map Record.room).sum ≤
      11 + (options.flatMap Message.optionBytes).length := by
    change ((((if q.hasEdns then some (q.edns options) else none).map Edns.toRecord).toList).map
      Record.room).sum ≤ _
    split
    · exact Nat.le_refl _
    · exact Nat.zero_le _
  have hroom : (q.messageFor name options).room = Message.headerLength +
      (name.wireLength + 4) + ((q.messageFor name options).lastSection.map Record.room).sum := rfl
  rw [hroom]
  unfold maxSent
  omega

theorem messageFor_write {options : List EdnsOption} (q : Query) (hn : name.Proper)
    (ho : Modest options) :
    ∃ raw, (q.messageFor name options).write = .ok raw ∧ raw.length ≤ maxSent ∧
      Message.read raw = some (q.messageFor name options) := by
  have hroom := room_messageFor q hn ho
  obtain ⟨raw, hwrite, hlength, hread⟩ :=
    Message.write_read_of_room (messageFor_proper q hn ho) (Nat.le_trans hroom (by decide))
  exact ⟨raw, hwrite, Nat.le_trans hlength hroom, hread⟩

theorem message_sent (hn : DomainName.ofText q.name.toList = .ok name)
    (hshort : name.wireLength ≤ DomainName.maxWire) :
    ∃ options raw, q.message = .ok (q.messageFor name options) ∧
      (q.messageFor name options).write = .ok raw ∧ raw.length ≤ maxSent ∧
      Message.read raw = some (q.messageFor name options) := by
  have hproper : name.Proper := ⟨DomainName.ofText_regular hn, hshort⟩
  cases hp : q.padding with
  | false =>
      obtain ⟨raw, hwrite, hlength, hread⟩ := messageFor_write q hproper modest_nil
      refine ⟨[], raw, ?_, hwrite, hlength, hread⟩
      unfold message
      rw [hn, hp]
      rfl
  | true =>
      obtain ⟨bytes, hbytes, -, -⟩ := messageFor_write q hproper modest_nil
      obtain ⟨raw, hwrite, hlength, hread⟩ :=
        messageFor_write q hproper (modest_padding bytes.length)
      refine ⟨_, raw, ?_, hwrite, hlength, hread⟩
      unfold message
      rw [hn, hp]
      change ((q.messageFor name []).write >>= _) = _
      rw [hbytes]
      rfl

end Query

end DnsOverStreams
