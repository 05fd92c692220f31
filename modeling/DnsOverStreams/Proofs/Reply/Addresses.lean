import DnsOverStreams.Reply
import DnsOverStreams.Proofs.Message.Places
import DnsOverStreams.Proofs.Message.RoundTrip
/-!
The addresses of an accepted reply, read off its bytes. They are the data of the records of their type in
the answer section; of the other sections only the extension data counts, for the response code.
-/

namespace DnsOverStreams

namespace RecordBytes

def isOpt (r : RecordBytes) : Bool :=
  r.recordType == RecordType.opt

/-- A record of the type, and not one of those that have no data. -/
def has (t : UInt16) (r : RecordBytes) : Bool :=
  r.recordType == t && r.data != []

/-- The sections of records stand behind the questions, each with as many records as the header says. -/
def Sections (bs : Bytes) (answers authority additional : List RecordBytes) : Prop :=
  ∃ questions a b c d,
    (Cursor.seek bs 12).many (Question.read bs) (bs.wordAt 4).toNat = some (questions, .seek bs a) ∧
    StandAll bs a answers b ∧ answers.length = (bs.wordAt 6).toNat ∧
    StandAll bs b authority c ∧ authority.length = (bs.wordAt 8).toNat ∧
    StandAll bs c additional d ∧ additional.length = (bs.wordAt 10).toNat

/-- The response code of twelve bits: the lower four stand in the header, and the others in the extension
data, if there are any. -/
def code (bs : Bytes) (additional : List RecordBytes) : Nat :=
  ((additional.find? isOpt).elim 0 fun r => r.ttl.toNat >>> 24) * 16 + (bs.wordAt 2).toNat % 16

variable {rs : List RecordBytes} {records : List Record} {bs : Bytes}

theorem edns_of_readAs (h : List.Forall₂ ReadAs rs records) {edns : Option Edns}
    (he : Message.ednsOf (records.filter Message.isOpt) = some edns) :
    (rs.filter isOpt).length ≤ 1 ∧
      edns.elim 0 (·.highCode) = (rs.find? isOpt).elim 0 fun r => r.ttl.toNat >>> 24 := by
  have hopt : List.Forall₂ ReadAs (rs.filter isOpt) (records.filter Message.isOpt) := by
    refine List.rel_filter (fun r record hread => ?_) h
    change (r.recordType == _) = true ↔ (record.recordType == _) = true
    rw [hread.recordType]
  -- a second record of extension data would have made the message malformed
  rw [← List.head?_filter]
  generalize rs.filter isOpt = opts at hopt ⊢
  generalize records.filter Message.isOpt = carriers at hopt he
  cases hopt with
  | nil =>
      cases he
      exact ⟨Nat.zero_le _, rfl⟩
  | cons hread hrest =>
      cases hrest with
      | nil =>
          cases he
          exact ⟨Nat.le_refl _, congrArg (fun l : UInt32 => l.toNat >>> 24) hread.ttl⟩
      | cons _ _ => cases he

theorem sections_of_read {m : Message} (h : Message.read bs = some m) :
    ∃ answers authority additional, Sections bs answers authority additional ∧
      (additional.filter isOpt).length ≤ 1 ∧ List.Forall₂ ReadAs answers m.answers ∧
      m.responseCode = code bs additional := by
  simp only [Message.read, Option.bind_eq_bind, Option.bind_eq_some_iff] at h
  obtain ⟨⟨header, _⟩, hheader, opcode, -, ⟨questions, _⟩, hquestions, ⟨answers, _⟩, hanswers,
    ⟨authority, _⟩, hauthority, ⟨additional, _⟩, hadditional, edns, hedns, h⟩ := h
  obtain ⟨-, rfl, rfl⟩ := Header.read_eq_some hheader
  obtain ⟨-, a, rfl⟩ := Question.many_seek hquestions
  obtain ⟨as, b, hstand, hread, hlength, rfl⟩ := Record.many_seek hanswers
  obtain ⟨ns, c, hstand', -, hlength', rfl⟩ := Record.many_seek hauthority
  obtain ⟨ds, d, hstand'', hread'', hlength'', rfl⟩ := Record.many_seek hadditional
  obtain ⟨hone, hhigh⟩ := edns_of_readAs hread'' hedns
  cases h
  refine ⟨as, ns, ds, ⟨questions, a, b, c, d, hquestions, hstand, hlength, hstand', hlength', hstand'',
    hlength''⟩, hone, hread, ?_⟩
  rw [code, ← hhigh]
  cases edns with
  | none => exact (Nat.zero_add _).symm
  | some e => rfl

end RecordBytes

namespace RecordData

def ipv4? : RecordData → Option Ipv4
  | .ipv4 ip => some ip
  | _ => none

def ipv6? : RecordData → Option Ipv6
  | .ipv6 ip => some ip
  | _ => none

end RecordData

namespace Reply

variable {α : Type} {bytes : α → Bytes} {pick : RecordData → Option α} {t : UInt16}

/-- What is made of the records that are wanted: their data as addresses, in the same order, unless the
response code is one of failure or there are none. -/
structure Collects (bytes : α → Bytes) (code : Nat) (wanted : List RecordBytes)
    (result : Except Failure (List α)) : Prop where
  refused : ∀ c, result = .error (.responseCode c) ↔ code ≠ 0 ∧ c = code
  lacking : result = .error .noData ↔ code = 0 ∧ wanted = []
  found : ∀ xs, result = .ok xs ↔ code = 0 ∧ wanted ≠ [] ∧ xs.map bytes = wanted.map (·.data)
  decided : code = 0 → wanted ≠ [] → ∃ xs, result = .ok xs

def Picks (t : UInt16) (bytes : α → Bytes) (pick : RecordData → Option α) : Prop :=
  ∀ t' d data, RecordData.Holds t' d data →
    (pick data).map bytes = if t' = t ∧ d ≠ [] then some d else none

theorem Picks.answers (h : Picks t bytes pick) {rs : List RecordBytes} {records : List Record}
    (hread : List.Forall₂ RecordBytes.ReadAs rs records) :
    (records.filterMap fun record => pick record.data).map bytes =
      (rs.filter (·.has t)).map (·.data) := by
  rw [List.map_filterMap]
  induction hread with
  | nil => rfl
  | @cons r record rs records hfirst _ ih =>
      have hpick := h _ _ _ hfirst.data
      have hhas : r.has t = true ↔ r.recordType = t ∧ r.data ≠ [] := by simp [RecordBytes.has]
      by_cases hwanted : r.recordType = t ∧ r.data ≠ []
      · rw [if_pos hwanted] at hpick
        rw [List.filterMap_cons, hpick, List.filter_cons_of_pos (hhas.mpr hwanted), List.map_cons, ← ih]
      · rw [if_neg hwanted] at hpick
        rw [List.filterMap_cons, hpick, List.filter_cons_of_neg (mt hhas.mp hwanted)]
        exact ih

theorem picks_ipv4 : Picks RecordType.a Ipv4.bytes RecordData.ipv4? := by
  intro t d data h
  cases h with
  | empty => exact (if_neg fun h => h.2 rfl).symm
  | ipv4 ip => exact (if_pos ⟨rfl, List.cons_ne_nil _ _⟩).symm
  | ipv6 ip => exact (if_neg fun h => absurd h.1 (by decide)).symm
  | options hne os => exact (if_neg fun h => absurd h.1 (by decide)).symm
  | raw h4 h6 raw => exact (if_neg fun h => h4 h.1).symm

theorem picks_ipv6 : Picks RecordType.aaaa Ipv6.bytes RecordData.ipv6? := by
  intro t d data h
  cases h with
  | empty => exact (if_neg fun h => h.2 rfl).symm
  | ipv4 ip => exact (if_neg fun h => absurd h.1 (by decide)).symm
  | ipv6 ip =>
      refine (if_pos ⟨rfl, fun hnil => ?_⟩).symm
      have hlength := congrArg List.length hnil
      rw [Ipv6.bytes, Ipv6.length_flatMap_ofWord, ip.length_segments] at hlength
      cases hlength
  | options hne os => exact (if_neg fun h => absurd h.1 (by decide)).symm
  | raw h4 h6 raw => exact (if_neg fun h => h6 h.1).symm

theorem collects_collect (hinj : Function.Injective bytes) {r : Reply} {wanted : List RecordBytes}
    (h : (r.message.answers.filterMap fun record => pick record.data).map bytes =
      wanted.map (·.data)) : Collects bytes r.message.responseCode wanted (r.collect pick) := by
  have hcode : ResponseCode.noError = 0 := rfl
  unfold collect
  rw [hcode]
  generalize (r.message.answers.filterMap fun record => pick record.data) = xs at h ⊢
  by_cases hfails : r.message.responseCode = 0
  · rw [if_neg (not_not.mpr hfails)]
    cases xs with
    | nil =>
        obtain rfl : wanted = [] := List.map_eq_nil_iff.mp h.symm
        constructor <;> simp [hfails]
    | cons x xs =>
        have hne : wanted ≠ [] := by
          rintro rfl
          cases h
        refine ⟨by simp [hfails], by simp [hne], fun ys => ?_, fun _ _ => ⟨_, rfl⟩⟩
        rw [← h, (List.map_injective_iff.mpr hinj).eq_iff]
        simp [hfails, hne, eq_comm]
  · rw [if_pos hfails]
    constructor <;> simp [hfails, eq_comm]

theorem message_of_check {query m : Message} {r : Reply} (h : check query m = .ok r) :
    r.message = m := by
  unfold check at h
  split_ifs at h
  cases h
  rfl

theorem read_of_ofBytes {query : Message} {bs : Bytes} {r : Reply} (h : ofBytes query bs = .ok r) :
    Message.read bs = some r.message := by
  rw [ofBytes] at h
  cases hm : Message.read bs with
  | none => rw [hm] at h; cases h
  | some m =>
      rw [hm] at h
      rw [message_of_check h]

theorem bytes_injective_ipv4 : Function.Injective Ipv4.bytes := by
  intro x y h
  have hx := Ipv4.ofBytes?_bytes x
  rw [h, Ipv4.ofBytes?_bytes] at hx
  exact (Option.some.inj hx).symm

theorem bytes_injective_ipv6 : Function.Injective Ipv6.bytes := by
  intro x y h
  have hx := Ipv6.ofBytes?_bytes x
  rw [h, Ipv6.ofBytes?_bytes] at hx
  exact (Option.some.inj hx).symm

/-- Whatever the bytes of an accepted reply are, its addresses are the data of the records of their type, 1
or 28, in the answer section, in the order and as often as they stand there, unless the full response code
is one of failure. -/
theorem addresses_are_of_answers {query : Message} {bs : Bytes} {r : Reply}
    (h : ofBytes query bs = .ok r) :
    ∃ answers authority additional, RecordBytes.Sections bs answers authority additional ∧
      (additional.filter RecordBytes.isOpt).length ≤ 1 ∧
      Collects Ipv4.bytes (RecordBytes.code bs additional) (answers.filter (·.has 1))
        r.addresses4 ∧
      Collects Ipv6.bytes (RecordBytes.code bs additional) (answers.filter (·.has 28))
        r.addresses6 := by
  obtain ⟨answers, authority, additional, hsections, hone, hanswers, hcode⟩ :=
    RecordBytes.sections_of_read (read_of_ofBytes h)
  refine ⟨answers, authority, additional, hsections, hone, ?_, ?_⟩
  · rw [← hcode]
    exact collects_collect bytes_injective_ipv4 (picks_ipv4.answers hanswers)
  · rw [← hcode]
    exact collects_collect bytes_injective_ipv6 (picks_ipv6.answers hanswers)

/-- Three addresses, one of them twice, and a record without any: the header names no failure, but the
extension data does. -/
theorem addresses_are_of_answers_extended :
    let query : Message := ⟨7, .query, .ofWord 0, 0, [⟨[[97]], 1, 1⟩], [], [], [], none⟩
    let bs : Bytes :=
      [0, 7, 129, 128, 0, 1, 0, 4, 0, 0, 0, 1, 1, 65, 0, 0, 1, 0, 1,
        192, 12, 0, 1, 0, 1, 0, 0, 0, 60, 0, 4, 8, 8, 8, 8,
        192, 12, 0, 1, 0, 1, 0, 0, 0, 60, 0, 0,
        1, 98, 0, 0, 1, 0, 1, 0, 0, 0, 60, 0, 4, 8, 8, 8, 8,
        192, 12, 0, 1, 0, 1, 0, 0, 0, 60, 0, 4, 8, 8, 4, 4,
        0, 0, 41, 4, 208, 1, 0, 0, 0, 0, 0]
    ∃ r answers authority additional, ofBytes query bs = .ok r ∧
      RecordBytes.Sections bs answers authority additional ∧
      r.addresses4 = .error (.responseCode 16) ∧ RecordBytes.code bs additional = 16 := by
  intro query bs
  let record (name : DomainName) (data : RecordData) : Record := ⟨name, 1, 1, 60, data⟩
  let m : Message := ⟨7, .query, .ofWord 0x8180, 0, [⟨[[65]], 1, 1⟩],
    [record [[65]] (.ipv4 ⟨8, 8, 8, 8⟩), record [[65]] .empty, record [[98]] (.ipv4 ⟨8, 8, 8, 8⟩),
      record [[65]] (.ipv4 ⟨8, 8, 4, 4⟩)], [], [], some ⟨1, 0, false, 1232, []⟩⟩
  have hname (b : UInt8) : DomainName.Proper [[b]] :=
    ⟨List.forall_mem_singleton.mpr ⟨Nat.one_pos, show 1 ≤ DomainName.maxLabel by decide⟩,
      show 3 ≤ DomainName.maxWire by decide⟩
  have haddress (b : UInt8) (ip : Ipv4) : (record [[b]] (.ipv4 ip)).Proper :=
    ⟨hname b, .ipv4 ip, show 4 ≤ Message.maxLength by decide, fun h => by cases h⟩
  have hempty : (record [[65]] .empty).Proper :=
    ⟨hname 65, .empty _, Nat.zero_le _, fun h => by cases h⟩
  have hproper : m.Proper := by
    refine ⟨by decide, List.forall_mem_singleton.mpr (hname 65), ?_, List.forall_mem_nil _,
      List.forall_mem_nil _, ?_⟩
    · refine List.forall_mem_cons.mpr ⟨haddress 65 _, List.forall_mem_cons.mpr ⟨hempty, ?_⟩⟩
      exact List.forall_mem_cons.mpr ⟨haddress 98 _, List.forall_mem_singleton.mpr (haddress 65 _)⟩
    · rintro _ ⟨⟩
      exact ⟨by decide, by decide, by decide, List.forall_mem_nil _, Nat.zero_le _⟩
  have hwrite : m.write = .ok bs := by decide +kernel
  have hread : Message.read bs = some m := (Message.writtenWhole_of_write hwrite (by decide)).read hproper
  have hr : ofBytes query bs = .ok ⟨m⟩ := by
    rw [ofBytes, hread]
    rfl
  obtain ⟨answers, authority, additional, hsections, -, h4, -⟩ := addresses_are_of_answers hr
  have hrefused : addresses4 ⟨m⟩ = .error (.responseCode 16) := rfl
  exact ⟨⟨m⟩, answers, authority, additional, hr, hsections, hrefused,
    ((h4.refused 16).mp hrefused).2.symm⟩

end Reply

end DnsOverStreams
