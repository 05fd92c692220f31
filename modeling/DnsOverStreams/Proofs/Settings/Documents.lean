import DnsOverStreams.Proofs.Address.ReadBack
import DnsOverStreams.Proofs.Document.Growth
import DnsOverStreams.Proofs.Document.Tagged
import DnsOverStreams.Settings.Basic
/-!
Documents with the fields of settings. They are read back from them in any order, and with a strange key, without a
key that is needed or with something else for a protocol a document is refused.
-/

namespace DnsOverStreams.Settings

open Toml (Lines Opens texts)

variable {n : Language} {s s' : Settings} {es : Entries} {fs before : List (String × String)}
variable {key text : String} {v : Value} {p : Protocol} {cs tail rest start : List Char}

/-- What is found in the entries of a document that settings are read from. -/
structure Given (n : Language) (es : Entries) (s : Settings) : Prop where
  known : ∀ e ∈ es, e.1 ∈ keys
  protocol : (Entries.get? es "protocol").bind (protocol? n) = some s.protocol
  endpoint : (Entries.get? es "endpoint").bind address? = some s.endpoint
  serverName : optional es "server_name" text? = some s.serverName
  bindAddress : optional es "bind_addr" address? = some s.bindAddress

theorem ofEntries?_eq_some_iff : ofEntries? n es = some s ↔ Given n es s := by
  have hknown : es.any (fun e => !keys.contains e.1) = false ↔ ∀ e ∈ es, e.1 ∈ keys := by
    simp [List.any_eq_false]
  unfold ofEntries?
  constructor
  · intro h
    split at h
    · cases h
    · rename_i hany
      obtain ⟨protocol, hprotocol, h⟩ := Option.bind_eq_some_iff.mp h
      obtain ⟨endpoint, hendpoint, h⟩ := Option.bind_eq_some_iff.mp h
      obtain ⟨serverName, hserverName, h⟩ := Option.bind_eq_some_iff.mp h
      obtain ⟨bindAddress, hbindAddress, h⟩ := Option.bind_eq_some_iff.mp h
      cases h
      exact ⟨hknown.mp (Bool.eq_false_iff.mpr hany), hprotocol, hendpoint, hserverName, hbindAddress⟩
  · intro h
    rw [if_neg (Bool.eq_false_iff.mp (hknown.mpr h.known)), h.protocol, h.endpoint, h.serverName, h.bindAddress]
    rfl

def words : List (String × Protocol) :=
  [("tcp", .tcp), ("tls", .tls), ("quic", .quic)]

theorem mem_words_iff {word : String} : (word, p) ∈ words ↔ Protocol.ofWord? word = some p := by
  constructor
  · intro h
    simp only [words, List.mem_cons, Prod.mk.injEq, List.not_mem_nil, or_false] at h
    obtain ⟨rfl, rfl⟩ | ⟨rfl, rfl⟩ | ⟨rfl, rfl⟩ := h <;> decide
  · intro h
    obtain rfl := Protocol.ofWord?_eq_some h
    cases p <;> decide

/-- What a value can be to stand for a protocol: its word, or a table with the word as its only key and
nothing for its value, which is null in JSON and an empty table or list in TOML. -/
inductive Stands : Language → Protocol → Value → Prop where
  | word {n : Language} {p : Protocol} {word : String} (h : (word, p) ∈ words) : Stands n p (.text word)
  | null {p : Protocol} {word : String} {origin : TableOrigin} (h : (word, p) ∈ words) :
      Stands .json p (.table origin [(word, .null)])
  | table {p : Protocol} {word : String} {origin inner : TableOrigin} (h : (word, p) ∈ words) :
      Stands .toml p (.table origin [(word, .table inner [])])
  | list {p : Protocol} {word : String} {origin : TableOrigin} (h : (word, p) ∈ words) :
      Stands .toml p (.table origin [(word, .list [])])

theorem stands_of_isEmpty {word : String} {origin : TableOrigin} (h : (word, p) ∈ words)
    (hempty : n.isEmpty v = true) : Stands n p (.table origin [(word, v)]) := by
  unfold Language.isEmpty at hempty
  split at hempty
  · exact .table h
  · exact .list h
  · exact .null h
  · cases hempty

theorem protocol?_eq_some_iff : protocol? n v = some p ↔ Stands n p v := by
  constructor
  · intro h
    unfold protocol? at h
    split at h
    · exact .word (mem_words_iff.mpr h)
    · split at h
      · rename_i hempty
        exact stands_of_isEmpty (mem_words_iff.mpr h) hempty
      · cases h
    · cases h
  · rintro (h | h | h | h) <;> exact mem_words_iff.mp h

def fields (s : Settings) : List (String × String) :=
  ("protocol", s.protocol.word) :: ("endpoint", s.endpoint.text) ::
    ((s.serverName.map fun name => ("server_name", name)).toList ++
      (s.bindAddress.map fun a => ("bind_addr", a.text)).toList)

theorem keys_of_fields (s : Settings) : (s.fields.map Prod.fst).Sublist keys := by
  unfold fields
  cases s.serverName <;> cases s.bindAddress <;> simp [keys]

theorem get?_texts (hkeys : (fs.map Prod.fst).Nodup) (hmem : (key, text) ∈ fs) :
    Entries.get? (texts fs) key = some (.text text) := by
  induction fs with
  | nil => cases hmem
  | cons f fs ih =>
      rw [List.map_cons, List.nodup_cons] at hkeys
      refine (Entries.get?_cons (f.1, .text f.2) (texts fs) key).trans ?_
      rcases List.mem_cons.mp hmem with rfl | hmem
      · exact if_pos rfl
      · have hne : key ≠ f.1 := fun hkey => hkeys.1 (hkey ▸ List.mem_map_of_mem (f := Prod.fst) hmem)
        exact (if_neg hne).trans (ih hkeys.2 hmem)

theorem nodup_of_perm (h : fs.Perm s.fields) : (fs.map Prod.fst).Nodup :=
  ((h.map Prod.fst).nodup_iff).mpr (s.keys_of_fields.nodup (by decide))

theorem optional_missing {α : Type} {read : Value → Option α} (h : Entries.get? es key = none) :
    optional es key read = some none := by
  unfold optional
  rw [h]

theorem optional_text {α : Type} {read : Value → Option α} {a : α}
    (h : Entries.get? es key = some (.text text)) (hread : read (.text text) = some a) :
    optional es key read = some (some a) := by
  unfold optional
  rw [h]
  exact congrArg (Option.map some) hread

theorem given_fields (h : fs.Perm s.fields) : Given n (texts fs) s := by
  have hfield {key text : String} (hmem : (key, text) ∈ s.fields) :
      Entries.get? (texts fs) key = some (.text text) := get?_texts (nodup_of_perm h) (h.mem_iff.mpr hmem)
  have hmissing {key : String} (hkey : key ∉ s.fields.map Prod.fst) : Entries.get? (texts fs) key = none :=
    Toml.get?_texts_none fun hmem => hkey ((h.map Prod.fst).mem_iff.mp hmem)
  refine ⟨fun e he => ?_, ?_, ?_, ?_, ?_⟩
  · obtain ⟨f, hf, rfl⟩ := List.mem_map.mp he
    exact s.keys_of_fields.subset (List.mem_map_of_mem (h.mem_iff.mp hf))
  · rw [hfield (List.mem_cons_self)]
    exact Protocol.ofWord?_word s.protocol
  · rw [hfield (List.mem_cons_of_mem _ List.mem_cons_self)]
    exact SocketAddress.ofText?_text s.endpoint
  · cases hname : s.serverName with
    | none => exact optional_missing (hmissing (by cases hbind : s.bindAddress <;> simp [fields, hname, hbind]))
    | some name => exact optional_text (hfield (by simp [fields, hname])) rfl
  · cases hbind : s.bindAddress with
    | none => exact optional_missing (hmissing (by cases hname : s.serverName <;> simp [fields, hname, hbind]))
    | some a => exact optional_text (hfield (by simp [fields, hbind])) (SocketAddress.ofText?_text a)

theorem ofToml?_eq_some_iff : ofToml? text = some s ↔
    ∃ es, Toml.document? text = some es ∧ Given .toml es s := by
  unfold ofToml?
  rw [Option.bind_eq_some_iff]
  exact exists_congr fun es => and_congr_right fun _ => ofEntries?_eq_some_iff

theorem ofToml?_fields (h : fs.Perm s.fields) (hcs : Lines [] fs cs) : ofToml? (String.ofList cs) = some s :=
  ofToml?_eq_some_iff.mpr ⟨texts fs, Toml.document?_of_lines hcs (nodup_of_perm h), given_fields h⟩

theorem Given.known_of_get? (h : Given n es s) (hkey : Entries.get? es key = some v) : key ∈ keys := by
  obtain ⟨_, _, rfl, -⟩ := List.lookup_eq_some_iff.mp hkey
  exact h.known (key, v) (by simp)

theorem ofEntries?_strange (hmem : key ∈ es.map Prod.fst) (hkey : key ∉ keys) : ofEntries? n es = none := by
  refine Option.eq_none_iff_forall_not_mem.mpr fun s hs => hkey ?_
  obtain ⟨e, he, rfl⟩ := List.mem_map.mp hmem
  exact (ofEntries?_eq_some_iff.mp hs).known e he

theorem ofToml?_strange (hcs : Lines tail before cs) (hopens : Opens key tail) (hkey : key ∉ keys) :
    ofToml? (String.ofList cs) = none := by
  refine Option.eq_none_iff_forall_not_mem.mpr fun s hs => hkey ?_
  obtain ⟨es, hread, hgiven⟩ := ofToml?_eq_some_iff.mp hs
  obtain ⟨v, hv⟩ := Toml.document?_opens hcs hopens hread
  exact hgiven.known_of_get? hv

def needed : List String :=
  ["protocol", "endpoint"]

theorem ofEntries?_lacking (hkey : key ∈ needed) (h : Entries.get? es key = none) : ofEntries? n es = none := by
  refine Option.eq_none_iff_forall_not_mem.mpr fun s hs => ?_
  have hgiven := ofEntries?_eq_some_iff.mp hs
  simp only [needed, List.mem_cons, List.not_mem_nil, or_false] at hkey
  rcases hkey with rfl | rfl
  · have := hgiven.protocol
    rw [h] at this
    cases this
  · have := hgiven.endpoint
    rw [h] at this
    cases this

def without (key : String) (fs : List (String × String)) : List (String × String) :=
  fs.filter (·.1 ≠ key)

theorem get?_without (key : String) (fs : List (String × String)) :
    Entries.get? (texts (without key fs)) key = none :=
  Toml.get?_texts_none (by simp [without])

theorem ofToml?_without (h : fs.Perm s.fields) (hkey : key ∈ needed) (hcs : Lines [] (without key fs) cs) :
    ofToml? (String.ofList cs) = none := by
  have hkeys : ((without key fs).map Prod.fst).Nodup :=
    (List.filter_sublist.map Prod.fst).nodup (nodup_of_perm h)
  unfold ofToml?
  rw [Toml.document?_of_lines hcs hkeys]
  exact ofEntries?_lacking hkey (get?_without key fs)

theorem ofEntries?_replace (h : Given n es s) (v : Value) :
    ofEntries? n (Entries.replace es "protocol" v) = (protocol? n v).map fun p => { s with protocol := p } := by
  have hprotocol : Entries.get? (Entries.replace es "protocol" v) "protocol" = some v := by
    obtain ⟨u, hu, -⟩ := Option.bind_eq_some_iff.mp h.protocol
    rw [Entries.get?_replace, if_pos rfl, hu]
    rfl
  have hother {key : String} (hkey : key ≠ "protocol") :
      Entries.get? (Entries.replace es "protocol" v) key = Entries.get? es key := by
    rw [Entries.get?_replace, if_neg hkey]
  cases hp : protocol? n v with
  | none =>
      refine Option.eq_none_iff_forall_not_mem.mpr fun s hs => ?_
      have := (ofEntries?_eq_some_iff.mp hs).protocol
      rw [hprotocol, Option.bind_some, hp] at this
      cases this
  | some p =>
      refine ofEntries?_eq_some_iff.mpr ⟨fun e he => ?_, ?_, ?_, ?_, ?_⟩
      · obtain ⟨f, hf, rfl⟩ := List.mem_map.mp he
        split
        · exact List.mem_cons_self
        · exact h.known f hf
      · rw [hprotocol]
        exact hp
      · rw [hother (by decide)]
        exact h.endpoint
      · unfold optional
        rw [hother (by decide)]
        exact h.serverName
      · unfold optional
        rw [hother (by decide)]
        exact h.bindAddress

def reworded (word : String) (fs : List (String × String)) : List (String × String) :=
  fs.map fun f => if f.1 = "protocol" then ("protocol", word) else f

theorem keys_of_reworded (word : String) (fs : List (String × String)) :
    (reworded word fs).map Prod.fst = fs.map Prod.fst := by
  unfold reworded
  rw [List.map_map]
  refine List.map_congr_left fun f _ => ?_
  by_cases hf : f.1 = "protocol" <;> simp [hf]

theorem texts_reworded (word : String) (fs : List (String × String)) :
    texts (reworded word fs) = Entries.replace (texts fs) "protocol" (.text word) := by
  unfold texts reworded Entries.replace
  rw [List.map_map, List.map_map]
  refine List.map_congr_left fun f _ => ?_
  by_cases hf : f.1 = "protocol" <;> simp [hf]

theorem ofToml?_reworded {word : String} (h : fs.Perm s.fields) (hcs : Lines [] (reworded word fs) cs) :
    ofToml? (String.ofList cs) = some s' ↔ ∃ p, (word, p) ∈ words ∧ s' = { s with protocol := p } := by
  have hkeys : ((reworded word fs).map Prod.fst).Nodup := keys_of_reworded word fs ▸ nodup_of_perm h
  unfold ofToml?
  rw [Toml.document?_of_lines hcs hkeys, texts_reworded, Option.bind_some,
    ofEntries?_replace (given_fields h), Option.map_eq_some_iff]
  exact exists_congr fun p => and_congr mem_words_iff.symm eq_comm

theorem ofToml?_protocol (hcs : Lines tail before cs)
    (hkey : Toml.simpleKey (Toml.skipSpaces tail) = some ("protocol", rest))
    (hequals : Toml.skipSpaces rest = '=' :: start) (hs : ofToml? (String.ofList cs) = some s') :
    ∃ v left, Toml.value (Toml.skipSpaces tail).length (Toml.skipSpaces start) = some (v, left) ∧
      Stands .toml s'.protocol v := by
  obtain ⟨es, hread, hgiven⟩ := ofToml?_eq_some_iff.mp hs
  obtain ⟨v, left, hv, hvalue⟩ := Toml.document?_assigned hcs hkey hequals hread
  have hprotocol := hgiven.protocol
  rw [hvalue] at hprotocol
  exact ⟨v, left, hv, protocol?_eq_some_iff.mp hprotocol⟩

theorem replace_texts {before after : List (String × String)}
    (hkeys : ((before ++ (key, text) :: after).map Prod.fst).Nodup) (v : Value) :
    Entries.replace (texts (before ++ (key, text) :: after)) key v =
      texts before ++ (key, v) :: texts after := by
  have still {es : List (String × String)} (h : ∀ e ∈ es, e.1 ≠ key) :
      Entries.replace (texts es) key v = texts es := by
    unfold Entries.replace texts
    rw [List.map_map]
    exact List.map_congr_left fun e he => if_neg (h e he)
  rw [List.map_append, List.map_cons, List.nodup_append, List.nodup_cons] at hkeys
  obtain ⟨-, ⟨hafter, -⟩, hbefore⟩ := hkeys
  have hfront : Entries.replace (texts before) key v = texts before :=
    still fun e he => hbefore e.1 (List.mem_map_of_mem he) key List.mem_cons_self
  have hback : Entries.replace (texts after) key v = texts after := by
    refine still fun e he hkey => hafter ?_
    exact List.mem_map.mpr ⟨e, he, hkey⟩
  unfold Entries.replace texts at hfront hback ⊢
  rw [List.map_append, List.map_append, hfront, List.map_cons, List.map_cons, hback, if_pos rfl]

theorem ofToml?_tagged {before after : List (String × String)} {word : String}
    {chunk line last more : List Char} (hs : fs.Perm s.fields)
    (hfs : fs = before ++ ("protocol", s.protocol.word) :: after) (hword : (word, p) ∈ words)
    (hchunk : Toml.Tagged word v chunk) (hline : Toml.Assigned "protocol" chunk line)
    (hlast : Toml.Break more last) (hmore : Lines [] after more)
    (hcs : Lines (line ++ (last ++ more)) before cs) :
    ofToml? (String.ofList cs) = some { s with protocol := p } := by
  have hkeys := hfs ▸ nodup_of_perm hs
  have hread := Toml.document?_tagged hcs hline hchunk hlast hmore (by simpa using hkeys)
  have hstands : Stands .toml p v := by
    cases hchunk with
    | intro _ _ _ _ hinner =>
        cases hinner with
        | table => exact .table hword
        | list => exact .list hword
  rw [← replace_texts hkeys v, ← hfs] at hread
  unfold ofToml?
  rw [hread, Option.bind_some, ofEntries?_replace (given_fields hs), protocol?_eq_some_iff.mpr hstands]
  rfl

/-- What documents with the fields of settings come to, in the order of the fields, and documents that differ from
them in a key or in the protocol. -/
structure ReadBack (s : Settings) (fs : List (String × String)) : Prop where
  written : ∃ cs, Lines [] fs cs
  toml {cs : List Char} (h : Lines [] fs cs) : ofToml? (String.ofList cs) = some s
  json : ofEntries? .json (texts fs) = some s
  -- The tail starts with what is strange and may go on with the lines that are left, or with anything.
  strange_toml {before after : List (String × String)} {key : String} {tail cs : List Char}
    (hfs : fs = before ++ after) (h : Lines tail before cs) (hopens : Opens key tail)
    (hkey : key ∉ ["protocol", "endpoint", "server_name", "bind_addr"]) : ofToml? (String.ofList cs) = none
  strange_json {es : Entries} {key : String} {v : Value} (h : es.Perm ((key, v) :: texts fs))
    (hkey : key ∉ ["protocol", "endpoint", "server_name", "bind_addr"]) : ofEntries? .json es = none
  lacking_toml {key : String} {cs : List Char} (hkey : key ∈ needed) (h : Lines [] (without key fs) cs) :
    ofToml? (String.ofList cs) = none
  lacking_json {key : String} (hkey : key ∈ needed) : ofEntries? .json (texts (without key fs)) = none
  reworded_toml {word : String} {cs : List Char} {s' : Settings} (h : Lines [] (reworded word fs) cs) :
    ofToml? (String.ofList cs) = some s' ↔ ∃ p, (word, p) ∈ words ∧ s' = { s with protocol := p }
  replaced_toml {before after : List (String × String)} {tail rest start cs : List Char} {s' : Settings}
    (hfs : fs = before ++ ("protocol", s.protocol.word) :: after) (h : Lines tail before cs)
    (hkey : Toml.simpleKey (Toml.skipSpaces tail) = some ("protocol", rest))
    (hequals : Toml.skipSpaces rest = '=' :: start) (hs : ofToml? (String.ofList cs) = some s') :
    ∃ v left, Toml.value (Toml.skipSpaces tail).length (Toml.skipSpaces start) = some (v, left) ∧
      Stands .toml s'.protocol v
  tagged_toml {before after : List (String × String)} {word : String} {p : Protocol} {v : Value}
    {chunk line last more cs : List Char} (hfs : fs = before ++ ("protocol", s.protocol.word) :: after)
    (hword : (word, p) ∈ words) (hchunk : Toml.Tagged word v chunk)
    (hline : Toml.Assigned "protocol" chunk line)
    (hlast : Toml.Break more last) (hmore : Lines [] after more)
    (h : Lines (line ++ (last ++ more)) before cs) :
    ofToml? (String.ofList cs) = some { s with protocol := p }
  replaced_json {v : Value} {s' : Settings} :
    ofEntries? .json (Entries.replace (texts fs) "protocol" v) = some s' ↔
      ∃ p, Stands .json p v ∧ s' = { s with protocol := p }

theorem fields_read_back (h : fs.Perm s.fields) : s.ReadBack fs where
  written := Toml.exists_lines fs []
  toml hcs := ofToml?_fields h hcs
  json := ofEntries?_eq_some_iff.mpr (given_fields h)
  strange_toml _ hcs hopens hkey := ofToml?_strange hcs hopens hkey
  strange_json hes hkey := by
    refine ofEntries?_strange ?_ hkey
    rw [(hes.map Prod.fst).mem_iff]
    exact List.mem_cons_self
  lacking_toml hkey hcs := ofToml?_without h hkey hcs
  lacking_json hkey := ofEntries?_lacking hkey (get?_without _ fs)
  reworded_toml hcs := ofToml?_reworded h hcs
  replaced_toml _ hcs hkey hequals hs := ofToml?_protocol hcs hkey hequals hs
  tagged_toml hfs hword hchunk hline hlast hmore hcs :=
    ofToml?_tagged h hfs hword hchunk hline hlast hmore hcs
  replaced_json := by
    intro v s'
    rw [ofEntries?_replace (given_fields h), Option.map_eq_some_iff]
    exact exists_congr fun p => and_congr protocol?_eq_some_iff eq_comm

theorem fields_read_back_named :
    let s : Settings := ⟨.tls, .v4 ⟨9, 9, 9, 9⟩ 853, some "dns.quad9.net", none⟩
    let fs := [("server_name", "dns.quad9.net"), ("endpoint", "9.9.9.9:853"), ("protocol", "tls")]
    fs.Perm s.fields ∧ s.ReadBack fs := by
  intro s fs
  have h : fs.Perm s.fields := by decide
  exact ⟨h, fields_read_back h⟩

/-- Not every value that a protocol is read from is a text. -/
theorem tagged_protocol :
    let s : Settings := ⟨.tcp, .v4 ⟨1, 1, 1, 1⟩ 53, none, none⟩
    let v : Value := .table .closed [("tcp", .null)]
    ofEntries? .json (texts s.fields) = some s ∧ (∀ word, v ≠ .text word) ∧
      ofEntries? .json (Entries.replace (texts s.fields) "protocol" v) = some s :=
  ⟨rfl, fun _ => nofun, rfl⟩

end DnsOverStreams.Settings
