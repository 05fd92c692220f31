import DnsOverStreams.Proofs.Document.Lines
/-!
Documents with a table on one of their lines, written as a value, in which a word stands for nothing.
-/

namespace DnsOverStreams.Toml

open Reader

inductive Hollow : Value → List Char → Prop where
  | table {blank : List Char} (h : Blank blank) :
      Hollow (.table .closed []) ('\x7b' :: (blank ++ ['\x7d']))
  | list {blank : List Char} (h : Blank blank) : Hollow (.list []) ('[' :: (blank ++ [']']))

/-- How a table can be written in which a word is the only key and nothing is its value. -/
inductive Tagged (word : String) : Value → List Char → Prop where
  | intro {v : Value} {lead name before after inner last : List Char} (hlead : Blank lead)
      (hname : Names word name) (hbefore : Blank before) (hafter : Blank after)
      (hinner : Hollow v inner) (hlast : Blank last) :
      Tagged word (.table .closed [(word, v)])
        ('\x7b' :: (lead ++ (name ++ (before ++ '=' :: (after ++ (inner ++ (last ++ ['\x7d'])))))))

/-- How a line starts that gives a key a value, which is written so. -/
inductive Assigned (key : String) (chunk : List Char) : List Char → Prop where
  | intro {lead name before after : List Char} (hlead : Blank lead) (hname : Names key name)
      (hbefore : Blank before) (hafter : Blank after) :
      Assigned key chunk (lead ++ (name ++ (before ++ '=' :: (after ++ chunk))))

variable {key word : String} {v : Value} {es before after : List (String × String)}
variable {blank chunk inner name rest line last more cs tail : List Char} {c : Char}

theorem skipSpaces_at (h : Blank blank) (hc : isSpace c = false) (rest : List Char) :
    skipSpaces (blank ++ c :: rest) = c :: rest := by
  rw [skipSpaces_blank h]
  exact dropWhile_self (by rintro _ ⟨⟩; exact hc)

theorem skipLines_at (h : Blank blank) (rest : List Char) :
    skipLines (blank ++ ']' :: rest).length (blank ++ ']' :: rest) = ']' :: rest := by
  obtain ⟨n, hn⟩ : ∃ n, (blank ++ ']' :: rest).length = n + 1 :=
    ⟨(blank ++ rest).length, by simp only [List.length_append, List.length_cons, Nat.add_assoc]⟩
  rw [hn]
  unfold skipLines
  rw [skipSpaces_at h rfl]
  rfl

theorem Hollow.head (h : Hollow v inner) (rest : List Char) :
    ∃ c cs, inner ++ rest = c :: cs ∧ isSpace c = false := by
  cases h with
  | table h => exact ⟨_, _, rfl, rfl⟩
  | list h => exact ⟨_, _, rfl, rfl⟩

theorem Hollow.value (h : Hollow v inner) (n : Nat) (rest : List Char) :
    Toml.value (n + 2) (inner ++ rest) = some (v, rest) := by
  cases h with
  | table h =>
      rw [List.cons_append, List.append_assoc, List.singleton_append, Toml.value,
        if_neg (by decide), if_neg (by decide), if_pos rfl, inlineTable, skipSpaces_at h rfl, given_self]
  | list h =>
      rw [List.cons_append, List.append_assoc, List.singleton_append, Toml.value,
        if_neg (by decide), if_pos rfl, items]
      dsimp only
      rw [skipLines_at h, given_self]
      rfl

theorem inlineTable_opened (h : simpleKey (skipSpaces cs) = some (key, rest)) (n : Nat) :
    inlineTable (n + 1) cs = inlineEntries n (.table .heading []) cs := by
  obtain ⟨c, cs', hskip, hc⟩ := starts_of_simpleKey h
  rw [inlineTable, hskip, given_other (hc.ne (by decide) (by decide) (by decide))]

theorem inlineEntries_single {n : Nat} (h : simpleKey (skipSpaces cs) = some (key, rest))
    (hequals : skipSpaces rest = '=' :: tail) (hvalue : value n (skipSpaces tail) = some (v, more))
    (hlast : skipSpaces more = '\x7d' :: last) :
    inlineEntries (n + 1) (.table .heading []) cs = some (.table .closed [(key, v)], last) := by
  have hdot : given '.' (skipSpaces rest) = none := by
    rw [hequals]
    exact given_other (by decide) tail
  have hread : dottedKey cs.length (skipSpaces cs) = some (([], key), rest) := by
    cases cs with
    | nil => cases h
    | cons c cs => exact dottedKey_single h hdot
  have hcomma : given ',' (skipSpaces more) = none := by
    rw [hlast]
    exact given_other (by decide) last
  have hclose : given '\x7d' (skipSpaces more) = some ((), last) := by
    rw [hlast]
    exact given_self '\x7d' last
  have hassign : Value.assign [] key v (.table .heading []) = some (.table .heading [(key, v)]) := rfl
  rw [inlineEntries, hread]
  simp only [Option.bind_eq_bind, Option.bind_some]
  rw [hequals, given_self]
  simp only [Option.bind_some, hvalue, hassign, hcomma, hclose]

theorem Tagged.value (h : Tagged word v chunk) (n : Nat) (rest : List Char) :
    Toml.value (n + 5) (chunk ++ rest) = some (v, rest) := by
  cases h with
  | @intro v lead name before after inner last hlead hname hbefore hafter hinner hlast =>
      have hbody : lead ++ (name ++ (before ++ '=' :: (after ++ (inner ++ (last ++ ['\x7d']))))) ++ rest =
          lead ++ (name ++ (before ++ '=' :: (after ++ (inner ++ (last ++ '\x7d' :: rest))))) := by
        simp
      obtain ⟨hkey, hstart, hequals⟩ :=
        hname.starts hlead hbefore (after ++ (inner ++ (last ++ '\x7d' :: rest)))
      rw [← hstart] at hkey
      obtain ⟨c, cs, hcs, hc⟩ := hinner.head (last ++ '\x7d' :: rest)
      have hskip : skipSpaces (after ++ (inner ++ (last ++ '\x7d' :: rest))) =
          inner ++ (last ++ '\x7d' :: rest) := by
        rw [hcs]
        exact skipSpaces_at hafter hc cs
      have hvalue : Toml.value (n + 2) (skipSpaces (after ++ (inner ++ (last ++ '\x7d' :: rest)))) =
          some (v, last ++ '\x7d' :: rest) := by
        rw [hskip]
        exact hinner.value n _
      rw [List.cons_append, hbody, Toml.value, if_neg (by decide), if_neg (by decide), if_pos rfl,
        inlineTable_opened hkey, inlineEntries_single hkey hequals hvalue (skipSpaces_at hlast rfl rest)]

theorem Tagged.length (h : Tagged word v chunk) : 5 ≤ chunk.length := by
  cases h with
  | intro hlead hname hbefore hafter hinner hlast =>
      cases hinner <;> simp only [List.length_append, List.length_cons, List.length_nil] <;> omega

theorem Assigned.statement (h : Assigned key chunk line) (hchunk : Tagged word v chunk)
    (hlast : Break more last) :
    Toml.statement (line ++ (last ++ more)) = some (.entry [] key v, more) := by
  cases h with
  | @intro lead name before after hlead hname hbefore hafter =>
      have hline : lead ++ (name ++ (before ++ '=' :: (after ++ chunk))) ++ (last ++ more) =
          lead ++ (name ++ (before ++ '=' :: (after ++ (chunk ++ (last ++ more))))) := by
        simp
      have hskip : skipSpaces (after ++ (chunk ++ (last ++ more))) = chunk ++ (last ++ more) := by
        cases hchunk
        exact skipSpaces_at hafter rfl _
      obtain ⟨n, hlong, hn⟩ := statement_named hlead hname hbefore (after ++ (chunk ++ (last ++ more)))
      obtain ⟨m, rfl⟩ : ∃ m, n = m + 4 := by
        refine ⟨n - 4, (Nat.sub_add_cancel (Nat.le_trans ?_ hlong)).symm⟩
        have := hchunk.length
        simp only [List.length_append]
        omega
      rw [hline, hn, hskip, hchunk.value]
      simp only [Option.bind_some, hlast.afterStatement]
      rfl

theorem document?_tagged (h : Lines (line ++ (last ++ more)) before cs)
    (hline : Assigned key chunk line) (hchunk : Tagged word v chunk) (hlast : Break more last)
    (hmore : Lines [] after more)
    (hkeys : ((before.map Prod.fst ++ [key]) ++ after.map Prod.fst).Nodup) :
    document? (String.ofList cs) = some (texts before ++ (key, v) :: texts after) := by
  have hs := hline.statement hchunk hlast
  obtain ⟨m, hm, hread⟩ := document?_lines h (withoutMark_of_statement hs)
  obtain ⟨ss, hbegins, happly⟩ := hmore.begins
  have hlength : more.length < (line ++ (last ++ more)).length := by
    cases hline
    simp only [List.length_append, List.length_cons]
    omega
  obtain ⟨m', -, hrest⟩ := hbegins.cons hs hlength m hm
  have hend : statements m' [] = some [] := by cases m' <;> rfl
  rw [hend, Option.map_some, List.append_nil] at hrest
  have hbefore : applyAll blankPlace (before.map written) = some ⟨[], .table .heading (texts before)⟩ :=
    applyAll_written [] ((List.nodup_append.mp (List.nodup_append.mp hkeys).1).1)
  have hnew : key ∉ (texts before).map Prod.fst := by
    rw [keys_texts]
    exact fun hmem =>
      (List.nodup_append.mp (List.nodup_append.mp hkeys).1).2.2 _ hmem _ List.mem_cons_self rfl
  have hafter : applyAll ⟨[], .table .heading (texts before ++ [(key, v)])⟩ (after.map written) =
      some ⟨[], .table .heading (texts before ++ [(key, v)] ++ texts after)⟩ := by
    refine applyAll_written _ ?_
    rwa [List.map_append, keys_texts]
  rw [hread, hrest, Option.bind_some, applyAll_append, hbefore, Option.bind_some]
  change (((apply _ (.entry [] key v)).bind fun place => applyAll place ss).bind _) = _
  rw [apply_new hnew, Option.bind_some, happly, hafter, List.append_assoc]
  rfl

end DnsOverStreams.Toml
