import DnsOverStreams.Proofs.Document.Quoted
/-!
Documents with a key and its text on every line, with empty lines and comments between them. The keys are read in
the order of the lines, whatever comes after these.
-/

namespace DnsOverStreams.Toml

open Reader

def Blank (cs : List Char) : Prop :=
  ∀ c ∈ cs, isSpace c = true

inductive Names (key : String) : List Char → Prop where
  | bare (hne : key.toList ≠ []) (hbare : ∀ c ∈ key.toList, isBareKeyChar c = true) :
      Names key key.toList
  | quoted {cs : List Char} (h : Written key.toList cs) : Names key ('"' :: (cs ++ ['"']))

inductive Line (key text : String) : List Char → Prop where
  | intro {lead name before after body : List Char} (hlead : Blank lead) (hname : Names key name)
      (hbefore : Blank before) (hafter : Blank after) (hbody : Written text.toList body) :
      Line key text (lead ++ (name ++ (before ++ '=' :: (after ++ '"' :: (body ++ ['"'])))))

inductive Comment : List Char → Prop where
  | missing : Comment []
  | given {cs : List Char} (h : ∀ c ∈ cs, isContent c = true) : Comment ('#' :: cs)

/-- How a line ends before what comes next. A line that nothing follows may go without an end. -/
inductive LineEnd (next : List Char) : List Char → Prop where
  | feed : LineEnd next ['\n']
  | carriage : LineEnd next ['\r', '\n']
  | missing (h : next = []) : LineEnd next []

inductive Break (next : List Char) : List Char → Prop where
  | intro {blank comment last : List Char} (hblank : Blank blank) (hcomment : Comment comment)
      (hlast : LineEnd next last) : Break next (blank ++ (comment ++ last))

/-- The lines of a document down to its tail, with the keys and texts on them. -/
inductive Lines (tail : List Char) : List (String × String) → List Char → Prop where
  | nil : Lines tail [] tail
  | empty {es : List (String × String)} {last cs : List Char} (hlast : Break cs last)
      (h : Lines tail es cs) : Lines tail es (last ++ cs)
  | cons {key text : String} {es : List (String × String)} {line last cs : List Char}
      (hline : Line key text line) (hlast : Break cs last) (h : Lines tail es cs) :
      Lines tail ((key, text) :: es) (line ++ (last ++ cs))

variable {p : Char → Bool} {key text : String} {c : Char} {es : List (String × String)}
variable {cs rest tail lead name before comment last next line : List Char}

theorem dropWhile_self (h : ∀ c ∈ cs.head?, p c = false) : cs.dropWhile p = cs := by
  cases cs with
  | nil => rfl
  | cons c cs => exact List.dropWhile_cons_of_neg (Bool.eq_false_iff.mp (h c rfl))

theorem takeWhile_nil (h : ∀ c ∈ cs.head?, p c = false) : cs.takeWhile p = [] := by
  cases cs with
  | nil => rfl
  | cons c cs => exact List.takeWhile_cons_of_neg (Bool.eq_false_iff.mp (h c rfl))

theorem skipSpaces_blank (h : Blank lead) (cs : List Char) : skipSpaces (lead ++ cs) = skipSpaces cs :=
  List.dropWhile_append_of_pos h

def Starts (c : Char) : Prop :=
  isBareKeyChar c = true ∨ c = '"' ∨ c = '\''

theorem Starts.ne {d : Char} (h : Starts c) (hbare : isBareKeyChar d = false) (hdouble : d ≠ '"')
    (hsingle : d ≠ '\'') : c ≠ d := by
  rintro rfl
  rcases h with h | h | h
  · cases h.symm.trans hbare
  · exact hdouble h
  · exact hsingle h

theorem simpleKey_cons (c : Char) (cs : List Char) :
    simpleKey (c :: cs) = if c = '"' ∨ c = '\'' then lineText c (c :: cs) else bareKey (c :: cs) :=
  rfl

theorem starts_of_simpleKey (h : simpleKey cs = some (key, rest)) : ∃ c cs', cs = c :: cs' ∧ Starts c := by
  cases cs with
  | nil => cases h
  | cons c cs =>
      refine ⟨c, cs, rfl, ?_⟩
      rw [simpleKey_cons] at h
      split at h
      · rename_i hquote
        exact .inr hquote
      · refine .inl (Decidable.byContradiction fun hbare => ?_)
        have hnone : bareKey (c :: cs) = none := if_pos (List.takeWhile_cons_of_neg hbare)
        cases hnone.symm.trans h

theorem Starts.skipSpaces (h : Starts c) (cs : List Char) : Toml.skipSpaces (c :: cs) = c :: cs :=
  List.dropWhile_cons_of_neg (by
    simp [isSpace, h.ne (d := ' ') (by decide) (by decide) (by decide),
      h.ne (d := '\t') (by decide) (by decide) (by decide)])

theorem skipSpaces_of_simpleKey (h : simpleKey cs = some (key, rest)) : skipSpaces cs = cs := by
  obtain ⟨c, cs', rfl, hc⟩ := starts_of_simpleKey h
  exact hc.skipSpaces cs'

theorem afterStatement_none (hskip : skipSpaces cs = c :: rest) (hc : Starts c) : afterStatement cs = none := by
  have hcomment : skipComment (c :: rest) = c :: rest :=
    if_neg (hc.ne (by decide) (by decide) (by decide))
  unfold afterStatement
  rw [hskip, hcomment]
  unfold lineEnd
  dsimp only
  rw [if_neg (hc.ne (by decide) (by decide) (by decide)),
    if_neg fun h => hc.ne (by decide) (by decide) (by decide) h.1]

theorem statement_entry (h : simpleKey (skipSpaces cs) = some (key, rest)) :
    statement cs = entry (skipSpaces cs) := by
  obtain ⟨c, cs', hskip, hc⟩ := starts_of_simpleKey h
  have hopen : given '[' (skipSpaces cs) = none := by
    rw [hskip]
    exact given_other (hc.ne (by decide) (by decide) (by decide)) cs'
  unfold statement
  rw [afterStatement_none hskip hc]
  dsimp only
  rw [hopen]

theorem dottedKey_single {n : Nat} (h : simpleKey cs = some (key, rest))
    (hrest : given '.' (skipSpaces rest) = none) : dottedKey (n + 1) cs = some (([], key), rest) := by
  unfold dottedKey
  simp [h, hrest]

theorem length_of_simpleKey (h : simpleKey cs = some (key, rest)) : ∃ n, cs.length = n + 1 := by
  obtain ⟨c, cs', rfl, -⟩ := starts_of_simpleKey h
  exact ⟨cs'.length, rfl⟩

theorem statement_single (h : simpleKey (skipSpaces cs) = some (key, rest))
    (htail : skipSpaces rest = '=' :: tail) :
    statement cs = (value (skipSpaces cs).length (skipSpaces tail)).bind fun (v, rest) =>
      (afterStatement rest).map fun ((), rest) => (.entry [] key v, rest) := by
  obtain ⟨n, hn⟩ := length_of_simpleKey h
  have hdot : given '.' (skipSpaces rest) = none := by
    rw [htail]
    exact given_other (by decide) tail
  have hequals : given '=' (skipSpaces rest) = some ((), tail) := by
    rw [htail]
    exact given_self '=' tail
  have hkey : dottedKey (skipSpaces cs).length (skipSpaces cs) = some (([], key), rest) := by
    rw [hn]
    exact dottedKey_single h hdot
  rw [statement_entry h]
  unfold entry
  simp only [hkey, hequals, Option.bind_eq_bind, Option.bind_some]
  refine congrArg _ (funext fun read => ?_)
  cases afterStatement read.2 <;> rfl

theorem Names.simpleKey (h : Names key name) (hrest : ∀ c ∈ rest.head?, isBareKeyChar c = false) :
    Toml.simpleKey (name ++ rest) = some (key, rest) := by
  cases h with
  | quoted h =>
      rw [List.cons_append, List.append_assoc, simpleKey_cons, if_pos (.inl rfl), List.singleton_append,
        lineText_written h, String.ofList_toList]
  | bare hne hbare =>
      have hread : bareKey (key.toList ++ rest) = some (key, rest) := by
        unfold bareKey
        dsimp only
        rw [List.takeWhile_append_of_pos hbare, List.dropWhile_append_of_pos hbare, takeWhile_nil hrest,
          dropWhile_self hrest, List.append_nil, if_neg hne, String.ofList_toList]
      obtain ⟨c, cs, hcs⟩ := List.exists_cons_of_ne_nil hne
      have hc : isBareKeyChar c = true := hbare c (hcs ▸ List.mem_cons_self)
      have hunquoted : ¬ (c = '"' ∨ c = '\'') := by
        rintro (rfl | rfl) <;> cases hc
      rw [← hread, hcs, List.cons_append, simpleKey_cons, if_neg hunquoted]

theorem LineEnd.head (h : LineEnd next last) : ∀ c ∈ (last ++ next).head?, c = '\n' ∨ c = '\r' := by
  cases h with
  | feed => rintro c ⟨⟩; exact .inl rfl
  | carriage => rintro c ⟨⟩; exact .inr rfl
  | missing h => subst h; rintro c ⟨⟩

theorem LineEnd.lineEnd (h : LineEnd next last) : Toml.lineEnd (last ++ next) = some ((), next) := by
  cases h with
  | feed => rfl
  | carriage => rfl
  | missing h => subst h; rfl

theorem Comment.head (h : Comment comment) (hlast : LineEnd next last) :
    ∀ c ∈ (comment ++ (last ++ next)).head?, c = '#' ∨ c = '\n' ∨ c = '\r' := by
  cases h with
  | missing => exact fun c hc => .inr (hlast.head c hc)
  | given h => rintro c ⟨⟩; exact .inl rfl

theorem Comment.skipComment (h : Comment comment) (hlast : LineEnd next last) :
    Toml.skipComment (comment ++ (last ++ next)) = last ++ next := by
  cases h with
  | missing =>
      rw [List.nil_append]
      cases hcs : last ++ next with
      | nil => rfl
      | cons c cs =>
          have hc := hlast.head c (by rw [hcs]; rfl)
          exact if_neg (by rintro rfl; revert hc; decide)
  | given h =>
      change ((_ ++ (last ++ next)).dropWhile isContent) = _
      rw [List.dropWhile_append_of_pos h]
      refine dropWhile_self fun c hc => ?_
      rcases hlast.head c hc with rfl | rfl <;> decide

theorem Break.afterStatement (h : Break next last) : Toml.afterStatement (last ++ next) = some ((), next) := by
  cases h with
  | intro hblank hcomment hlast =>
      have hspaces : ∀ c ∈ (_ ++ (_ ++ next)).head?, isSpace c = false := fun c hc => by
        rcases hcomment.head hlast c hc with rfl | rfl | rfl <;> decide
      unfold Toml.afterStatement
      rw [List.append_assoc, List.append_assoc, skipSpaces_blank hblank]
      unfold skipSpaces
      rw [dropWhile_self hspaces, hcomment.skipComment hlast, hlast.lineEnd]

theorem Blank.head (h : Blank before) : ∀ c ∈ (before ++ '=' :: tail).head?, isBareKeyChar c = false := by
  cases before with
  | nil => rintro c ⟨⟩; decide
  | cons b before =>
      rintro c ⟨⟩
      have hspace := h b List.mem_cons_self
      simp only [isSpace, Bool.or_eq_true, beq_iff_eq] at hspace
      rcases hspace with rfl | rfl <;> decide

theorem Break.head_ne (h : Break next last) : (last ++ next).head? ≠ some '"' := by
  cases h with
  | @intro blank comment last hblank hcomment hlast =>
      rw [List.append_assoc, List.append_assoc]
      cases blank with
      | nil =>
          intro hquote
          have := hcomment.head hlast '"' hquote
          revert this
          decide
      | cons b blank =>
          rintro ⟨⟩
          cases hblank '"' List.mem_cons_self

theorem value_quoted (n : Nat) (cs : List Char) :
    value (n + 1) ('"' :: cs) = (quotedText '"' ('"' :: cs)).map fun (s, rest) => (.text s, rest) := by
  rw [value]
  exact if_pos (Or.inl rfl)

def written (e : String × String) : Statement :=
  .entry [] e.1 (.text e.2)

theorem Names.starts (hname : Names key name) (hlead : Blank lead) (hbefore : Blank before)
    (tail : List Char) :
    Toml.simpleKey (name ++ (before ++ '=' :: tail)) = some (key, before ++ '=' :: tail) ∧
      skipSpaces (lead ++ (name ++ (before ++ '=' :: tail))) = name ++ (before ++ '=' :: tail) ∧
      skipSpaces (before ++ '=' :: tail) = '=' :: tail := by
  have hkey : Toml.simpleKey (name ++ (before ++ '=' :: tail)) = some (key, before ++ '=' :: tail) :=
    hname.simpleKey hbefore.head
  exact ⟨hkey, (skipSpaces_blank hlead _).trans (skipSpaces_of_simpleKey hkey), skipSpaces_blank hbefore _⟩

theorem statement_named (hlead : Blank lead) (hname : Names key name) (hbefore : Blank before)
    (tail : List Char) :
    ∃ n, tail.length ≤ n ∧ statement (lead ++ (name ++ (before ++ '=' :: tail))) =
      (value (n + 1) (skipSpaces tail)).bind fun (v, rest) =>
        (afterStatement rest).map fun ((), rest) => (.entry [] key v, rest) := by
  obtain ⟨hkey, hstart, hequals⟩ := hname.starts hlead hbefore tail
  have hlength : (name ++ (before ++ '=' :: tail)).length = (name ++ before).length + tail.length + 1 := by
    simp only [List.length_append, List.length_cons, Nat.add_assoc]
  refine ⟨(name ++ before).length + tail.length, Nat.le_add_left _ _, ?_⟩
  rw [statement_single (hstart.symm ▸ hkey) hequals, hstart, hlength]

theorem Line.statement (h : Line key text line) (hlast : Break next last) :
    Toml.statement (line ++ (last ++ next)) = some (written (key, text), next) := by
  cases h with
  | @intro lead name before after body hlead hname hbefore hafter hbody =>
      have hline : lead ++ (name ++ (before ++ '=' :: (after ++ '"' :: (body ++ ['"'])))) ++ (last ++ next) =
          lead ++ (name ++ (before ++ '=' :: (after ++ '"' :: (body ++ '"' :: (last ++ next))))) := by
        simp
      have htext : skipSpaces (after ++ '"' :: (body ++ '"' :: (last ++ next))) =
          '"' :: (body ++ '"' :: (last ++ next)) := skipSpaces_blank hafter _
      obtain ⟨n, -, hn⟩ :=
        statement_named hlead hname hbefore (after ++ '"' :: (body ++ '"' :: (last ++ next)))
      rw [hline, hn, htext, value_quoted, quotedText_written hbody hlast.head_ne, String.ofList_toList]
      simp only [Option.map_some, Option.bind_some, hlast.afterStatement]
      rfl

def Begins (cs : List Char) (ss : List Statement) (tail : List Char) : Prop :=
  ∀ n, cs.length ≤ n → ∃ m, tail.length ≤ m ∧ statements n cs = (statements m tail).map (ss ++ ·)

theorem begins_self (cs : List Char) : Begins cs [] cs :=
  fun n hn => ⟨n, hn, by simp⟩

theorem Begins.cons {s : Statement} {ss : List Statement} (hs : Toml.statement cs = some (s, rest))
    (hlength : rest.length < cs.length) (h : Begins rest ss tail) : Begins cs (s :: ss) tail := by
  intro n hn
  obtain ⟨n, rfl⟩ : ∃ m, n = m + 1 := ⟨n - 1, by omega⟩
  obtain ⟨m, hm, hrest⟩ := h n (by omega)
  refine ⟨m, hm, ?_⟩
  cases cs with
  | nil => cases hlength
  | cons c cs =>
      conv => lhs; unfold statements
      simp only [hs, hrest, Option.bind_eq_bind, Option.bind_some]
      cases statements m tail <;> rfl

theorem applyAll_append (place : Place) (ss ts : List Statement) :
    applyAll place (ss ++ ts) = (applyAll place ss).bind fun place => applyAll place ts := by
  induction ss generalizing place with
  | nil => rfl
  | cons s ss ih =>
      change (apply place s).bind _ = ((apply place s).bind _).bind _
      cases apply place s with
      | none => rfl
      | some place => exact ih place

theorem Break.statement (h : Break next last) : Toml.statement (last ++ next) = some (.nothing, next) := by
  unfold Toml.statement
  rw [h.afterStatement]

theorem Line.length_pos (h : Line key text line) : 0 < line.length := by
  cases h with
  | intro =>
      simp only [List.length_append, List.length_cons]
      omega

theorem Lines.begins (h : Lines tail es cs) :
    ∃ ss, Begins cs ss tail ∧ ∀ place, applyAll place ss = applyAll place (es.map written) := by
  induction h with
  | nil => exact ⟨[], begins_self tail, fun _ => rfl⟩
  | @empty es last cs hlast h ih =>
      obtain ⟨ss, hbegins, happly⟩ := ih
      cases last with
      | nil => exact ⟨ss, hbegins, happly⟩ -- The document ends here, so there is no statement either.
      | cons c last =>
          have hlength : cs.length < (c :: last ++ cs).length := by
            simp only [List.length_append, List.length_cons]
            omega
          exact ⟨.nothing :: ss, hbegins.cons hlast.statement hlength, happly⟩
  | @cons key text es line last cs hline hlast h ih =>
      obtain ⟨ss, hbegins, happly⟩ := ih
      have hlength : cs.length < (line ++ (last ++ cs)).length := by
        have := hline.length_pos
        simp only [List.length_append]
        omega
      refine ⟨written (key, text) :: ss, hbegins.cons (hline.statement hlast) hlength, fun place => ?_⟩
      exact congrArg (apply place (written (key, text))).bind (funext happly)

theorem statement_mark (cs : List Char) : statement ('\ufeff' :: cs) = none :=
  rfl

theorem withoutMark_of_statement {read : Statement × List Char} (h : statement cs = some read) :
    withoutMark cs = cs := by
  cases cs with
  | nil => rfl
  | cons c cs =>
      refine if_neg ?_
      rintro rfl
      cases (statement_mark cs).symm.trans h

theorem Lines.withoutMark (h : Lines tail es cs) (htail : Toml.withoutMark tail = tail) :
    Toml.withoutMark cs = cs := by
  induction h with
  | nil => exact htail
  | @empty es last cs hlast h ih => exact withoutMark_of_statement hlast.statement
  | @cons key text es line last cs hline hlast h ih => exact withoutMark_of_statement (hline.statement hlast)

def blankPlace : Place :=
  ⟨[], .table .heading []⟩

def Place.entries? (place : Place) : Option Entries :=
  match place.whole with
  | .table _ es => some es
  | _ => none

/-- A document is what its lines and the statements of its tail come to. -/
theorem document?_lines (h : Lines tail es cs) (htail : withoutMark tail = tail) :
    ∃ m, tail.length ≤ m ∧ document? (String.ofList cs) = (statements m tail).bind fun ss =>
      (applyAll blankPlace (es.map written ++ ss)).bind Place.entries? := by
  obtain ⟨ss, hbegins, happly⟩ := h.begins
  obtain ⟨m, hm, hread⟩ := hbegins cs.length (Nat.le_refl _)
  refine ⟨m, hm, ?_⟩
  unfold document?
  rw [String.toList_ofList, h.withoutMark htail]
  dsimp only
  rw [hread]
  cases statements m tail with
  | none => rfl
  | some ts =>
      simp only [Option.map_some, Option.bind_eq_bind, Option.bind_some]
      rw [applyAll_append, happly, ← applyAll_append]
      rfl

def texts (es : List (String × String)) : Entries :=
  es.map fun e => (e.1, .text e.2)

theorem get?_none {es : Entries} (h : key ∉ es.map Prod.fst) : Entries.get? es key = none :=
  List.lookup_eq_none_iff.mpr fun _ he =>
    bne_iff_ne.mpr fun hkey => h (hkey ▸ List.mem_map_of_mem he)

theorem keys_texts (es : List (String × String)) : (texts es).map Prod.fst = es.map Prod.fst := by
  unfold texts
  rw [List.map_map]
  rfl

theorem get?_texts_none {es : List (String × String)} (h : key ∉ es.map Prod.fst) :
    Entries.get? (texts es) key = none :=
  get?_none (keys_texts es ▸ h)

theorem apply_entry (whole v : Value) :
    apply ⟨[], whole⟩ (.entry [] key v) = (Value.addEntry key v whole).map fun whole => ⟨[], whole⟩ := by
  simp [apply, Value.within, Value.assign]

theorem apply_new {o : TableOrigin} {base : Entries} (h : key ∉ base.map Prod.fst) (v : Value) :
    apply ⟨[], .table o base⟩ (.entry [] key v) = some ⟨[], .table o (base ++ [(key, v)])⟩ := by
  rw [apply_entry]
  unfold Value.addEntry
  dsimp only
  rw [get?_none h]
  rfl

theorem applyAll_written {o : TableOrigin} (base : Entries)
    (h : (base.map Prod.fst ++ es.map Prod.fst).Nodup) :
    applyAll ⟨[], .table o base⟩ (es.map written) = some ⟨[], .table o (base ++ texts es)⟩ := by
  induction es generalizing base with
  | nil =>
      rw [show texts [] = [] from rfl, List.append_nil]
      rfl
  | cons e es ih =>
      have hnew : e.1 ∉ base.map Prod.fst := fun hmem =>
        (List.nodup_append.mp h).2.2 _ hmem _ List.mem_cons_self rfl
      have hnext := ih (base ++ [(e.1, .text e.2)]) (by simpa using h)
      change (apply _ (.entry [] e.1 (.text e.2))).bind _ = _
      rw [apply_new hnew, Option.bind_some, hnext, List.append_assoc]
      rfl

theorem document?_of_lines (h : Lines [] es cs) (hkeys : (es.map Prod.fst).Nodup) :
    document? (String.ofList cs) = some (texts es) := by
  obtain ⟨m, -, hread⟩ := document?_lines h rfl
  have happly : applyAll blankPlace (es.map written) = some ⟨[], .table .heading (texts es)⟩ :=
    applyAll_written [] hkeys
  have hend : statements m [] = some [] := by cases m <;> rfl
  rw [hread, hend, Option.bind_some, List.append_nil, happly]
  rfl

theorem exists_lines (es : List (String × String)) (tail : List Char) : ∃ cs, Lines tail es cs := by
  induction es with
  | nil => exact ⟨tail, .nil⟩
  | cons e es ih =>
      obtain ⟨cs, hcs⟩ := ih
      have hblank : Blank [] := fun c hc => by cases hc
      have hname : Names e.1 _ := .quoted (written_escape e.1.toList)
      have hline : Line e.1 e.2 _ := .intro hblank hname hblank hblank (written_escape e.2.toList)
      exact ⟨_, .cons hline (.intro hblank .missing .feed) hcs⟩

end DnsOverStreams.Toml
