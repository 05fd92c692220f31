import DnsOverStreams.Proofs.Document.Lines
/-!
What statements do to the keys at the top of a document. A key that is there stays, and so does its value, unless it
is a table that was not written as one value.
-/

namespace DnsOverStreams

variable {es : Entries} {key k : String} {u v : Value}

namespace Entries

theorem get?_cons (e : String × Value) (es : Entries) (k : String) :
    get? (e :: es) k = if k = e.1 then some e.2 else get? es k := by
  unfold get?
  rw [List.lookup_cons]
  by_cases h : k = e.1
  · rw [beq_iff_eq.mpr h, if_pos h]
  · rw [beq_eq_false_iff_ne.mpr h, if_neg h]

theorem get?_append (es : Entries) (key k : String) (v : Value) :
    get? (es ++ [(key, v)]) k = (get? es k).or (if k = key then some v else none) := by
  unfold get?
  rw [List.lookup_append]
  exact congrArg _ (get?_cons (key, v) [] k)

theorem get?_replace (es : Entries) (key k : String) (v : Value) :
    get? (replace es key v) k = if k = key then (get? es k).map fun _ => v else get? es k := by
  induction es with
  | nil => exact (ite_self _).symm
  | cons e es ih =>
      change get? ((if e.1 = key then (key, v) else e) :: replace es key v) k = _
      rw [get?_cons, get?_cons, ih]
      by_cases hk : k = key
      · subst hk
        by_cases he : k = e.1
        · simp [he]
        · simp [he, Ne.symm he]
      · by_cases he : e.1 = key
        · simp [he, hk]
        · simp [he, hk]

end Entries

namespace Value

variable {w w' w'' : Value} {missing : TableOrigin} {change : Value → Option Value} {path : List String}

/-- Nothing can be added to it. -/
def Solid : Value → Prop
  | table origin _ => origin = .closed
  | _ => True

def member? : Value → String → Option Value
  | table _ es, key => Entries.get? es key
  | _, _ => none

/-- The entries stay, the solid ones as they are. -/
def Grows (w w' : Value) : Prop :=
  ∀ k u, w.member? k = some u → ∃ u', w'.member? k = some u' ∧ (u.Solid → u' = u)

theorem Grows.refl (w : Value) : w.Grows w :=
  fun _ u hu => ⟨u, hu, fun _ => rfl⟩

theorem Grows.trans (h : w.Grows w') (h' : w'.Grows w'') : w.Grows w'' := by
  intro k u hu
  obtain ⟨u', hu', hsolid⟩ := h k u hu
  obtain ⟨u'', hu'', hsolid'⟩ := h' k u' hu'
  exact ⟨u'', hu'', fun hs => by cases hsolid hs; exact hsolid' hs⟩

theorem grows_append (o : TableOrigin) (hnone : Entries.get? es key = none) (v : Value) :
    (table o es).Grows (table o (es ++ [(key, v)])) ∧
      (table o (es ++ [(key, v)])).member? key = some v := by
  constructor
  · intro k u hu
    refine ⟨u, ?_, fun _ => rfl⟩
    change Entries.get? es k = some u at hu
    change Entries.get? _ _ = _
    rw [Entries.get?_append, hu]
    rfl
  · change Entries.get? _ _ = _
    rw [Entries.get?_append, hnone, if_pos rfl]
    rfl

theorem grows_replace (o : TableOrigin) (hu : Entries.get? es key = some u) (hsolid : ¬ u.Solid) (v : Value) :
    (table o es).Grows (table o (Entries.replace es key v)) ∧
      (table o (Entries.replace es key v)).member? key = some v := by
  have hkey : Entries.get? (Entries.replace es key v) key = some v := by
    rw [Entries.get?_replace, if_pos rfl, hu]
    rfl
  refine ⟨fun k u' hu' => ?_, hkey⟩
  change Entries.get? es k = some u' at hu'
  change ∃ v', Entries.get? _ _ = _ ∧ _
  by_cases hk : k = key
  · subst k
    cases hu.symm.trans hu'
    exact ⟨v, hkey, fun hs => absurd hs hsolid⟩
  · exact ⟨u', by rw [Entries.get?_replace, if_neg hk, hu'], fun _ => rfl⟩

theorem addEntry_grows (h : addEntry key v w = some w') : w.Grows w' ∧ w'.member? key = some v := by
  unfold addEntry at h
  split at h
  · split at h
    · rename_i hnone
      cases h
      exact grows_append _ hnone v
    · cases h
  · cases h

theorem openEntry_grows (h : openEntry key w = some w') : w.Grows w' ∧ ∃ u, w'.member? key = some u := by
  unfold openEntry at h
  split at h
  · split at h
    · rename_i hnone
      cases h
      exact (grows_append _ hnone _).imp_right fun hkey => ⟨_, hkey⟩
    · rename_i sub hsub
      cases h
      exact (grows_replace _ hsub (by rintro ⟨⟩) _).imp_right fun hkey => ⟨_, hkey⟩
    · cases h
  · cases h

theorem within_cons (h : within missing change (key :: path) w = some w') :
    w.Grows w' ∧ ∃ u, w'.member? key = some u := by
  unfold within at h
  split at h
  · cases ‹_ = []›
  · rename_i key' path' o es hpath
    cases hpath
    split at h
    · rename_i hnone
      obtain ⟨v, -, rfl⟩ := Option.map_eq_some_iff.mp h
      exact (grows_append o hnone v).imp_right fun hkey => ⟨v, hkey⟩
    · cases h
    · rename_i o' sub hopen hsub
      -- The path goes on into this table, which is another one then, but was not solid.
      split at h
      · cases h
      · obtain ⟨v, -, rfl⟩ := Option.map_eq_some_iff.mp h
        exact (grows_replace o hsub hopen v).imp_right fun hkey => ⟨v, hkey⟩
    · cases h
  · cases h

theorem within_nil (missing : TableOrigin) (change : Value → Option Value) (w : Value) :
    within missing change [] w = change w := by
  unfold within
  rfl

theorem assign_grows (h : assign path key v w = some w') :
    w.Grows w' ∧ ∃ u, (path ++ [key]).head?.bind w'.member? = some u := by
  unfold assign at h
  cases path with
  | nil => exact (addEntry_grows h).imp_right fun hkey => ⟨v, hkey⟩
  | cons first path => exact within_cons h

end Value

namespace Toml

open Value

variable {place place' : Place} {s : Statement} {ss : List Statement}

/-- The way from the top to what a statement is about, from the place where it stands. -/
def Statement.way (start : List String) : Statement → List String
  | .nothing => []
  | .heading path key => path ++ [key]
  | .entry path key _ => start ++ (path ++ [key])

theorem apply_grows (h : apply place s = some place') :
    place.whole.Grows place'.whole ∧
      ∀ k ∈ (s.way place.path).head?, ∃ u, place'.whole.member? k = some u := by
  cases s with
  | nothing =>
      cases h
      exact ⟨.refl _, fun k hk => by cases hk⟩
  | heading path key =>
      obtain ⟨whole, hwhole, rfl⟩ := Option.map_eq_some_iff.mp h
      cases path with
      | nil =>
          rw [within_nil] at hwhole
          exact (openEntry_grows hwhole).imp_right fun hkey k hk => by cases hk; exact hkey
      | cons first path => exact (within_cons hwhole).imp_right fun hkey k hk => by cases hk; exact hkey
  | entry path key v =>
      obtain ⟨whole, hwhole, rfl⟩ := Option.map_eq_some_iff.mp h
      obtain ⟨start, top⟩ := place
      cases start with
      | nil =>
          rw [within_nil] at hwhole
          refine (assign_grows hwhole).imp_right fun hkey k hk => ?_
          rw [Statement.way, List.nil_append, Option.mem_def] at hk
          rwa [hk] at hkey
      | cons first start => exact (within_cons hwhole).imp_right fun hkey k hk => by cases hk; exact hkey

theorem applyAll_grows (h : applyAll place ss = some place') : place.whole.Grows place'.whole := by
  induction ss generalizing place with
  | nil =>
      cases h
      exact .refl _
  | cons s ss ih =>
      obtain ⟨next, hnext, hrest⟩ := Option.bind_eq_some_iff.mp h
      exact (apply_grows hnext).1.trans (ih hrest)

variable {es : List (String × String)} {entries : Entries} {cs rest tail start : List Char}

theorem path_written (h : applyAll place (es.map written) = some place') : place'.path = place.path := by
  induction es generalizing place with
  | nil =>
      cases h
      rfl
  | cons e es ih =>
      obtain ⟨next, hnext, hrest⟩ := Option.bind_eq_some_iff.mp h
      obtain ⟨whole, -, rfl⟩ := Option.map_eq_some_iff.mp hnext
      have hpath := ih hrest
      exact hpath

theorem statements_eq_some {n : Nat} (hne : cs ≠ []) (h : statements n cs = some ss) :
    ∃ s rest ss', statement cs = some (s, rest) ∧ ss = s :: ss' := by
  unfold statements at h
  split at h
  · exact absurd rfl hne
  · cases h
  · obtain ⟨⟨s, rest⟩, hs, h⟩ := Option.bind_eq_some_iff.mp h
    obtain ⟨ss', -, h⟩ := Option.bind_eq_some_iff.mp h
    cases h
    exact ⟨s, rest, ss', hs, rfl⟩

theorem document?_tail (h : Lines tail es cs) (hmark : withoutMark tail = tail) (hne : tail ≠ [])
    (hread : document? (String.ofList cs) = some entries) :
    ∃ s rest place top, statement tail = some (s, rest) ∧ apply ⟨[], top⟩ s = some place ∧
      place.whole.Grows (.table .closed entries) := by
  obtain ⟨m, -, hdocument⟩ := document?_lines h hmark
  obtain ⟨ss, hss, hread⟩ := Option.bind_eq_some_iff.mp (hdocument.symm.trans hread)
  obtain ⟨last, hlast, hentries⟩ := Option.bind_eq_some_iff.mp hread
  obtain ⟨s, rest, ss', hs, rfl⟩ := statements_eq_some hne hss
  rw [applyAll_append] at hlast
  obtain ⟨middle, hmiddle, hlast⟩ := Option.bind_eq_some_iff.mp hlast
  obtain ⟨place, hplace, hrest⟩ := Option.bind_eq_some_iff.mp hlast
  have hpath : middle.path = [] := path_written hmiddle
  refine ⟨s, rest, place, middle.whole, hs, hpath ▸ hplace, fun k u hu => ?_⟩
  -- From here on only what the statements after this one do matters, and they let things grow.
  obtain ⟨u', hu', hsolid⟩ := applyAll_grows hrest k u hu
  refine ⟨u', ?_, hsolid⟩
  unfold Place.entries? at hentries
  split at hentries
  · rename_i hwhole
    cases hentries
    rwa [hwhole] at hu'
  · cases hentries

/-- How a statement starts that is about a key at the top, or about something below it. -/
inductive Opens (key : String) (cs : List Char) : Prop where
  | entry {rest : List Char} (h : simpleKey (skipSpaces cs) = some (key, rest)) : Opens key cs
  | heading {inner rest : List Char} (hopen : skipSpaces cs = '[' :: inner)
      (h : simpleKey (skipSpaces inner) = some (key, rest)) : Opens key cs

theorem Opens.ne_nil (h : Opens key cs) : cs ≠ [] := by
  rintro rfl
  cases h with
  | entry h => cases h
  | heading hopen h => cases hopen

theorem Opens.withoutMark (h : Opens key cs) : Toml.withoutMark cs = cs := by
  cases cs with
  | nil => rfl
  | cons c cs =>
      refine if_neg ?_
      rintro rfl
      have hskip : skipSpaces ('\ufeff' :: cs) = '\ufeff' :: cs := rfl
      cases h with
      | entry h => rw [hskip] at h; cases h
      | heading hopen h => rw [hskip] at hopen; cases hopen

theorem head_of_dottedKey {n : Nat} {path : List String} {last : String} {rest' : List Char}
    (h : simpleKey cs = some (key, rest)) (hread : dottedKey n cs = some ((path, last), rest')) :
    (path ++ [last]).head? = some key := by
  cases n with
  | zero => cases hread
  | succ n =>
      unfold dottedKey at hread
      rw [h] at hread
      simp only [Option.bind_eq_bind, Option.bind_some] at hread
      split at hread
      · obtain ⟨⟨⟨path', last'⟩, rest⟩, -, hread⟩ := Option.bind_eq_some_iff.mp hread
        cases hread
        rfl
      · cases hread
        rfl

theorem Opens.way (h : Opens key cs) (hread : statement cs = some (s, rest)) :
    (s.way []).head? = some key := by
  cases h with
  | entry h =>
      rw [statement_entry h] at hread
      unfold Toml.entry at hread
      obtain ⟨⟨⟨path, last⟩, r⟩, hkey, hread⟩ := Option.bind_eq_some_iff.mp hread
      obtain ⟨_, -, hread⟩ := Option.bind_eq_some_iff.mp hread
      obtain ⟨_, -, hread⟩ := Option.bind_eq_some_iff.mp hread
      obtain ⟨_, -, hread⟩ := Option.bind_eq_some_iff.mp hread
      cases hread
      exact head_of_dottedKey h hkey
  | heading hopen h =>
      have hnone : afterStatement cs = none := by
        unfold afterStatement
        rw [hopen]
        rfl
      unfold statement at hread
      rw [hnone] at hread
      dsimp only at hread
      rw [hopen, Reader.given_self] at hread
      dsimp only at hread
      unfold Toml.heading at hread
      obtain ⟨⟨⟨path, last⟩, r⟩, hkey, hread⟩ := Option.bind_eq_some_iff.mp hread
      obtain ⟨_, -, hread⟩ := Option.bind_eq_some_iff.mp hread
      obtain ⟨_, -, hread⟩ := Option.bind_eq_some_iff.mp hread
      cases hread
      exact head_of_dottedKey h hkey

theorem document?_opens (h : Lines tail es cs) (hopens : Opens key tail)
    (hread : document? (String.ofList cs) = some entries) : ∃ u, Entries.get? entries key = some u := by
  obtain ⟨s, rest, place, top, hs, hplace, hgrows⟩ := document?_tail h hopens.withoutMark hopens.ne_nil hread
  obtain ⟨u, hu⟩ := (apply_grows hplace).2 key (hopens.way hs)
  obtain ⟨u', hu', -⟩ := hgrows key u hu
  exact ⟨u', hu'⟩

theorem solid_of_inlineEntries {n : Nat} {t : Value} (h : inlineEntries n t cs = some (v, rest)) : v.Solid := by
  induction n generalizing t cs with
  | zero => simp [inlineEntries] at h
  | succ n ih =>
      rw [inlineEntries] at h
      obtain ⟨⟨⟨path, last⟩, _⟩, -, h⟩ := Option.bind_eq_some_iff.mp h
      obtain ⟨_, -, h⟩ := Option.bind_eq_some_iff.mp h
      obtain ⟨_, -, h⟩ := Option.bind_eq_some_iff.mp h
      obtain ⟨t, -, h⟩ := Option.bind_eq_some_iff.mp h
      split at h
      · exact ih h
      · obtain ⟨_, -, h⟩ := Option.bind_eq_some_iff.mp h
        dsimp only at h
        split at h
        · cases h
          rfl
        · cases h

theorem solid_of_inlineTable {n : Nat} (h : inlineTable n cs = some (v, rest)) : v.Solid := by
  cases n with
  | zero => simp [inlineTable] at h
  | succ n =>
      rw [inlineTable] at h
      split at h
      · cases h
        rfl
      · exact solid_of_inlineEntries h

theorem solid_of_value {n : Nat} (h : value n cs = some (v, rest)) : v.Solid := by
  cases n with
  | zero => simp [value] at h
  | succ n =>
      cases cs with
      | nil => simp [value] at h
      | cons c cs =>
          rw [value] at h
          split at h
          · obtain ⟨_, -, h⟩ := Option.map_eq_some_iff.mp h
            cases h
            trivial
          · split at h
            · obtain ⟨_, -, h⟩ := Option.map_eq_some_iff.mp h
              cases h
              trivial
            · split at h
              · exact solid_of_inlineTable h
              · cases h

theorem document?_assigned (h : Lines tail es cs) (hkey : simpleKey (skipSpaces tail) = some (key, rest))
    (hequals : skipSpaces rest = '=' :: start) (hread : document? (String.ofList cs) = some entries) :
    ∃ v left, value (skipSpaces tail).length (skipSpaces start) = some (v, left) ∧
      Entries.get? entries key = some v := by
  have hopens : Opens key tail := .entry hkey
  obtain ⟨s, rest, place, top, hs, hplace, hgrows⟩ := document?_tail h hopens.withoutMark hopens.ne_nil hread
  rw [statement_single hkey hequals] at hs
  obtain ⟨⟨v, left⟩, hv, hs⟩ := Option.bind_eq_some_iff.mp hs
  obtain ⟨_, -, hs⟩ := Option.map_eq_some_iff.mp hs
  cases hs
  rw [apply_entry] at hplace
  obtain ⟨whole, hwhole, rfl⟩ := Option.map_eq_some_iff.mp hplace
  obtain ⟨u', hu', hsame⟩ := hgrows key v (addEntry_grows hwhole).2
  cases hsame (solid_of_value hv)
  exact ⟨v, left, hv, hu'⟩

end Toml

end DnsOverStreams
