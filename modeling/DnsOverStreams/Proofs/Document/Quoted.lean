import DnsOverStreams.Document.Toml
import DnsOverStreams.Proofs.Text.Number
/-!
Texts between double quotes, on one line. A character stands for itself or is escaped, in any of the ways that
there are for it, and every text can be written so.
-/

namespace DnsOverStreams.Toml

open Reader

def Codes (length : Nat) (code : List Char) (c : Char) : Prop :=
  code.length = length ∧ ∃ ds, Spells 16 code ds ∧ valueOf 16 ds = c.toNat

/-- How a text can be written between double quotes. -/
inductive Written : List Char → List Char → Prop where
  | nil : Written [] []
  | plain {c : Char} {text cs : List Char} (hc : isContent c = true) (hquote : c ≠ '"')
      (hescape : c ≠ '\\') (h : Written text cs) : Written (c :: text) (c :: cs)
  | escaped {c e : Char} {text cs : List Char} (he : escaped? e = some c) (h : Written text cs) :
      Written (c :: text) ('\\' :: e :: cs)
  | short {c : Char} {code text cs : List Char} (hcode : Codes 4 code c) (h : Written text cs) :
      Written (c :: text) ('\\' :: 'u' :: (code ++ cs))
  | long {c : Char} {code text cs : List Char} (hcode : Codes 8 code c) (h : Written text cs) :
      Written (c :: text) ('\\' :: 'U' :: (code ++ cs))

variable {c : Char} {text cs rest acc : List Char} {q : Quoting}

theorem quotedFrom_more {begun next : Begun} {acc' : List Char}
    (h : quotedChar q acc c begun = some (.more next acc')) :
    quotedFrom q begun acc (c :: cs) = quotedFrom q next acc' cs := by
  rw [quotedFrom, h]

theorem scalar?_toNat (c : Char) : scalar? c.toNat = some c := by
  have hvalid : c.toNat.isValidChar := c.valid
  unfold scalar?
  rw [if_pos hvalid, Char.ofNat_toNat]

theorem codeChar_last {value d : Nat} {e : Char} (he : digit? 16 e = some d)
    (hvalue : value * 16 + d = c.toNat) : codeChar 1 value acc e = some (.more .nothing (c :: acc)) := by
  unfold codeChar
  simp [he, hvalue, scalar?_toNat]

theorem codeChar_more {missing value d : Nat} {e : Char} (he : digit? 16 e = some d) :
    codeChar (missing + 2) value acc e = some (.more (.code (missing + 1) (value * 16 + d)) acc) := by
  unfold codeChar
  simp [he]

theorem quotedFrom_code {code : List Char} {ds : List Nat} {value : Nat} (hne : code ≠ [])
    (hds : Spells 16 code ds) (hvalue : ds.foldl (fun n d => n * 16 + d) value = c.toNat) :
    quotedFrom q (.code code.length value) acc (code ++ rest) =
      quotedFrom q .nothing (c :: acc) rest := by
  induction code generalizing ds value with
  | nil => exact absurd rfl hne
  | cons e code ih =>
      obtain ⟨d, ds, rfl, he, hds⟩ := List.map_eq_cons_iff.mp hds.symm
      cases code with
      | nil =>
          cases List.map_eq_nil_iff.mp hds
          exact quotedFrom_more (codeChar_last he.symm hvalue)
      | cons f code =>
          have hmore : quotedChar q acc e (.code (code.length + 2) value) =
              some (.more (.code (code.length + 1) (value * 16 + d)) acc) := codeChar_more he.symm
          exact (quotedFrom_more hmore).trans (ih (List.cons_ne_nil _ _) hds.symm hvalue)

def double : Quoting := ⟨'"', false⟩

theorem quotedFrom_plain (hc : isContent c = true) (hquote : c ≠ '"') (hescape : c ≠ '\\') :
    quotedFrom double .nothing acc (c :: cs) = quotedFrom double .nothing (c :: acc) cs := by
  have hplain : plainChar double acc c = some (.more .nothing (c :: acc)) := by
    simp [plainChar, double, hc, hquote, hescape]
  exact quotedFrom_more hplain

theorem quotedFrom_escape {e : Char} {next : Begun} {acc' : List Char}
    (h : escapeChar double acc e = some (.more next acc')) :
    quotedFrom double .nothing acc ('\\' :: e :: cs) = quotedFrom double next acc' cs := by
  have hopened : quotedChar double acc '\\' .nothing = some (.more .escape acc) := rfl
  have hescaped : quotedChar double acc e .escape = some (.more next acc') := h
  rw [quotedFrom_more hopened, quotedFrom_more hescaped]

theorem quotedFrom_codes {length : Nat} {code : List Char} {e : Char} (hlength : 0 < length)
    (hcode : Codes length code c)
    (he : escapeChar double acc e = some (.more (.code length 0) acc)) :
    quotedFrom double .nothing acc ('\\' :: e :: (code ++ rest)) =
      quotedFrom double .nothing (c :: acc) rest := by
  obtain ⟨rfl, ds, hds, hvalue⟩ := hcode
  rw [quotedFrom_escape he]
  exact quotedFrom_code (List.ne_nil_of_length_pos hlength) hds hvalue

theorem quotedFrom_written (h : Written text cs) (acc rest : List Char) :
    quotedFrom double .nothing acc (cs ++ '"' :: rest) =
      some (String.ofList (acc.reverse ++ text), rest) := by
  induction h generalizing acc with
  | nil =>
      rw [List.append_nil]
      rfl
  | @plain c text cs hc hquote hescape h ih =>
      rw [List.cons_append, quotedFrom_plain hc hquote hescape, ih]
      simp
  | @escaped c e text cs he h ih =>
      have hmore : escapeChar double acc e = some (.more .nothing (c :: acc)) := by
        unfold escapeChar
        rw [he]
      rw [List.cons_append, List.cons_append, quotedFrom_escape hmore, ih]
      simp
  | @short c code text cs hcode h ih =>
      rw [List.cons_append, List.cons_append, List.append_assoc,
        quotedFrom_codes (by decide) hcode rfl, ih]
      simp
  | @long c code text cs hcode h ih =>
      rw [List.cons_append, List.cons_append, List.append_assoc,
        quotedFrom_codes (by decide) hcode rfl, ih]
      simp

theorem lineText_written (h : Written text cs) (rest : List Char) :
    lineText '"' ('"' :: (cs ++ '"' :: rest)) = some (String.ofList text, rest) := by
  unfold lineText
  rw [given_self]
  exact quotedFrom_written h [] rest

theorem Written.head_ne (h : Written text (c :: cs)) : c ≠ '"' := by
  cases h with
  | plain hc hquote hescape h => exact hquote
  | escaped => decide
  | short => decide
  | long => decide

/-- Behind an empty text no third quote may come. -/
theorem quotedText_written (h : Written text cs) (hrest : rest.head? ≠ some '"') :
    quotedText '"' ('"' :: (cs ++ '"' :: rest)) = some (String.ofList text, rest) := by
  have hline : ('"' :: (cs ++ '"' :: rest)).take 3 ≠ List.replicate 3 '"' := by
    cases cs with
    | cons c cs => simp [List.replicate, h.head_ne]
    | nil =>
        cases rest with
        | nil => decide
        | cons d rest => simpa [List.replicate] using hrest
  unfold quotedText
  rw [if_neg hline]
  exact lineText_written h rest

def escape (c : Char) : List Char :=
  if c = '"' ∨ c = '\\' then ['\\', c]
  else if isContent c then [c]
  else ['\\', 'u', '0', '0', Nat.digitChar (c.toNat / 16), Nat.digitChar (c.toNat % 16)]

theorem codes_control (hc : isContent c = false) :
    Codes 4 ['0', '0', Nat.digitChar (c.toNat / 16), Nat.digitChar (c.toNat % 16)] c := by
  have hsmall : c.toNat < 128 := by
    simp only [isContent, Bool.or_eq_false_iff, Bool.and_eq_false_imp, decide_eq_true_eq, bne_eq_false_iff_eq] at hc
    rcases Nat.lt_or_ge c.toNat 32 with hlt | hge
    · omega
    · rw [hc.2 hge]
      decide
  refine ⟨rfl, [0, 0, c.toNat / 16, c.toNat % 16], ?_, ?_⟩
  · unfold Spells
    simp only [List.map_cons, List.map_nil]
    rw [digit?_digitChar (by omega) (Nat.le_refl 16), digit?_digitChar (by omega) (Nat.le_refl 16)]
    rfl
  · simp only [valueOf, List.foldl_cons, List.foldl_nil]
    omega

theorem written_escape (text : List Char) : Written text (text.flatMap escape) := by
  induction text with
  | nil => exact .nil
  | cons c text ih =>
      rw [List.flatMap_cons]
      unfold escape
      split
      · rename_i hc
        refine .escaped ?_ ih
        rcases hc with rfl | rfl <;> rfl
      · rename_i hc
        obtain ⟨hquote, hescape⟩ := not_or.mp hc
        split
        · rename_i hcontent
          exact .plain hcontent hquote hescape ih
        · rename_i hcontent
          exact .short (codes_control (Bool.eq_false_iff.mpr hcontent)) ih

end DnsOverStreams.Toml
