import DnsOverStreams.Document.Basic
import DnsOverStreams.Text.Reader
/-!
Documents in TOML, as far as settings need it: values are texts, lists and tables. Numbers, dates and
truth values, of which no setting takes any, are refused, and so are lists of tables under headings.
-/

namespace DnsOverStreams.Toml

def isSpace (c : Char) : Bool :=
  c == ' ' || c == '\t'

def isContent (c : Char) : Bool :=
  c == '\t' || (' ' ≤ c && c != '\x7f')

def isBareKeyChar (c : Char) : Bool :=
  c.isAlphanum || c == '_' || c == '-'

/-- How a text is quoted: with which quotes, one or three on either side. Within double quotes a
backslash escapes; within three quotes lines may end. -/
structure Quoting where
  quote : Char
  tripled : Bool
  deriving DecidableEq, Repr

namespace Quoting

def escapes (q : Quoting) : Bool :=
  q.quote == '"'

end Quoting

inductive Begun where
  | nothing
  | escape
  | code (missing value : Nat)
  | lineEnd
  | quotes (count : Nat)
  | continuation (feed : Bool)
  | skipping (feed : Bool)
  deriving DecidableEq, Repr

/-- What a character of a quoted text does, the characters of the text so far being given latest first:
the text goes on, it ends with the character, or it ended before it. -/
inductive Quoted where
  | more (begun : Begun) (text : List Char)
  | last (text : List Char)
  | past (text : List Char)
  deriving DecidableEq, Repr

def escaped? (c : Char) : Option Char :=
  if c = 'b' then some '\x08'
  else if c = 't' then some '\t'
  else if c = 'n' then some '\n'
  else if c = 'f' then some '\x0c'
  else if c = 'r' then some '\r'
  else if c = '"' then some '"'
  else if c = '\\' then some '\\'
  else none

def scalar? (n : Nat) : Option Char :=
  if n.isValidChar then some (Char.ofNat n) else none

def plainChar (q : Quoting) (text : List Char) (c : Char) : Option Quoted :=
  if c = q.quote then some (if q.tripled then .more (.quotes 1) text else .last text)
  else if c = '\\' ∧ q.escapes then some (.more .escape text)
  else if c = '\n' ∧ q.tripled then some (.more .nothing ('\n' :: text))
  else if c = '\r' ∧ q.tripled then some (.more .lineEnd text)
  else if isContent c then some (.more .nothing (c :: text))
  else none

def escapeChar (q : Quoting) (text : List Char) (c : Char) : Option Quoted :=
  match escaped? c with
  | some e => some (.more .nothing (e :: text))
  | none =>
      if c = 'u' then some (.more (.code 4 0) text)
      else if c = 'U' then some (.more (.code 8 0) text)
      else if !q.tripled then none
      else if isSpace c then some (.more (.continuation false) text)
      else if c = '\n' then some (.more (.skipping false) text)
      else if c = '\r' then some (.more (.continuation true) text)
      else none

def codeChar (missing value : Nat) (text : List Char) (c : Char) : Option Quoted := do
  let d ← Reader.digit? 16 c
  let n := value * 16 + d
  if missing ≤ 1 then do
    let e ← scalar? n
    some (.more .nothing (e :: text))
  else some (.more (.code (missing - 1) n) text)

/-- So many quotes in a row, of which three end the text. Up to two before them belong to it. -/
def quotesChar (q : Quoting) (count : Nat) (text : List Char) (c : Char) : Option Quoted :=
  if c = q.quote then
    if count = 4 then some (.last (List.replicate 2 q.quote ++ text))
    else some (.more (.quotes (count + 1)) text)
  else if 3 ≤ count then some (.past (List.replicate (count - 3) q.quote ++ text))
  else plainChar q (List.replicate count q.quote ++ text) c

/-- Blanks behind a backslash, after which the line must end. -/
def continuationChar (feed : Bool) (text : List Char) (c : Char) : Option Quoted :=
  if c = '\n' then some (.more (.skipping false) text)
  else if feed then none
  else if isSpace c then some (.more (.continuation false) text)
  else if c = '\r' then some (.more (.continuation true) text)
  else none

/-- Blanks and line ends that a backslash at the end of a line leaves out. -/
def skippingChar (q : Quoting) (feed : Bool) (text : List Char) (c : Char) : Option Quoted :=
  if c = '\n' then some (.more (.skipping false) text)
  else if feed then none
  else if isSpace c then some (.more (.skipping false) text)
  else if c = '\r' then some (.more (.skipping true) text)
  else plainChar q text c

def quotedChar (q : Quoting) (text : List Char) (c : Char) : Begun → Option Quoted
  | .nothing => plainChar q text c
  | .escape => escapeChar q text c
  | .code missing value => codeChar missing value text c
  | .lineEnd => if c = '\n' then some (.more .nothing ('\n' :: text)) else none
  | .quotes count => quotesChar q count text c
  | .continuation feed => continuationChar feed text c
  | .skipping feed => skippingChar q feed text c

def quotedFrom (q : Quoting) : Begun → List Char → Reader String
  | .quotes count, text, [] =>
      if 3 ≤ count then
        some (String.ofList (List.replicate (count - 3) q.quote ++ text).reverse, [])
      else none
  | _, _, [] => none
  | begun, text, c :: cs =>
      match quotedChar q text c begun with
      | some (.more begun text) => quotedFrom q begun text cs
      | some (.last text) => some (String.ofList text.reverse, cs)
      | some (.past text) => some (String.ofList text.reverse, c :: cs)
      | none => none

/-- A line end right behind three quotes does not count. -/
def skipLineEnd : List Char → List Char
  | c :: cs =>
      if c = '\n' then cs
      else if c = '\r' ∧ cs.head? = some '\n' then cs.tail
      else c :: cs
  | [] => []

def lineText (quote : Char) : Reader String := fun cs =>
  match Reader.given quote cs with
  | some ((), rest) => quotedFrom ⟨quote, false⟩ .nothing [] rest
  | none => none

def quotedText (quote : Char) : Reader String := fun cs =>
  if cs.take 3 = List.replicate 3 quote then
    quotedFrom ⟨quote, true⟩ .nothing [] (skipLineEnd (cs.drop 3))
  else lineText quote cs

def skipSpaces (cs : List Char) : List Char :=
  cs.dropWhile isSpace

def bareKey : Reader String := fun cs =>
  let key := cs.takeWhile isBareKeyChar
  if key = [] then none else some (String.ofList key, cs.dropWhile isBareKeyChar)

def simpleKey : Reader String := fun cs =>
  match cs.head? with
  | none => none
  | some c => if c = '"' ∨ c = '\'' then lineText c cs else bareKey cs

/-- A key with dots: the path before the last part, and that part. The number bounds the parts. -/
def dottedKey : Nat → Reader (List String × String)
  | 0, _ => none
  | n + 1, cs => do
      let (key, rest) ← simpleKey cs
      match Reader.given '.' (skipSpaces rest) with
      | some ((), after) => do
          let ((path, last), rest) ← dottedKey n (skipSpaces after)
          some ((key :: path, last), rest)
      | none => some (([], key), rest)

def skipComment (cs : List Char) : List Char :=
  match cs with
  | c :: rest => if c = '#' then rest.dropWhile isContent else c :: rest
  | [] => []

def lineEnd : Reader Unit := fun cs =>
  match cs with
  | [] => some ((), [])
  | c :: rest =>
      if c = '\n' then some ((), rest)
      else if c = '\r' ∧ rest.head? = some '\n' then some ((), rest.tail)
      else none

def skipLines : Nat → List Char → List Char
  | 0, cs => cs
  | n + 1, cs =>
      match skipComment (skipSpaces cs) with
      | [] => []
      | c :: rest =>
          match lineEnd (c :: rest) with
          | some ((), rest) => skipLines n rest
          | none => c :: rest

mutual

/-- A value. The number bounds its depth and length, here and below. -/
def value : Nat → Reader Value
  | 0, _ => none
  | n + 1, cs =>
      match cs with
      | [] => none
      | c :: rest =>
          if c = '"' ∨ c = '\'' then (quotedText c cs).map fun (s, rest) => (.text s, rest)
          else if c = '[' then (items n rest).map fun (vs, rest) => (.list vs, rest)
          else if c = '\x7b' then inlineTable n rest
          else none

def items : Nat → Reader (List Value)
  | 0, _ => none
  | n + 1, cs =>
      let start := skipLines cs.length cs
      match Reader.given ']' start with
      | some ((), rest) => some ([], rest)
      | none => do
          let (v, rest) ← value n start
          let next := skipLines rest.length rest
          match Reader.given ',' next with
          | some ((), rest) => do
              let (vs, rest) ← items n rest
              some (v :: vs, rest)
          | none => do
              let ((), rest) ← Reader.given ']' next
              some ([v], rest)

def inlineTable : Nat → Reader Value
  | 0, _ => none
  | n + 1, cs =>
      match Reader.given '\x7d' (skipSpaces cs) with
      | some ((), rest) => some (.table .closed [], rest)
      | none => inlineEntries n (.table .heading []) cs

def inlineEntries : Nat → Value → Reader Value
  | 0, _, _ => none
  | n + 1, t, cs => do
      let ((path, key), rest) ← dottedKey cs.length (skipSpaces cs)
      let ((), rest) ← Reader.given '=' (skipSpaces rest)
      let (v, rest) ← value n (skipSpaces rest)
      let t ← Value.assign path key v t
      match Reader.given ',' (skipSpaces rest) with
      | some ((), rest) => inlineEntries n t rest
      | none => do
          let ((), rest) ← Reader.given '\x7d' (skipSpaces rest)
          match t with
          | .table _ es => some (.table .closed es, rest)
          | _ => none

end

inductive Statement where
  | nothing
  | heading (path : List String) (key : String)
  | entry (path : List String) (key : String) (v : Value)

def afterStatement : Reader Unit := fun cs =>
  lineEnd (skipComment (skipSpaces cs))

def heading : Reader Statement := fun cs => do
  let ((path, key), rest) ← dottedKey cs.length (skipSpaces cs)
  let ((), rest) ← Reader.given ']' (skipSpaces rest)
  let ((), rest) ← afterStatement rest
  return (.heading path key, rest)

def entry : Reader Statement := fun cs => do
  let ((path, key), rest) ← dottedKey cs.length cs
  let ((), rest) ← Reader.given '=' (skipSpaces rest)
  let (v, rest) ← value cs.length (skipSpaces rest)
  let ((), rest) ← afterStatement rest
  return (.entry path key v, rest)

def statement : Reader Statement := fun cs =>
  match afterStatement cs with
  | some ((), rest) => some (.nothing, rest)
  | none =>
      let start := skipSpaces cs
      match Reader.given '[' start with
      | some ((), rest) => heading rest
      | none => entry start

def statements : Nat → List Char → Option (List Statement)
  | _, [] => some []
  | 0, _ => none
  | n + 1, cs => do
      let (s, rest) ← statement cs
      let ss ← statements n rest
      some (s :: ss)

/-- The table that entries go to, given by its place, within the whole. -/
structure Place where
  path : List String
  whole : Value

def apply (p : Place) : Statement → Option Place
  | .nothing => some p
  | .heading path key =>
      (p.whole.within .implied (Value.openEntry key) path).map fun whole =>
        ⟨path ++ [key], whole⟩
  | .entry path key v =>
      (p.whole.within .implied (Value.assign path key v) p.path).map fun whole =>
        { p with whole := whole }

def applyAll : Place → List Statement → Option Place
  | p, [] => some p
  | p, s :: ss => (apply p s).bind fun p => applyAll p ss

def withoutMark : List Char → List Char
  | c :: cs => if c = '\ufeff' then cs else c :: cs
  | [] => []

def document? (text : String) : Option Entries := do
  let cs := withoutMark text.toList
  let ss ← statements cs.length cs
  let p ← applyAll ⟨[], .table .heading []⟩ ss
  match p.whole with
  | .table _ es => some es
  | _ => none

end DnsOverStreams.Toml
