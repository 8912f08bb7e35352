import ToneScript.Yaml.Token

/-!
# Cutting a YAML text into tokens

A key has no indicator in front of it as a rule: that a scalar is a key shows when the
colon behind it is met.  So a scalar is remembered as a candidate, and when the colon
comes, the key token is put in front of it, and the token that begins a block in front of
that.  A candidate has to be on one line and not too long.

Blocks are told by the columns in which their first tokens stand.  Inside of brackets
columns do not matter.

## Main definitions

* `Yaml.Reader` — the state of the token reader.
* `Yaml.tokens?` — the tokens of a text, if it can be cut into tokens.
-/

namespace ToneScript.Yaml

/-- A token that turns out to begin a key if a colon comes behind it. -/
structure Candidate where
  /-- The number of tokens before it. -/
  position : Nat
  /-- Whether nothing but a key can stand here. -/
  required : Bool
  /-- Where it stands. -/
  index : Nat
  /-- The line it stands on. -/
  line : Nat
  /-- The column it stands in. -/
  column : Nat
deriving Repr

/-- The state of the token reader. -/
structure Reader where
  /-- Where the text is to be read on. -/
  place : Place
  /-- The tokens so far. -/
  tokens : Array Token := #[]
  /-- The columns of the blocks around this place, the innermost first. -/
  columns : List Nat := []
  /-- Whether a key may begin here. -/
  keyAllowed : Bool := true
  /-- The candidate outside of all brackets. -/
  candidate : Option Candidate := none
  /-- The candidates inside of the brackets around this place, the innermost first. -/
  inner : List (Option Candidate) := []

namespace Reader

/-- Whether this place is inside of brackets. -/
def isBracketed (r : Reader) : Bool := !r.inner.isEmpty

/-- The candidate of the innermost brackets. -/
def currentCandidate (r : Reader) : Option Candidate :=
  match r.inner with
  | c :: _ => c
  | [] => r.candidate

/-- Replaces the candidate of the innermost brackets. -/
def setCandidate (r : Reader) (c : Option Candidate) : Reader :=
  match r.inner with
  | _ :: inner => { r with inner := c :: inner }
  | [] => { r with candidate := c }

/-- Adds a token. -/
def emit (r : Reader) (t : Token) : Reader := { r with tokens := r.tokens.push t }

/-- Puts a token in front of the one at a position. -/
def insertAt (r : Reader) (n : Nat) (t : Token) : Reader :=
  { r with tokens := (r.tokens.extract 0 n).push t ++ r.tokens.extract n r.tokens.size }

/-- Goes to the place where `rest` is left to read. -/
def moveTo (r : Reader) (rest : List Char) : Reader := { r with place := r.place.moveTo rest }

/-- Says whether a key may come next. -/
def allowKey (r : Reader) (b : Bool) : Reader := { r with keyAllowed := b }

/-- Gives up the candidate, unless only a key can stand there. -/
def dropCandidate? (r : Reader) : Option Reader :=
  if r.currentCandidate.any (·.required) then none else some (r.setCandidate none)

/-- Makes the next token a candidate, if a key may stand here. -/
def addCandidate? (r : Reader) : Option Reader :=
  if r.keyAllowed then do
    let r ← r.dropCandidate?
    let p := r.place
    let required := !r.isBracketed && r.columns.head? == some p.column
    return r.setCandidate (some ⟨r.tokens.size, required, p.index, p.line, p.column⟩)
  else some r

/-- Whether a candidate can no longer become a key, because the line has ended or too much
text lies behind it. -/
def isStale (p : Place) (c : Candidate) : Bool := c.line < p.line || c.index + 1024 < p.index

/-- Gives up the candidates that can no longer become keys. -/
def dropStale? (r : Reader) : Option Reader :=
  let stale (c : Option Candidate) : Bool := c.any (isStale r.place)
  let keep (c : Option Candidate) : Option Candidate := if stale c then none else c
  if (r.candidate :: r.inner).any fun c => stale c && c.any (·.required) then none
  else some { r with candidate := keep r.candidate, inner := r.inner.map keep }

/-- Ends the blocks to the right of a column. -/
def unrollIn (column : Nat) : List Nat → Array Token → List Nat × Array Token
  | [], ts => ([], ts)
  | n :: columns, ts =>
    if column < n then unrollIn column columns (ts.push .blockEnd) else (n :: columns, ts)

/-- Ends the blocks to the right of a column, unless inside of brackets. -/
def unroll (r : Reader) (column : Nat) : Reader :=
  if r.isBracketed then r
  else
    let (columns, tokens) := unrollIn column r.columns r.tokens
    { r with columns, tokens }

/-- Ends all blocks, unless inside of brackets. -/
def unrollAll (r : Reader) : Reader :=
  if r.isBracketed then r
  else { r with
    tokens := r.columns.foldl (fun ts _ => ts.push .blockEnd) r.tokens
    columns := [] }

/-- Begins a block in a column, if that is further to the right than the blocks so far and
not inside of brackets.  The token goes in front of the one at the given position. -/
def roll (r : Reader) (column position : Nat) (t : Token) : Reader :=
  if r.isBracketed || r.columns.head?.any (column ≤ ·) then r
  else { r with columns := column :: r.columns }.insertAt position t

/-- Adds a mark that begins or ends a document. -/
def documentMark? (r : Reader) (t : Token) : Option Reader := do
  let r ← r.unrollAll.dropCandidate?
  return ((r.allowKey false).emit t).moveTo (r.place.rest.drop 3)

/-- Adds an opening bracket. -/
def openBracket? (r : Reader) (t : Token) : Option Reader := do
  let r ← r.addCandidate?
  return ({ r with inner := none :: r.inner }.allowKey true |>.emit t).moveTo (r.place.rest.drop 1)

/-- Adds a closing bracket. -/
def closeBracket? (r : Reader) (t : Token) : Option Reader := do
  let r ← r.dropCandidate?
  return ({ r with inner := r.inner.drop 1 }.allowKey false |>.emit t).moveTo (r.place.rest.drop 1)

/-- Adds a comma. -/
def comma? (r : Reader) : Option Reader := do
  let r ← r.dropCandidate?
  return ((r.allowKey true).emit .comma).moveTo (r.place.rest.drop 1)

/-- Adds the dash before an item. -/
def item? (r : Reader) : Option Reader := do
  if !r.isBracketed && !r.keyAllowed then none
  let r := r.roll r.place.column r.tokens.size .blockSequence
  let r ← r.dropCandidate?
  return ((r.allowKey true).emit .item).moveTo (r.place.rest.drop 1)

/-- Adds the indicator before a key. -/
def key? (r : Reader) : Option Reader := do
  if !r.isBracketed && !r.keyAllowed then none
  let r := r.roll r.place.column r.tokens.size .blockMapping
  let r ← r.dropCandidate?
  return ((r.allowKey (!r.isBracketed)).emit .key).moveTo (r.place.rest.drop 1)

/-- Adds the colon before a value, and the key token before the candidate, if there is
one. -/
def value? (r : Reader) : Option Reader := do
  let r ← match r.currentCandidate with
    | some c =>
      let r := (r.insertAt c.position .key).roll c.column c.position .blockMapping
      some ((r.setCandidate none).allowKey false)
    | none =>
      if !r.isBracketed && !r.keyAllowed then none
      else some ((r.roll r.place.column r.tokens.size .blockMapping).allowKey (!r.isBracketed))
  return (r.emit .value).moveTo (r.place.rest.drop 1)

/-- Adds a token that may begin a key, as read by `read` from behind its first character. -/
def begin? (r : Reader) (read : List Char → Option (Token × List Char)) : Option Reader := do
  let r ← r.addCandidate?
  let (t, rest) ← read (r.place.rest.drop 1)
  return ((r.allowKey false).emit t).moveTo rest

/-- Adds a plain scalar. -/
def plain? (r : Reader) : Option Reader := do
  let r ← r.addCandidate?
  let p ← readPlain? r.isBracketed (r.columns.head?.elim 0 (· + 1)) r.place.rest
  return ((r.allowKey p.multiline).emit (.scalar .plain p.text)).moveTo p.rest

/-- Adds a block scalar. -/
def block? (r : Reader) (style : Style) : Option Reader := do
  let r ← r.dropCandidate?
  let (text, rest) ← readBlock? style r.columns.head? (r.place.rest.drop 1)
  return ((r.allowKey true).emit (.scalar style text)).moveTo rest

/-- Adds a directive. -/
def directive? (r : Reader) : Option Reader := do
  let r ← r.unrollAll.dropCandidate?
  let (t, rest) ← readDirective? (r.place.rest.drop 1)
  return ((r.allowKey false).emit t).moveTo rest

/-- Whether a plain scalar can begin here. -/
def startsPlain (bracketed : Bool) : List Char → Bool
  | [] => false
  | c :: r =>
    !(isBlank c || isBreak c || c ∈ "-?:,[]\x7b\x7d#&*!|>\x27\"%@\x60".toList) ||
      (c == '-' && !r.head?.any isBlank) || (!bracketed && (c == '?' || c == ':') && !atSpace r)

/-- Adds the token that begins at this place, which is not white space. -/
def token? (r : Reader) : Option Reader :=
  let rest := r.place.rest
  let behind := rest.drop 1
  let bracketed := r.isBracketed
  match rest with
  | [] => none
  | c :: _ =>
    if r.place.column == 0 && c == '%' then r.directive?
    else if r.place.column == 0 && atDocumentMark rest then
      r.documentMark? (if c == '-' then .documentStart else .documentEnd)
    else if c == '[' then r.openBracket? .sequenceOpen
    else if c == '{' then r.openBracket? .mappingOpen
    else if c == ']' then r.closeBracket? .sequenceClose
    else if c == '}' then r.closeBracket? .mappingClose
    else if c == ',' then r.comma?
    else if c == '-' && atSpace behind then r.item?
    else if c == '?' && (bracketed || atSpace behind) then r.key?
    else if c == ':' && (bracketed || atSpace behind) then r.value?
    else if c == '*' then r.begin? fun s => (readName? s).map fun (x, s) => (.alias x, s)
    else if c == '&' then r.begin? fun s => (readName? s).map fun (x, s) => (.anchor x, s)
    else if c == '!' then r.begin? (readTag? bracketed)
    else if c == '|' && !bracketed then r.block? .literal
    else if c == '>' && !bracketed then r.block? .folded
    else if c == '\x27' then
      r.begin? fun s => (readSingle? s).map fun (x, s) => (.scalar .single x, s)
    else if c == '"' then
      r.begin? fun s => (readDouble? s).map fun (x, s) => (.scalar .double x, s)
    else if startsPlain bracketed rest then r.plain?
    else none

/-- Passes over white space, and ends the blocks that the next token is too far to the left
for. -/
def toNextToken? (r : Reader) : Option Reader := do
  let lineStart := r.place.column == 0
  let (keyAllowed, rest) := skipSpace r.isBracketed r.keyAllowed false lineStart r.place.rest
  let r ← ((r.moveTo rest).allowKey keyAllowed).dropStale?
  return r.unroll r.place.column

/-- Ends all blocks at the end of the text. -/
def finish? (r : Reader) : Option (List Token) := do
  let r ← r.unrollAll.dropCandidate?
  return r.tokens.toList

/-- Reads tokens up to the end of the text; there are at most `fuel`. -/
def readAll? : (fuel : Nat) → Reader → Option (List Token)
  | 0, _ => none
  | fuel + 1, r =>
    match r.toNextToken? with
    | none => none
    | some r => if r.place.rest.isEmpty then r.finish? else r.token?.bind (readAll? fuel)

end Reader

/-- The tokens of a text. -/
def tokens? (text : String) : Option (List Token) := do
  let s ← prepare? text
  Reader.readAll? (s.length + 1) { place := { rest := s } }

end ToneScript.Yaml
