import ToneScript.Yaml.Place

/-!
# Scalars of a YAML text

A scalar is written plainly, between quotes, or as a block of lines under an indicator.
Inside the first three, a line end stands for a space and further line ends for
themselves.  Every reader here takes the text behind the opening mark and returns the
scalar and what is left to read.

## Main definitions

* `Yaml.Style` — the five ways to write a scalar.
* `Yaml.Gap` — a run of white space inside a scalar.
* `Yaml.readPlain?`, `Yaml.readSingle?`, `Yaml.readDouble?`, `Yaml.readBlock?` — the readers.
-/

namespace ToneScript.Yaml

/-- The ways to write a scalar. -/
inductive Style where
  /-- Without any mark. -/
  | plain
  /-- Between single quotes. -/
  | single
  /-- Between double quotes. -/
  | double
  /-- As a block whose line ends are kept. -/
  | literal
  /-- As a block whose line ends are folded. -/
  | folded
deriving DecidableEq, Repr

/-- A run of white space inside a scalar. -/
structure Gap where
  /-- The blanks before the first line end. -/
  blanks : List Char := []
  /-- The line ends. -/
  breaks : List Char := []
  /-- Whether the run begins with an escaped line end, which does not count. -/
  escaped : Bool := false
  /-- The number of blanks behind the last line end. -/
  margin : Nat := 0
  /-- The least column in which a tab stands behind a line end. -/
  tab : Option Nat := none
deriving Repr

namespace Gap

/-- Whether a line has ended in the gap. -/
def isMultiline (g : Gap) : Bool := g.escaped || !g.breaks.isEmpty

/-- Whether there is anything in the gap. -/
def isOpen (g : Gap) : Bool := g.isMultiline || !g.blanks.isEmpty

/-- Adds a line end. -/
def addBreak (g : Gap) (c : Char) : Gap := { g with breaks := g.breaks ++ [c], margin := 0 }

/-- Adds a blank.  Behind a line end blanks are only counted. -/
def addBlank (g : Gap) (c : Char) : Gap :=
  if g.isMultiline then
    let tab := if c == '\t' then some (min g.margin (g.tab.getD g.margin)) else g.tab
    { g with margin := g.margin + 1, tab }
  else { g with blanks := g.blanks ++ [c] }

/-- What the gap stands for. -/
def fold (g : Gap) : List Char :=
  if g.escaped then g.breaks
  else match g.breaks with
    | [] => g.blanks
    | ['\n'] => [' ']
    | '\n' :: more => more
    | breaks => breaks

/-- Puts the gap behind the characters read so far, which come last one first. -/
def flushOnto (g : Gap) (acc : List Char) : List Char := g.fold.reverse ++ acc

end Gap

/-- Whether a line that begins here begins or ends a document. -/
def atDocumentMark : List Char → Bool
  | '-' :: '-' :: '-' :: r | '.' :: '.' :: '.' :: r => atSpace r
  | _ => false

/-- Whether a line of a scalar begins here, and not with text but with a document mark. -/
def Gap.meetsDocumentMark (g : Gap) (rest : List Char) : Bool :=
  g.isMultiline && g.margin == 0 && atDocumentMark rest

/-! ## Plain scalars -/

/-- What a reader of plain scalars finds. -/
structure PlainText where
  /-- The scalar. -/
  text : List Char
  /-- Whether a line has ended behind it. -/
  multiline : Bool
  /-- What is left to read. -/
  rest : List Char

/-- Reads a plain scalar that must not go on to the left of column `margin`, where no tab
may stand either.  Inside of brackets it may go on there, but brackets and commas end it. -/
def readPlainOver? (bracketed : Bool) (margin : Nat) (acc : List Char) (g : Gap) :
    List Char → Option PlainText
  | [] => if g.tab.getD margin < margin then none else some ⟨acc.reverse, g.isMultiline, []⟩
  | c :: r =>
    if isBreak c then readPlainOver? bracketed margin acc (g.addBreak c) r
    else if isBlank c then readPlainOver? bracketed margin acc (g.addBlank c) r
    else if (g.tab.getD margin) < margin then none
    else
      let outside := g.isMultiline && !bracketed && g.margin < margin
      let ended := (g.isOpen && (outside || c == '#')) || g.meetsDocumentMark (c :: r)
      let atValue := c == ':' && atSpace r
      let atBracket := bracketed && c ∈ [',', '[', ']', '{', '}']
      if ended then some ⟨acc.reverse, g.isMultiline, c :: r⟩
      else if bracketed && c == ':' && r.head?.any (· ∈ [',', '?', '[', ']', '{', '}']) then none
      else if atValue || atBracket then some ⟨acc.reverse, g.isMultiline, c :: r⟩
      else readPlainOver? bracketed margin (c :: g.flushOnto acc) {} r

/-- Reads a plain scalar. -/
def readPlain? (bracketed : Bool) (margin : Nat) (rest : List Char) : Option PlainText :=
  readPlainOver? bracketed margin [] {} rest

/-! ## Quoted scalars -/

/-- Reads a scalar up to its closing single quote.  A quote inside it is written twice. -/
def readSingleOver? (acc : List Char) (g : Gap) : List Char → Option (List Char × List Char)
  | [] => none
  | '\x27' :: '\x27' :: r => readSingleOver? ('\x27' :: g.flushOnto acc) {} r
  | c :: r =>
    if c == '\x27' then some ((g.flushOnto acc).reverse, r)
    else if isBreak c then readSingleOver? acc (g.addBreak c) r
    else if isBlank c then readSingleOver? acc (g.addBlank c) r
    else if g.meetsDocumentMark (c :: r) then none
    else readSingleOver? (c :: g.flushOnto acc) {} r

/-- Reads a scalar up to its closing single quote. -/
def readSingle? (rest : List Char) : Option (List Char × List Char) := readSingleOver? [] {} rest

/-- The value of a hexadecimal digit. -/
def hexValue? (c : Char) : Option Nat :=
  if c.isDigit then some (c.toNat - '0'.toNat)
  else if 'a' ≤ c && c ≤ 'f' then some (c.toNat - 'a'.toNat + 10)
  else if 'A' ≤ c && c ≤ 'F' then some (c.toNat - 'A'.toNat + 10)
  else none

/-- The number that hexadecimal digits denote, if all of them are digits. -/
def hexNumber? (ds : List Char) : Option Nat :=
  ds.foldl (fun n? d => n?.bind fun n => (hexValue? d).map (16 * n + ·)) (some 0)

/-- The character of a code point, if it is one. -/
def charOfNat? (n : Nat) : Option Char :=
  if h : n.isValidChar then some (Char.ofNatAux n h) else none

/-- The escapes of one character, with what they stand for. -/
def shortEscapes : List (Char × Char) :=
  [('0', '\x00'), ('a', '\x07'), ('b', '\x08'), ('t', '\t'), ('\t', '\t'), ('n', '\n'),
    ('v', '\x0b'), ('f', '\x0c'), ('r', '\r'), ('e', '\x1b'), (' ', ' '), ('"', '"'), ('/', '/'),
    ('\\', '\\'), ('N', '\x85'), ('_', '\xa0'), ('L', '\u2028'), ('P', '\u2029')]

/-- The number of hexadecimal digits behind an escape of a code point. -/
def escapeDigits? : Char → Option Nat
  | 'x' => some 2
  | 'u' => some 4
  | 'U' => some 8
  | _ => none

/-- What the reader of a double-quoted scalar is about to do with the next character. -/
inductive DoubleMode where
  /-- Read it as text. -/
  | text
  /-- Read it as the character behind a backslash. -/
  | escape
  /-- Read it as a hexadecimal digit; so many are to come, and these have been read, the
  last one first. -/
  | digits (toCome : Nat) (seen : List Char)

/-- Reads a scalar up to its closing double quote. -/
def readDoubleOver? (acc : List Char) (g : Gap) :
    DoubleMode → List Char → Option (List Char × List Char)
  | _, [] => none
  | .text, c :: r =>
    if c == '"' then some ((g.flushOnto acc).reverse, r)
    else if isBreak c then readDoubleOver? acc (g.addBreak c) .text r
    else if isBlank c then readDoubleOver? acc (g.addBlank c) .text r
    else if g.meetsDocumentMark (c :: r) then none
    else if c == '\\' then readDoubleOver? (g.flushOnto acc) {} .escape r
    else readDoubleOver? (c :: g.flushOnto acc) {} .text r
  | .escape, c :: r =>
    if isBreak c then readDoubleOver? acc { escaped := true } .text r
    else match escapeDigits? c with
      | some n => readDoubleOver? acc g (.digits n []) r
      | none => match shortEscapes.lookup c with
        | some d => readDoubleOver? (d :: acc) g .text r
        | none => none
  | .digits n seen, c :: r =>
    if 1 < n then readDoubleOver? acc g (.digits (n - 1) (c :: seen)) r
    else match (hexNumber? (c :: seen).reverse).bind charOfNat? with
      | some d => readDoubleOver? (d :: acc) g .text r
      | none => none

/-- Reads a scalar up to its closing double quote. -/
def readDouble? (rest : List Char) : Option (List Char × List Char) :=
  readDoubleOver? [] {} .text rest

/-! ## Block scalars -/

/-- What becomes of the line ends at the end of a block. -/
inductive Chomp where
  /-- All are dropped. -/
  | strip
  /-- One is kept. -/
  | clip
  /-- All are kept. -/
  | keep
deriving DecidableEq, Repr

/-- The indicators behind the mark of a block: what becomes of the line ends, and by how
much the block is indented. -/
def readBlockHeader? (rest : List Char) : Option (Chomp × Option Nat × List Char) :=
  let chomp : List Char → Option (Chomp × List Char)
    | '+' :: r => some (.keep, r)
    | '-' :: r => some (.strip, r)
    | _ => none
  let width (r : List Char) : Option (Option Nat × List Char) :=
    match r with
    | c :: r' =>
      if c == '0' then none
      else if c.isDigit then some (some (c.toNat - '0'.toNat), r')
      else some (none, r)
    | [] => some (none, r)
  match chomp rest with
  | some (k, r) => (width r).map fun (w, r') => (k, w, r')
  | none => do
    let (w, r) ← width rest
    match w, chomp r with
    | some w, some (k, r') => some (k, some w, r')
    | w, _ => some (.clip, w, r)

/-- The rest of a line, if there is nothing on it but blanks and a comment: what is left
to read behind its end. -/
def skipLineEnd? (rest : List Char) : Option (List Char) :=
  let r := rest.dropWhile isBlank
  let r := if r.head? == some '#' then r.dropWhile (!isBreak ·) else r
  if atLineEnd r then some (r.drop 1) else none

/-- The empty lines and the indentation before a line of text. -/
structure BlockMargin where
  /-- The line ends. -/
  breaks : List Char
  /-- The largest indentation of these lines and of the line of text. -/
  widest : Nat
  /-- The column of the line of text. -/
  column : Nat
  /-- What is left to read. -/
  rest : List Char

/-- Passes over empty lines and indentation.  A block is indented by `indent`, if that is
known already; a tab must not stand in the indentation. -/
def readMarginOver? (indent : Option Nat) (breaks : List Char) (widest column : Nat) :
    List Char → Option BlockMargin
  | [] => some ⟨breaks, widest, column, []⟩
  | c :: r =>
    let inside := indent.all (column < ·)
    if c == ' ' && inside then
      readMarginOver? indent breaks (max widest (column + 1)) (column + 1) r
    else if c == '\t' && inside then none
    else if isBreak c then readMarginOver? indent (breaks ++ [c]) widest 0 r
    else some ⟨breaks, widest, column, c :: r⟩

/-- A block being read. -/
structure Block where
  /-- The text so far. -/
  text : List Char := []
  /-- The end of the last line. -/
  lastBreak : List Char := []
  /-- The line ends behind that. -/
  breaks : List Char
  /-- Whether the last line began with a blank. -/
  blankBefore : Bool := false

/-- Joins the next line of text to a block.  In a folded block a line end between two
lines that begin with text stands for a space, or for nothing if empty lines follow. -/
def Block.addLine (b : Block) (style : Style) (line lastBreak breaks : List Char) : Block :=
  let blank := line.head?.any isBlank
  let folds := style == .folded && b.lastBreak == ['\n'] && !b.blankBefore && !blank
  let joint :=
    if folds then (if b.breaks.isEmpty then [' '] else b.breaks) else b.lastBreak ++ b.breaks
  { text := b.text ++ joint ++ line, lastBreak, breaks, blankBefore := blank }

/-- The text of a block that is complete. -/
def Block.finish (b : Block) : Chomp → List Char
  | .strip => b.text
  | .clip => b.text ++ b.lastBreak
  | .keep => b.text ++ b.lastBreak ++ b.breaks

/-- Reads the lines of a block that is indented by `indent`; there are at most `fuel`. -/
def readLines? (style : Style) (indent : Nat) : (fuel : Nat) → Block → (column : Nat) →
    List Char → Option (Block × List Char)
  | 0, b, _, rest => some (b, rest)
  | fuel + 1, b, column, rest =>
    if column ≠ indent ∨ rest = [] then some (b, rest)
    else
      let line := rest.takeWhile (!isBreak ·)
      let behind := rest.dropWhile (!isBreak ·)
      match readMarginOver? (some indent) [] 0 0 (behind.drop 1) with
      | none => none
      | some m => readLines? style indent fuel (b.addLine style line (behind.take 1) m.breaks)
          m.column m.rest

/-- Reads a block scalar behind its mark, inside of a block whose own indentation is
`outer`, if there is one. -/
def readBlock? (style : Style) (outer : Option Nat) (rest : List Char) :
    Option (List Char × List Char) := do
  let (chomp, width, r) ← readBlockHeader? rest
  let r ← skipLineEnd? r
  let given := width.map (outer.getD 0 + ·)
  let m ← readMarginOver? given [] 0 0 r
  -- without an indicator the first lines decide, but a block is deeper than what is around it
  let least := outer.elim 1 (· + 1)
  let indent := given.getD (max m.widest least)
  let (b, r) ← readLines? style indent (r.length + 1) { breaks := m.breaks } m.column m.rest
  return (b.finish chomp, r)

end ToneScript.Yaml
