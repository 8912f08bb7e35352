/-!
# Places in a YAML text

A YAML text is read character by character, but its structure depends on lines and
columns.  A place is the text still to be read together with its position.

All kinds of line ends but two count the same, so they are made equal before anything
else is read.

## Main definitions

* `Yaml.prepare?` — the characters of a text with uniform line ends, if all are allowed.
* `Yaml.Place` — a position in a text.
* `Yaml.skipSpace` — white space and comments between two tokens.
-/

namespace ToneScript.Yaml

/-! ## Characters -/

/-- The mark that may stand at the beginning of a line.  It is passed over, but it takes up a
column of the line. -/
def byteOrderMark : Char := '\ufeff'

/-- Line ends, once they are uniform: the line feed, and the two separators that are kept
apart from it. -/
def isBreak (c : Char) : Bool := c == '\n' || c == '\u2028' || c == '\u2029'

/-- Spaces and tabs. -/
def isBlank (c : Char) : Bool := c == ' ' || c == '\t'

/-- Whether a text ends here, or goes on with a blank or a line end. -/
def atSpace : List Char → Bool
  | [] => true
  | c :: _ => isBlank c || isBreak c

/-- Whether a line ends here. -/
def atLineEnd : List Char → Bool
  | [] => true
  | c :: _ => isBreak c

/-- The characters of anchors and of tag handles. -/
def isNameChar (c : Char) : Bool := c.isAlphanum || c == '_' || c == '-'

/-- The characters of tags. -/
def isTagChar (c : Char) : Bool := isNameChar c || c ∈ ";/?:@&=+$.!~*'()%".toList

/-- Whether a text may hold the character at all: the control characters are excluded,
and so are the two code points at the end of the basic plane. -/
def isAllowed (c : Char) : Bool :=
  let n := c.toNat
  n == 0x9 || n == 0xA || n == 0xD || (0x20 ≤ n && n ≤ 0x7E) || n == 0x85 ||
    (0xA0 ≤ n && n ≤ 0xFFFD) || 0x10000 ≤ n

/-- Makes a line feed of every carriage return, every pair of the two, and every
next-line character. -/
def unifyBreaks : List Char → List Char
  | '\r' :: '\n' :: r => '\n' :: unifyBreaks r
  | c :: r => (if c == '\r' || c == '\x85' then '\n' else c) :: unifyBreaks r
  | [] => []

/-- The characters of a text with uniform line ends, if all of them are allowed. -/
def prepare? (text : String) : Option (List Char) :=
  if text.toList.all isAllowed then some (unifyBreaks text.toList) else none

/-! ## Places -/

/-- A position in a text. -/
structure Place where
  /-- What is still to be read. -/
  rest : List Char
  /-- The number of characters before it. -/
  index : Nat := 0
  /-- The number of lines before it. -/
  line : Nat := 0
  /-- The number of characters before it on its line. -/
  column : Nat := 0
deriving Repr

namespace Place

/-- The place behind the next character. -/
def next (p : Place) : Place :=
  match p.rest with
  | [] => p
  | c :: r =>
    if isBreak c then ⟨r, p.index + 1, p.line + 1, 0⟩
    else ⟨r, p.index + 1, p.line, p.column + 1⟩

/-- The place behind the next `n` characters. -/
def skip (p : Place) : (n : Nat) → Place
  | 0 => p
  | n + 1 => p.next.skip n

/-- The place at which `r` is still to be read, where `r` is an end of what is to be read
now. -/
def moveTo (p : Place) (r : List Char) : Place := p.skip (p.rest.length - r.length)

end Place

/-- Passes over white space and comments.  A new line in a block may begin with a key;
`keyAllowed` says whether one may stand here, and a tab is white space only where none
may, or inside of brackets.  A byte order mark is white space at the beginning of a line.
The result is whether a key may stand behind the white space, and what is left to read. -/
def skipSpace (bracketed : Bool) : (keyAllowed comment lineStart : Bool) → List Char →
    Bool × List Char
  | keyAllowed, _, _, [] => (keyAllowed, [])
  | keyAllowed, comment, lineStart, c :: r =>
    if isBreak c then skipSpace bracketed (keyAllowed || !bracketed) false true r
    else if comment || c == '#' then skipSpace bracketed keyAllowed true false r
    else if c == ' ' || (c == '\t' && (bracketed || !keyAllowed)) ||
        (lineStart && c == byteOrderMark) then
      skipSpace bracketed keyAllowed false false r
    else (keyAllowed, c :: r)

end ToneScript.Yaml
