import ToneScript.Yaml.Scalar

/-!
# Tokens of a YAML text

The tokens of a YAML text are its indicators and scalars, and in addition the beginnings
and ends of blocks, which are written as indentation only.  What a token means may depend
on the tokens before it; the readers of this file need not know them.

## Main definitions

* `Yaml.Token` — the tokens.
* `Yaml.readName?`, `Yaml.readTag?`, `Yaml.readDirective?` — readers of single tokens.
-/

namespace ToneScript.Yaml

/-- Tags are bytes, and not necessarily those of a text. -/
abbrev Tag := List UInt8

/-- The tag that is written in these characters. -/
def Tag.ofString (s : String) : Tag := s.toUTF8.toList

/-- The tokens of a YAML text. -/
inductive Token where
  /-- The version of the language. -/
  | version (major minor : Nat)
  /-- An abbreviation for the beginning of tags. -/
  | abbreviation (handle : List Char) (expansion : Tag)
  /-- The mark that begins a document. -/
  | documentStart
  /-- The mark that ends a document. -/
  | documentEnd
  /-- A sequence by indentation begins. -/
  | blockSequence
  /-- A mapping by indentation begins. -/
  | blockMapping
  /-- A sequence or mapping by indentation ends. -/
  | blockEnd
  /-- An opening square bracket. -/
  | sequenceOpen
  /-- A closing square bracket. -/
  | sequenceClose
  /-- An opening brace. -/
  | mappingOpen
  /-- A closing brace. -/
  | mappingClose
  /-- The dash before an item. -/
  | item
  /-- The comma between items. -/
  | comma
  /-- A key is next. -/
  | key
  /-- A value is next. -/
  | value
  /-- A reference to an anchored node. -/
  | alias (name : List Char)
  /-- The name of the next node. -/
  | anchor (name : List Char)
  /-- The tag of the next node, in two parts. -/
  | tag (handle : List Char) (suffix : Tag)
  /-- A scalar. -/
  | scalar (style : Style) (text : List Char)
deriving DecidableEq, Repr

/-! ## Tokens on their own

The readers below take the text at the beginning of a token, or behind its mark, and
return the token and what is left to read. -/

/-- Reads the name of an anchor behind its mark. -/
def readName? (rest : List Char) : Option (List Char × List Char) :=
  let name := rest.takeWhile isNameChar
  let behind := rest.dropWhile isNameChar
  let ends := atSpace behind || behind.head?.any (· ∈ "?:,]\x7d%@\x60".toList)
  if name ≠ [] ∧ ends then some (name, behind) else none

/-- Reads a byte that is written as a percent sign and two hexadecimal digits. -/
def readTagByte? : List Char → Option (UInt8 × List Char)
  | '%' :: a :: b :: r => (hexNumber? [a, b]).map (UInt8.ofNat ·, r)
  | _ => none

/-- The number of bytes that have to come behind one that is the first of a character. -/
def bytesBehind? (b : UInt8) : Option Nat :=
  if b < 0x80 then some 0
  else if 0xC0 ≤ b && b < 0xE0 then some 1
  else if 0xE0 ≤ b && b < 0xF0 then some 2
  else if 0xF0 ≤ b && b < 0xF8 then some 3
  else none

/-- Reads as many escapes in a tag as their bytes seem to make up one character. -/
def readTagEscape? (rest : List Char) : Option (Tag × List Char) := do
  let (b, r) ← readTagByte? rest
  let n ← bytesBehind? b
  (List.range n).foldlM (fun (bs, r) _ => do
    let (b, r) ← readTagByte? r
    if 0x80 ≤ b && b < 0xC0 then some (bs ++ [b], r) else none) ([b], r)

/-- Reads characters of a tag as long as there are any.  Commas and square brackets are
among them only where nothing else can be meant. -/
def readTagChars? (verbatim : Bool) : (fuel : Nat) → (acc : Tag) → (rest : List Char) →
    Option (Tag × List Char)
  | 0, _, _ => none
  | fuel + 1, acc, rest =>
    match rest with
    | [] => some (acc, [])
    | c :: r =>
      if c == '%' then
        match readTagEscape? rest with
        | some (bs, r') => readTagChars? verbatim fuel (acc ++ bs) r'
        | none => none
      else if isTagChar c || (verbatim && c ∈ [',', '[', ']']) then
        readTagChars? verbatim fuel (acc ++ [c.val.toUInt8]) r
      else some (acc, rest)

/-- Reads a part of a tag, where the characters `lead` in front of it belong to it and are
not counted as missing.  A zero byte ends the part; what comes behind it is lost. -/
def readTagPart? (verbatim : Bool) (lead : Option (List Char)) (rest : List Char) :
    Option (Tag × List Char) :=
  let start := (lead.getD []).map (·.val.toUInt8)
  match readTagChars? verbatim (rest.length + 1) start rest with
  | some (s, r) => if lead = none ∧ s = [] then none else some (s.takeWhile (· ≠ 0), r)
  | none => none

/-- Reads a tag behind its exclamation mark. -/
def readTag? (bracketed : Bool) (rest : List Char) : Option (Token × List Char) := do
  let (t, r) ← match rest with
    | '<' :: r =>
      match ← readTagPart? true none r with
      | (s, '>' :: r) => some (Token.tag [] s, r)
      | _ => none
    | _ =>
      let name := rest.takeWhile isNameChar
      match rest.dropWhile isNameChar with
      | '!' :: r =>
        (readTagPart? false none r).map fun (s, r) => (Token.tag ('!' :: name ++ ['!']) s, r)
      | r =>
        (readTagPart? false (some name) r).map fun (s, r) =>
          (if s = [] then Token.tag [] (.ofString "!") else .tag ['!'] s, r)
  if atSpace r || (bracketed && r.head? == some ',') then some (t, r) else none

/-- Reads the number of a version: at most nine digits. -/
def readVersionNumber? (rest : List Char) : Option (Nat × List Char) :=
  let ds := rest.takeWhile Char.isDigit
  if ds ≠ [] ∧ ds.length ≤ 9 then
    some (ds.foldl (fun n c => 10 * n + (c.toNat - '0'.toNat)) 0, rest.dropWhile Char.isDigit)
  else none

/-- Reads a directive behind its percent sign. -/
def readDirective? (rest : List Char) : Option (Token × List Char) := do
  let name := rest.takeWhile isNameChar
  let r := rest.dropWhile isNameChar
  if name = [] ∨ ¬ atSpace r then none
  let r := r.dropWhile isBlank
  let (t, r) ←
    if name = "YAML".toList then do
      match ← readVersionNumber? r with
      | (major, '.' :: r) =>
        let (minor, r) ← readVersionNumber? r
        some (Token.version major minor, r)
      | _ => none
    else if name = "TAG".toList then do
      let (handle, r) ← match r with
        | '!' :: r =>
          let name := r.takeWhile isNameChar
          match r.dropWhile isNameChar with
          | '!' :: r => some ('!' :: name ++ ['!'], r)
          | r => if name = [] then some (['!'], r) else none
        | _ => none
      if ¬ r.head?.any isBlank then none
      let (expansion, r) ← readTagPart? true none (r.dropWhile isBlank)
      if ¬ atSpace r then none
      some (Token.abbreviation handle expansion, r)
    else none
  (skipLineEnd? r).map (t, ·)

end ToneScript.Yaml
