import ToneScript.Yaml.Reader

/-!
# Nodes of a YAML text

The document of a YAML text is a tree of scalars, sequences and mappings.  A node may have
an anchor, and a reference to that stands for the node.  The reader below takes the tokens
of a text.  It fails unless they form one document or none.

## Main definitions

* `Yaml.Node` — the nodes.
* `Yaml.Document` — a root, with the nodes that are referred to.
* `Yaml.NodeReader` — readers of nodes.
* `Yaml.document?` — the document of a text.
-/

namespace ToneScript.Yaml

/-- The nodes of a document. -/
inductive Node where
  /-- A reference to the node with this number. -/
  | reference (number : Nat)
  /-- A scalar, possibly tagged. -/
  | scalar (tag : Option Tag) (style : Style) (text : List Char)
  /-- A sequence. -/
  | sequence (items : List Node)
  /-- A mapping, in which a key may occur more than once. -/
  | mapping (entries : List (Node × Node))

/-- The scalar that stands where nothing is written. -/
def Node.nothing : Node := .scalar none .plain []

/-- A document. -/
structure Document where
  /-- The node that all others are inside of; a text may be without one. -/
  root : Option Node
  /-- The nodes that are referred to by number. -/
  anchored : List (Nat × Node)

/-- The node that a node stands for. -/
def Document.resolve (d : Document) : Node → Option Node
  | .reference n => d.anchored.lookup n
  | node => some node

/-! ## Readers -/

/-- What a reader of nodes goes by. -/
structure NodeState where
  /-- The tokens that are still to be read. -/
  tokens : List Token
  /-- The abbreviations for the beginning of tags. -/
  handles : List (List Char × Tag)
  /-- The names of anchors, with their numbers. -/
  names : List (List Char × Nat) := []
  /-- The nodes with a number, the one that begins last first. -/
  anchored : List (Nat × Node) := []

/-- A reader, which may fail. -/
abbrev NodeReader := StateT NodeState Option

namespace NodeReader

/-- The next token. -/
def peek : NodeReader (Option Token) := return (← get).tokens.head?

/-- Passes over the next token. -/
def advance : NodeReader Unit := modify fun s => { s with tokens := s.tokens.drop 1 }

/-- Passes over the next token, if it is the given one. -/
def accept (t : Token) : NodeReader Bool := do
  if (← peek) == some t then
    advance
    return true
  return false

/-- Passes over the next token, which must be the given one. -/
def expect (t : Token) : NodeReader Unit := do
  unless ← accept t do failure

/-- Reads an anchor, if there is one. -/
def anchor? : NodeReader (Option (List Char)) := do
  match ← peek with
  | some (.anchor x) =>
    advance
    return some x
  | _ => return none

/-- Reads a tag, if there is one, and writes it out in full. -/
def tag? : NodeReader (Option Tag) := do
  match ← peek with
  | some (.tag handle suffix) =>
    advance
    if handle = [] then return some suffix
    let expansion ← ((← get).handles.lookup handle : Option Tag)
    return some (expansion ++ suffix)
  | _ => return none

/-- Reads an anchor and a tag, in any order; each may be missing. -/
def properties : NodeReader (Option (List Char) × Option Tag) := do
  match ← anchor? with
  | some x => return (some x, ← tag?)
  | none =>
    let t ← tag?
    let x ← if t.isSome then anchor? else pure none
    return (x, t)

/-- Reads a node that has an anchor.  Its number is the number of names in use before it,
so a name that is used again shares it with the next new name. -/
def named (name : Option (List Char)) (read : NodeReader Node) : NodeReader Node := do
  match name with
  | none => read
  | some x =>
    let s ← get
    let number := s.names.length
    set { s with names := (x, number) :: s.names.filter (·.1 != x), anchored := [] }
    let node ← read
    modify fun r => { r with anchored := r.anchored ++ (number, node) :: s.anchored }
    return node

/-- Where a node stands.  This decides how it may be written. -/
inductive Slot where
  /-- On its own or as an item of a sequence. -/
  | item
  /-- As a key or value of a mapping.  A sequence need not be further to the right here. -/
  | field
  /-- Inside of brackets, where all is written with brackets. -/
  | bracketed
deriving DecidableEq

/-- An empty scalar, which has to have an anchor or a tag to stand here. -/
def bare (name : Option (List Char)) (tag : Option Tag) : NodeReader Node :=
  if name.isSome || tag.isSome then return .scalar tag .plain [] else failure

/-- Reads a node by `read`, unless one of the given tokens is next. -/
def unlessAt (stops : List Token) (read : NodeReader Node) : NodeReader Node := do
  if (← peek).any (· ∈ stops) then return .nothing
  read

mutual

/-- Reads a node.  At most `fuel` nodes and brackets are read one inside or behind the
other. -/
def node (slot : Slot) : (fuel : Nat) → NodeReader Node
  | 0 => failure
  | fuel + 1 => do
    if let some (.alias x) ← peek then
      advance
      return .reference (← ((← get).names.lookup x : Option Nat))
    let (name, tag) ← properties
    let next ← peek
    if slot == .field && next == some .item then
      return ← named name do return .sequence (← flushItems fuel)
    match next with
    | some (.scalar style text) =>
      advance
      named name do return .scalar tag style text
    | some .sequenceOpen =>
      advance
      named name do return .sequence (← items true fuel)
    | some .mappingOpen =>
      advance
      named name do return .mapping (← fields true fuel)
    | some .blockSequence =>
      if slot == .bracketed then return ← named name (bare name tag)
      advance
      named name do return .sequence (← blockItems fuel)
    | some .blockMapping =>
      if slot == .bracketed then return ← named name (bare name tag)
      advance
      named name do return .mapping (← blockFields fuel)
    | _ => named name (bare name tag)

/-- Reads the items of a sequence that is indented. -/
def blockItems : (fuel : Nat) → NodeReader (List Node)
  | 0 => failure
  | fuel + 1 => do
    if ← accept .item then
      let x ← unlessAt [.item, .blockEnd] (node .item fuel)
      return x :: (← blockItems fuel)
    expect .blockEnd
    return []

/-- Reads the items of a sequence that is not further to the right than the key before
it.  No token marks its end. -/
def flushItems : (fuel : Nat) → NodeReader (List Node)
  | 0 => failure
  | fuel + 1 => do
    if ← accept .item then
      let x ← unlessAt [.item, .key, .value, .blockEnd] (node .item fuel)
      return x :: (← flushItems fuel)
    return []

/-- Reads the entries of a mapping that is indented. -/
def blockFields : (fuel : Nat) → NodeReader (List (Node × Node))
  | 0 => failure
  | fuel + 1 => do
    if ← accept .key then
      let part := unlessAt [.key, .value, .blockEnd] (node .field fuel)
      let k ← part
      let v ← if ← accept .value then part else pure .nothing
      return (k, v) :: (← blockFields fuel)
    expect .blockEnd
    return []

/-- Reads the items of a sequence up to its closing bracket.  A key among them begins a
mapping of one entry.  Where that key is missing, the token in place of it is lost. -/
def items (first : Bool) : (fuel : Nat) → NodeReader (List Node)
  | 0 => failure
  | fuel + 1 => do
    if ← accept .sequenceClose then return []
    unless first do expect .comma
    if ← accept .sequenceClose then return []
    let x ← if ← accept .key then
        let k ← if (← peek).any (· ∈ [.value, .comma, .sequenceClose]) then do
            advance
            pure .nothing
          else node .bracketed fuel
        let v ← if ← accept .value then
            unlessAt [.comma, .sequenceClose] (node .bracketed fuel)
          else pure .nothing
        pure (.mapping [(k, v)])
      else node .bracketed fuel
    return x :: (← items false fuel)

/-- Reads the entries of a mapping up to its closing bracket. -/
def fields (first : Bool) : (fuel : Nat) → NodeReader (List (Node × Node))
  | 0 => failure
  | fuel + 1 => do
    if ← accept .mappingClose then return []
    unless first do expect .comma
    if ← accept .mappingClose then return []
    let x ← if ← accept .key then do
        let k ← unlessAt [.value, .comma, .mappingClose] (node .bracketed fuel)
        let v ← if ← accept .value then
            unlessAt [.comma, .mappingClose] (node .bracketed fuel)
          else pure .nothing
        pure (k, v)
      else do pure (← node .bracketed fuel, .nothing)
    return x :: (← fields false fuel)

end

/-! ## Documents -/

/-- The abbreviations that hold without being introduced. -/
def standardHandles : List (List Char × Tag) :=
  [("!".toList, .ofString "!"), ("!!".toList, .ofString "tag:yaml.org,2002:")]

/-- Reads directives; there are at most `fuel`.  The version may be given once, and so may
each abbreviation. -/
def directives (versioned : Bool) (handles : List (List Char × Tag)) :
    (fuel : Nat) → NodeReader (List (List Char × Tag))
  | 0 => failure
  | fuel + 1 => do
    match ← peek with
    | some (.version major minor) =>
      if versioned || major != 1 || (minor != 1 && minor != 2) then failure
      advance
      directives true handles fuel
    | some (.abbreviation handle expansion) =>
      if (handles.lookup handle).isSome then failure
      advance
      directives versioned ((handle, expansion) :: handles) fuel
    | _ => return handles

/-- Whether a document can begin without directives and without a mark. -/
def beginsBare : Token → Bool
  | .version .. | .abbreviation .. | .documentStart => false
  | _ => true

/-- Whether the content of a document is missing where this token is next. -/
def endsContent : Token → Bool
  | .version .. | .abbreviation .. | .documentStart | .documentEnd => true
  | _ => false

/-- Reads the root of a document, behind its directives and its mark if there are any. -/
def root (fuel : Nat) : NodeReader Node := do
  if (← peek).all beginsBare then node .item fuel
  else
    let handles ← directives false [] fuel
    modify fun s => { s with handles := handles ++ standardHandles }
    expect .documentStart
    if (← peek).all endsContent then return .nothing
    node .item fuel

/-- Reads the only document of a text. -/
def document (fuel : Nat) : NodeReader Document := do
  if (← get).tokens.isEmpty then return ⟨none, []⟩
  let node ← root fuel
  let s ← get
  -- nothing may follow but marks that end the document
  if s.tokens.all (· == .documentEnd) then return ⟨some node, s.anchored⟩ else failure

end NodeReader

/-- The document of a text, if there is at most one and nothing is wrong with it. -/
def document? (text : String) : Option Document := do
  let ts ← tokens? text
  let r ← (NodeReader.document (2 * ts.length + 4)).run
    { tokens := ts, handles := NodeReader.standardHandles }
  return r.1

end ToneScript.Yaml
