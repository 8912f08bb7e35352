import ToneScript.Yaml.Node

/-!
# Data in scalars

A scalar is a text, but written in the right way it may also be taken for a truth value, a
number, or as no datum at all.  A scalar between quotes is only a text.

## Main definitions

* `Yaml.Node.text?`, `Yaml.Node.bool?`, `Yaml.Node.nat?` — the datum of a scalar.
* `Yaml.Node.optional?` — the datum of a scalar that may stand for none.
* `Yaml.readNat?` — unsigned numerals.
-/

namespace ToneScript.Yaml

/-- The full tag of one of the standard data types. -/
def standardTag (name : String) : Tag := .ofString ("tag:yaml.org,2002:" ++ name)

/-- The number that digits of a base denote, the most significant digit first. -/
def digits? (base : Nat) (ds : List Char) : Option Nat :=
  if ds = [] then none
  else ds.foldlM (fun n d => match hexValue? d with
    | some v => if v < base then some (base * n + v) else none
    | none => none) 0

/-- Reads an unsigned numeral.  A plus sign may stand before it.  The digits are decimal and
begin with a zero only if it is the only one, unless a mark names another base. -/
def readNat? (text : List Char) : Option Nat :=
  let unsigned := match text with
    | '+' :: r => r
    | r => r
  match unsigned with
  | '0' :: 'x' :: ds => digits? 16 ds
  | '0' :: 'o' :: ds => digits? 8 ds
  | '0' :: 'b' :: ds => digits? 2 ds
  | ['0'] => some 0
  | '0' :: _ => none
  | ds => digits? 10 ds

example : readNat? "+0x1F".toList = some 31 := by decide

example : readNat? "007".toList = none := by decide

/-- The words for true and false. -/
def truthWords : List (List Char × Bool) :=
  [("true".toList, true), ("True".toList, true), ("TRUE".toList, true),
    ("false".toList, false), ("False".toList, false), ("FALSE".toList, false)]

/-- The words for no datum. -/
def nullWords : List (List Char) := ["null".toList, "Null".toList, "NULL".toList, "~".toList]

namespace Node

/-- The text of a scalar. -/
def text? : Node → Option (List Char)
  | scalar _ _ s => some s
  | _ => none

/-- The text of a scalar that may be taken for a datum of the given type: it is plain, or it
is a literal block that has the tag of the type. -/
def datum? (type : String) : Node → Option (List Char)
  | scalar _ .plain s => some s
  | scalar (some t) .literal s => if t = standardTag type then some s else none
  | _ => none

/-- The truth value of a scalar. -/
def bool? (n : Node) : Option Bool := (n.datum? "bool").bind (truthWords.lookup ·)

/-- The number of a scalar. -/
def nat? (n : Node) : Option Nat := (n.datum? "int").bind readNat?

/-- Reads a datum that may be missing.  A plain scalar says so if it is empty or one of the
words for it; one that is tagged to say so must be one of the words. -/
def optional? {α : Type} (read : Node → Option α) (n : Node) : Option (Option α) :=
  match n with
  | scalar none .plain s =>
    if s = [] ∨ s ∈ nullWords then some none else (read n).map some
  | scalar (some t) .plain s =>
    if t = standardTag "null" then (if s ∈ nullWords then some none else none)
    else (read n).map some
  | _ => (read n).map some

end Node

end ToneScript.Yaml
