import ToneScript.Settings
import ToneScript.Yaml.Datum

/-!
# Settings in YAML

The reader that the command is run with: a file of settings is a YAML mapping, and keys that name
no setting are passed over.  The command itself is written for any reader, and what is proved of
it is proved for all of them.

## Main definitions

* `Settings.ofYaml` — the settings that a text makes.
* `Settings.ofFile` — the settings that a file makes.
-/

namespace ToneScript.Settings

/-- What can be set. -/
inductive Key where
  /-- The limit on the length of a result. -/
  | maxOutputLength
  /-- The form of a result. -/
  | json
  /-- The derivation tree. -/
  | showTree
deriving DecidableEq, Repr

/-- The name of a setting in a file. -/
def Key.name : Key → String
  | maxOutputLength => "max_output_len"
  | json => "json"
  | showTree => "show_tree"

/-- The setting with a name. -/
def Key.ofName? (name : List Char) : Option Key :=
  [maxOutputLength, json, showTree].find? (·.name.toList = name)

theorem Key.ofName?_name (k : Key) : ofName? k.name.toList = some k := by
  cases k <;> decide

/-- Why a text makes no settings. -/
inductive Fault where
  /-- It is not one YAML document. -/
  | document
  /-- The document is not a mapping. -/
  | notMapping
  /-- A key is not a text. -/
  | key
  /-- A setting is made twice. -/
  | repeated (key : Key)
  /-- A setting cannot have that value. -/
  | value (key : Key)
deriving DecidableEq, Repr

/-- The wording of a fault. -/
def Fault.message : Fault → String
  | document => "not a single YAML document"
  | notMapping => "settings should be a mapping"
  | key => "a key should be a string"
  | repeated k => "repeated setting " ++ k.name
  | value k => "invalid value for " ++ k.name

/-- The largest limit that can be set. -/
def maxLimit : Nat := 0xffff_ffff_ffff_ffff

/-- Reads a limit. -/
def limit? (n : Yaml.Node) : Option Nat := n.nat?.filter (· ≤ maxLimit)

/-- Makes a setting. -/
def set? (s : Settings) (k : Key) (n : Yaml.Node) : Option Settings :=
  match k with
  | .maxOutputLength => (n.optional? limit?).map fun m => { s with maxOutputLength := m }
  | .json => n.bool?.map fun b => { s with json := b }
  | .showTree => n.bool?.map fun b => { s with showTree := b }

/-- Makes the settings of the entries of a mapping; those with the keys `made` must not be
made again. -/
def addEntries (d : Yaml.Document) (s : Settings) (made : List Key) :
    List (Yaml.Node × Yaml.Node) → Except Fault Settings
  | [] => .ok s
  | (k, v) :: entries =>
    match (d.resolve k).bind (·.text?) with
    | none => .error .key
    | some name => match Key.ofName? name with
      | none => addEntries d s made entries
      | some key =>
        if key ∈ made then .error (.repeated key)
        else match (d.resolve v).bind (s.set? key) with
          | none => .error (.value key)
          | some s => addEntries d s (key :: made) entries

/-- The settings that a document makes.  One without a node, or with nothing but an empty
scalar, makes none. -/
def ofDocument (d : Yaml.Document) : Except Fault Settings :=
  match d.root with
  | none | some (.scalar _ .plain []) => .ok {}
  | some (.mapping entries) => addEntries d {} [] entries
  | some _ => .error .notMapping

/-- The settings that a text makes. -/
def ofYaml (text : String) : Except Fault Settings :=
  match Yaml.document? text with
  | some d => ofDocument d
  | none => .error .document

/-- The settings that a text makes, or what is wrong with it in words. -/
def readYaml (text : String) : Except String Settings := (ofYaml text).mapError (·.message)

/-- The settings that a file makes. -/
def ofFile (f : File) : Except String Settings := load readYaml f

end ToneScript.Settings
