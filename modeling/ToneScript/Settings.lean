import ToneScript.Compile
import ToneScript.File
import ToneScript.Text.Words

/-!
# Settings

Every setting has a value if it is not made, and a file that is missing or blank makes none.
How settings are written in any other file is left to the reader that `Settings.load` is given.

## Main definitions

* `Settings` — the settings of the command.
* `Settings.allows`, `Settings.enforce` — the limit on the length of a result.
* `Settings.load` — the settings that a file makes, by a reader of its text.
-/

namespace ToneScript

/-- The settings of the command. -/
structure Settings where
  /-- The largest number of characters of a result, if there is a limit. -/
  maxOutputLength : Option Nat := none
  /-- Whether a result is printed as JSON. -/
  json : Bool := false
  /-- Whether the derivation tree is printed. -/
  showTree : Bool := false
deriving DecidableEq, Repr

namespace Settings

/-! ## The limit -/

/-- Whether a text keeps to the limit. -/
def allows (s : Settings) (text : String) : Bool := s.maxOutputLength.all (text.length ≤ ·)

/-- Whether a compilation has a result that does not keep to the limit. -/
def withholds (s : Settings) (c : Compilation) : Bool := c.finalResult.any (!s.allows ·)

/-- Takes the result away if it does not keep to the limit. -/
def enforce (s : Settings) (c : Compilation) : Compilation :=
  if s.withholds c then { c with finalResult := none } else c

theorem allows_of_no_limit {s : Settings} (h : s.maxOutputLength = none) (text : String) :
    s.allows text = true := by
  simp [allows, h]

/-- What remains of a result keeps to the limit. -/
theorem allows_of_mem_enforce {s : Settings} {c : Compilation} {text : String}
    (h : (s.enforce c).finalResult = some text) : s.allows text = true := by
  unfold enforce at h
  split at h
  · simp at h
  · rename_i hw
    simpa [withholds, h] using hw

/-! ## Files of settings -/

/-- The settings that a file makes, if `read` takes them from a text.  A file that is missing or
blank makes none. -/
def load (read : String → Except String Settings) : File → Except String Settings
  | .missing _ => .ok {}
  | f => do
    let text ← f.text
    if Text.trim text.toList = [] then .ok {} else read text

theorem load_ofText (read : String → Except String Settings) (text : String) :
    load read (.ofText text) = if Text.trim text.toList = [] then .ok {} else read text := by
  have htext : (File.content text.toUTF8).text = .ok text := File.text_ofText text
  simp only [File.ofText, load, htext, bind, Except.bind]

end Settings

end ToneScript
