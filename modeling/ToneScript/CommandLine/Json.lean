import ToneScript.Compile
import ToneScript.Text.Quoted

/-!
# Compilations in JSON

The writer of JSON that the command is run with.  The command itself is written for any writer,
be it one that can fail, and what is proved of it is proved for all of them.

## Main definitions

* `Compilation.json` — a compilation as JSON.
-/

namespace ToneScript

/-- A diagnostic as JSON. -/
def Diagnostic.json (d : Diagnostic) : String :=
  "    \x7b\n      \"line\": " ++ toString d.line ++ ",\n      \"message\": " ++
    Text.quoted d.message ++ ",\n      \"kind\": " ++ Text.quoted d.kind.name ++ "\n    \x7d"

/-- A compilation as JSON, without the derivation tree. -/
def Compilation.json (c : Compilation) : String :=
  let result := c.finalResult.elim "null" Text.quoted
  let faults := c.diagnostics.map Diagnostic.json
  let list := if faults = [] then "[]" else "[\n" ++ ",\n".intercalate faults ++ "\n  ]"
  "\x7b\n  \"finalResult\": " ++ result ++ ",\n  \"compilationErrors\": " ++ list ++ "\n\x7d"

end ToneScript
