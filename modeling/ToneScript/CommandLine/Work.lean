import ToneScript.CommandLine.Output
import ToneScript.CommandLine.Surroundings

/-!
# The work of the command

Once it is known what a run is asked to do, it reads the settings, then the source, and compiles
it.

## Main definitions

* `CommandLine.work` — what a run prints that does its work.
-/

namespace ToneScript.CommandLine

/-- The output of a run that cannot read its settings. -/
def settingsFailure (message : String) : Output := .failure ("failed to load config: " ++ message)

/-- The output of a run that cannot read its source. -/
def sourceFailure (message : String) : Output := .failure ("failed to read source: " ++ message)

variable {m : Type → Type} [Monad m] {Path : Type}

/-- Whether the result is printed as JSON. -/
def Options.wantsJson (o : Options Path) (s : Settings) : Bool := o.has .json || s.json

/-- Whether the derivation tree is printed. -/
def Options.wantsTree (o : Options Path) (s : Settings) : Bool := o.has .tree || s.showTree

/-- The output for a source, once the settings are read. -/
def compileSource (f : Formats) (o : Options Path) (s : Settings) (source : String) : Output :=
  if o.has .tokens then .ofListing (tokenize source)
  else match compile .tone source with
    | some c => .ofCompilation f.json (o.wantsJson s) (o.wantsTree s) s c
    | none => .failure "the grammar does not let a parse end"

/-- The work of the command. -/
def work [PathType Path] (f : Formats) (around : Surroundings m Path) (o : Options Path) :
    m Output := do
  match f.readSettings o.settings (← around.settingsFile o) with
  | .error message => return settingsFailure message
  | .ok s =>
    if o.has .grammar then return { stdout := toString Table.tone }
    match (← around.sourceFile o).text with
    | .error message => return sourceFailure message
    | .ok source => return compileSource f o s source

end ToneScript.CommandLine
