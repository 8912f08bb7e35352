/-!
# What is asked of the command

The command takes the path of a source, flags, and the path of a file of settings.  How these are
written as arguments is left to the module for arguments.

## Main definitions

* `CommandLine.Flag` — the flags.
* `CommandLine.Options` — what a run is asked to do.
-/

namespace ToneScript.CommandLine

/-- The flags of the command. -/
inductive Flag where
  /-- Print the result as JSON. -/
  | json
  /-- Print the derivation tree. -/
  | tree
  /-- Print the tokens and nothing else. -/
  | tokens
  /-- Print the table of the grammar and nothing else. -/
  | grammar
deriving DecidableEq, Repr

/-- What a run is asked to do. -/
structure Options (Path : Type := String) where
  /-- The path of the source; without one it is the standard input. -/
  source : Option Path := none
  /-- The path of the settings; without one it is the standard place. -/
  settings : Option Path := none
  /-- The flags that are raised. -/
  flags : List Flag := []
deriving DecidableEq, Repr

/-- Whether a flag is raised. -/
def Options.has {Path : Type} (o : Options Path) (f : Flag) : Bool := f ∈ o.flags

end ToneScript.CommandLine
