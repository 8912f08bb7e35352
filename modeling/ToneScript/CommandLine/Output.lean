import ToneScript.Settings
import ToneScript.Token.Listing

/-!
# What the command prints

## Main definitions

* `CommandLine.Output` — the two outputs of a run and its exit code.
* `CommandLine.Output.ofListing`, `CommandLine.Output.ofCompilation` — the output for the
  tokens of a program, and for a compiled program.
-/

namespace ToneScript.CommandLine

/-- The outputs of a run and its exit code. -/
structure Output where
  /-- The standard output. -/
  stdout : String := ""
  /-- The standard error. -/
  stderr : String := ""
  /-- The exit code. -/
  exitCode : Nat := 0
deriving DecidableEq, Repr

/-- Texts, each on a line. -/
def lines (l : List String) : String := String.join (l.map (· ++ "\n"))

@[simp] theorem lines_nil : lines [] = "" := rfl

@[simp] theorem lines_cons (s : String) (l : List String) :
    lines (s :: l) = s ++ "\n" ++ lines l := by
  simp [lines]

@[simp] theorem lines_append (l k : List String) : lines (l ++ k) = lines l ++ lines k := by
  simp [lines]

/-- Nothing is printed only if there is no line at all. -/
theorem lines_eq_empty_iff {l : List String} : lines l = "" ↔ l = [] := by
  cases l <;> simp

/-- A number that takes up at least the given width, with spaces to its left. -/
def rightAligned (width n : Nat) : String :=
  let digits := toString n
  String.ofList (List.replicate (width - digits.length) ' ') ++ digits

namespace Output

/-- The output of a run that could not do its work. -/
def failure (message : String) (exitCode : Nat := 1) : Output :=
  { stderr := message ++ "\n", exitCode }

/-- Every token that is not trivia on a line, behind the line of the program that it stands
on. -/
def ofListing (l : Listing) : Output where
  stdout := lines (l.significant.map fun t => rightAligned 4 t.line ++ "  " ++ toString t)
  stderr := lines (l.diagnostics.map toString)
  exitCode := if l.diagnostics.isEmpty then 0 else 1

/-- The complaint about a result that does not keep to the limit. -/
def withheldMessage (limit : Nat) : String :=
  "output exceeds max_output_len (" ++ toString limit ++ " characters)"

/-- What is said of a derivation tree that is wanted and not there. -/
def treeRemarks (tree : Bool) (c : Compilation) : List String :=
  if tree && c.tree.isNone then ["no derivation tree"] else []

/-- What is said of a program and its result: everything that is wrong, and that the result is
withheld. -/
def complaints (s : Settings) (c : Compilation) : List String :=
  (s.enforce c).diagnostics.map toString ++
    (if s.withholds c then s.maxOutputLength else none).toList.map withheldMessage

/-- What tells of the result of a compilation: its JSON, or the result if there is one. -/
def resultLines (render : Compilation → Except String String) (json : Bool) (c : Compilation) :
    Except String (List String) :=
  if json then (render c).map ([·]) else .ok c.finalResult.toList

/-- The result of a compilation, in JSON or on a line of its own, behind the derivation tree
if that is wanted.  The run has failed if there is no result or it must be withheld.  If there is
no JSON it breaks off, before it says what is wrong with the program. -/
def ofCompilation (render : Compilation → Except String String) (json tree : Bool) (s : Settings)
    (c : Compilation) : Output :=
  let drawn := if tree then c.tree.elim "" toString else ""
  match resultLines render json (s.enforce c) with
  | .error message =>
    { stdout := drawn
      stderr := lines (treeRemarks tree c ++ ["failed to render JSON: " ++ message])
      exitCode := 1 }
  | .ok result =>
    { stdout := drawn ++ lines result
      stderr := lines (treeRemarks tree c ++ complaints s c)
      exitCode := if !(s.enforce c).isSuccess || s.withholds c then 1 else 0 }

end Output

end ToneScript.CommandLine
