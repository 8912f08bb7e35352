import ToneScript.Parse.Descent
import ToneScript.Grammar.Text
import ToneScript.Grammar.Tone

/-!
# Compilation

A program is compiled to a text.  The text counts only if nothing at all was found
wrong with the program.

## Main definitions

* `Compilation` — the text, or what is wrong, and the derivation tree.
* `compile` — by any parse table.
* `Table.tone`, `Table.ofText` — the table of the tone grammar, and of a grammar that is
  given as a text.
-/

namespace ToneScript

/-- The result of compiling a program. -/
structure Compilation where
  /-- The text of the program, if nothing is wrong with it. -/
  finalResult : Option String
  /-- Everything that is wrong, in the order in which it was found. -/
  diagnostics : List Diagnostic
  /-- The derivation tree. -/
  tree : Option Tree

namespace Compilation

/-- What a parse amounts to. -/
def ofOutcome (o : Parse.Outcome) : Compilation where
  finalResult := if o.report.isEmpty then o.output else none
  diagnostics := o.report.toList
  tree := o.tree

/-- Whether there is a result and nothing is wrong. -/
def isSuccess (c : Compilation) : Bool := c.diagnostics.isEmpty && c.finalResult.isSome

end Compilation

/-- Compiles a program; `none` if the grammar sends the parser round in circles. -/
def compile (t : Table) (source : String) : Option Compilation :=
  (Parse.run t source).map .ofOutcome

namespace Table

/-- The table of the tone grammar. -/
def tone : Table := compute .tone

/-- Why a text does not yield a parse table. -/
inductive Refusal where
  /-- It is not a grammar. -/
  | grammar (fault : Grammar.Fault)
  /-- The grammar is not predictive. -/
  | conflict (c : Conflict)
deriving DecidableEq, Repr

/-- The wording of a refusal. -/
def Refusal.message : Refusal → String
  | grammar fault => fault.message
  | conflict c => c.message

/-- The parse table of a grammar that is given as a text. -/
def ofText (text : String) : Except Refusal Table :=
  match Grammar.ofText text with
  | .error e => .error (.grammar e)
  | .ok g => match build g with
    | .error c => .error (.conflict c)
    | .ok t => .ok t

end Table

end ToneScript
