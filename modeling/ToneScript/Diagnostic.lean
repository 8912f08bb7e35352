import ToneScript.Token.Scan
import ToneScript.Machine.Value

/-!
# Diagnostics

Everything that can be wrong with a program is recorded as a diagnostic: a line, and
a cause.  The kind and the wording of a diagnostic follow from its cause, so two
diagnostics that read the same for a given kind of cause are the same.  A report
keeps diagnostics in the order in which they were found.

## Main definitions

* `Diagnostic.Cause` — what is wrong, with its kind and its wording.
* `Diagnostic` — a cause and a line.
* `Report` — the diagnostics of one program.
* `Scan.diagnostic?` — what a scan has to report.
-/

namespace ToneScript

/-- The three kinds of diagnostics, by the stage that finds them. -/
inductive Diagnostic.Kind where
  /-- The text cannot be cut into tokens. -/
  | lexical
  /-- The tokens do not follow the grammar. -/
  | semantic
  /-- An action cannot be performed. -/
  | logical
deriving DecidableEq, Repr

/-- The name of a kind, as it stands in listings. -/
def Diagnostic.Kind.name : Kind → String
  | lexical => "Lexical"
  | semantic => "Semantic"
  | logical => "Logical"

/-- What is wrong. -/
inductive Diagnostic.Cause where
  /-- This text is not a token. -/
  | lexeme (fault : Scan.Fault) (text : String)
  /-- This token cannot stand here and is skipped. -/
  | illegal (terminal : String)
  /-- This symbol should stand here and is taken as read. -/
  | missing (symbol : String)
  /-- The program ends too early. -/
  | unexpectedEnd
  /-- An action failed. -/
  | action (fault : Value.Fault)
  /-- A remark in free words. -/
  | remark (kind : Diagnostic.Kind) (message : String)
deriving DecidableEq, Repr

namespace Diagnostic.Cause

/-- The kind of a cause. -/
def kind : Cause → Kind
  | lexeme _ _ => .lexical
  | illegal _ | missing _ | unexpectedEnd => .semantic
  | action _ => .logical
  | remark k _ => k

/-- The wording of a cause. -/
def message : Cause → String
  | lexeme fault text => fault.message ++ ": " ++ text
  | illegal terminal => "Illegal " ++ terminal
  | missing symbol => "Missing " ++ symbol
  | unexpectedEnd => "Unexpected EOF"
  | action fault => fault.message
  | remark _ message => message

end Diagnostic.Cause

/-- Something wrong with a program, and where. -/
structure Diagnostic where
  /-- The line it was found on. -/
  line : Nat
  /-- What is wrong. -/
  cause : Diagnostic.Cause
deriving DecidableEq, Repr

namespace Diagnostic

/-- The kind of a diagnostic. -/
def kind (d : Diagnostic) : Kind := d.cause.kind

/-- The wording of a diagnostic. -/
def message (d : Diagnostic) : String := d.cause.message

/-- One line of an error listing. -/
instance : ToString Diagnostic where
  toString d := "[line " ++ toString d.line ++ "] " ++ d.kind.name ++ ": " ++ d.message

end Diagnostic

/-- What a scan has to report. -/
def Scan.diagnostic? : Scan → Option Diagnostic
  | invalid fault text line => some ⟨line, .lexeme fault text⟩
  | truncated text line => some ⟨line, .lexeme .truncation text⟩
  | token _ | done => none

/-- The diagnostics of a program in the order in which they were found. -/
structure Report where
  /-- The diagnostics. -/
  entries : Array Diagnostic := #[]
deriving DecidableEq, Repr

namespace Report

/-- Adds the newest diagnostic. -/
def push (r : Report) (d : Diagnostic) : Report := ⟨r.entries.push d⟩

/-- The diagnostics, oldest first. -/
def toList (r : Report) : List Diagnostic := r.entries.toList

/-- Whether nothing has been reported. -/
def isEmpty (r : Report) : Bool := r.entries.isEmpty

/-- The number of diagnostics. -/
def size (r : Report) : Nat := r.entries.size

/-- Reports that something of this name is missing on this line. -/
def missing (r : Report) (symbol : String) (line : Nat) : Report :=
  r.push ⟨line, .missing symbol⟩

/-- Reports that this token is out of place. -/
def illegal (r : Report) (terminal : String) (line : Nat) : Report :=
  r.push ⟨line, .illegal terminal⟩

/-- Reports that the program ends too early. -/
def unexpectedEnd (r : Report) (line : Nat) : Report := r.push ⟨line, .unexpectedEnd⟩

@[simp, grind =] theorem toList_empty : ({} : Report).toList = [] := rfl

@[simp, grind =] theorem toList_push (r : Report) (d : Diagnostic) :
    (r.push d).toList = r.toList ++ [d] := by
  simp [toList, push]

@[simp] theorem toList_missing (r : Report) (x : String) (n : Nat) :
    (r.missing x n).toList = r.toList ++ [⟨n, .missing x⟩] := toList_push ..

@[simp] theorem toList_illegal (r : Report) (x : String) (n : Nat) :
    (r.illegal x n).toList = r.toList ++ [⟨n, .illegal x⟩] := toList_push ..

@[simp] theorem toList_unexpectedEnd (r : Report) (n : Nat) :
    (r.unexpectedEnd n).toList = r.toList ++ [⟨n, .unexpectedEnd⟩] := toList_push ..

theorem isEmpty_iff (r : Report) : r.isEmpty ↔ r.toList = [] := by
  simp [isEmpty, toList, Array.isEmpty_iff, ← Array.toList_eq_nil_iff]

end Report

end ToneScript
