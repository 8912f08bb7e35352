/-!
# Semantic actions

A grammar may name actions among its symbols.  An action matches nothing; when the
parser comes to it, the evaluator performs it.  This module holds the names.

## Main definitions

* `Action` — the nine actions.
* `Action.name`, `Action.ofName?` — their names, and the way back.
-/

namespace ToneScript

/-- What a grammar can ask the evaluator to do. -/
inductive Action where
  /-- Take the final text off the stack as the result. -/
  | printFinalResult
  /-- Push the name of a variable. -/
  | saveId
  /-- Store a value under a name. -/
  | assign
  /-- Push a number. -/
  | pushNumber
  /-- Push a text. -/
  | pushString
  /-- Add the two topmost values. -/
  | add
  /-- Multiply the two topmost values. -/
  | multiply
  /-- Push the value of the variable that is read. -/
  | lookupAndPushValue
  /-- Replace a name by the value of its variable. -/
  | lookupSavedId
deriving DecidableEq, Repr

namespace Action

/-- The name of an action, without the word that marks it in a grammar. -/
def name : Action → String
  | printFinalResult => "PrintFinalResult"
  | saveId => "SaveID"
  | assign => "Assign"
  | pushNumber => "PushNumber"
  | pushString => "PushString"
  | add => "Add"
  | multiply => "Multiply"
  | lookupAndPushValue => "LookupAndPushValue"
  | lookupSavedId => "LookupSavedID"

/-- All actions. -/
def all : List Action :=
  [printFinalResult, saveId, assign, pushNumber, pushString, add, multiply, lookupAndPushValue,
    lookupSavedId]

theorem mem_all (a : Action) : a ∈ all := by cases a <;> decide

/-- The action of a given name. -/
def ofName? (s : String) : Option Action := all.find? (·.name == s)

theorem ofName?_name (a : Action) : ofName? a.name = some a := by cases a <;> decide

theorem name_of_ofName?_eq_some {s : String} {a : Action} (h : ofName? s = some a) :
    a.name = s := by
  simpa using List.find?_some h

/-- In a grammar an action is written with the word `Action` before its name. -/
instance : ToString Action where
  toString a := "Action" ++ a.name

end Action

end ToneScript
