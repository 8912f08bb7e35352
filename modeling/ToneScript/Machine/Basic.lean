import Std.Data.TreeMap
import ToneScript.Machine.Action
import ToneScript.Machine.Value

/-!
# The evaluator

The meaning of a program is built up by semantic actions that work on a stack of
operands and a store of variables.  An action that fails reports one fault and
puts nothing back: the operands it has taken are gone.

## Main definitions

* `Machine` — stack, store and result.
* `Machine.perform` — one action.
-/

namespace ToneScript

/-- What can lie on the stack: a value, or the name of a variable that is about to
be assigned or read. -/
inductive Operand where
  /-- A value. -/
  | value (v : Value)
  /-- The name of a variable. -/
  | name (x : String)
deriving DecidableEq, Repr

/-- The variables assigned so far, in the order of their names. -/
abbrev Store := Std.TreeMap String Value

/-- The state of the evaluator. -/
structure Machine where
  /-- The operands, the topmost first. -/
  stack : List Operand := []
  /-- The variables. -/
  store : Store := ∅
  /-- The text of the program, once the final action has found one. -/
  output : Option String := none

namespace Machine

/-- Pushes an operand. -/
def push (m : Machine) (x : Operand) : Machine := { m with stack := x :: m.stack }

/-- Removes the `n` topmost operands, or all if there are fewer. -/
def drop (m : Machine) (n : Nat) : Machine := { m with stack := m.stack.drop n }

/-- The machine after an action, and the fault if the action has failed. -/
abbrev Effect := Machine × Option Value.Fault

/-- Pushes a result, or reports why there is none. -/
def conclude (m : Machine) : Except Value.Fault Value → Effect
  | .ok v => (m.push (.value v), none)
  | .error e => (m, some e)

/-- Pushes the value of a variable. -/
def lookup (m : Machine) (x : String) : Effect :=
  m.conclude (match m.store[x]? with
    | some v => .ok v
    | none => .error (.undefinedVariable x))

/-- Replaces the two topmost operands by `f lhs rhs`, where the right one lies on top.
If they are not two values, `e` is the fault. -/
def combine (m : Machine) (f : Value → Value → Except Value.Fault Value) (e : Value.Fault) :
    Effect :=
  (m.drop 2).conclude (match m.stack with
    | .value rhs :: .value lhs :: _ => f lhs rhs
    | _ => .error e)

/-- Performs an action.  The lexeme is the text of the next token, or empty at the end
of the program. -/
def perform (m : Machine) (a : Action) (lexeme : String) : Effect :=
  match a with
  | .printFinalResult =>
    match m.stack with
    | .value (.text s) :: _ => ({ m.drop 1 with output := some s }, none)
    | _ => (m.drop 1, some .noText)
  | .saveId => (m.push (.name lexeme), none)
  | .pushNumber =>
    m.conclude (match readNumber? lexeme with
      | some n => .ok (.number n)
      | none => .error (.badNumber lexeme))
  | .pushString => (m.push (.value (.text (unquote lexeme))), none)
  | .add => m.combine Value.add .noSum
  | .multiply => m.combine Value.mul .noProduct
  | .lookupAndPushValue => m.lookup lexeme
  | .lookupSavedId =>
    match m.stack with
    | .name x :: _ => (m.drop 1).lookup x
    | _ => (m.drop 1, some .noName)
  | .assign =>
    match m.stack with
    | .value v :: .name x :: _ => ({ m.drop 2 with store := m.store.insert x v }, none)
    | .value _ :: _ => (m.drop 2, some .noTarget)
    | _ => (m.drop 2, some .noValue)

@[simp] theorem stack_push (m : Machine) (x : Operand) : (m.push x).stack = x :: m.stack := rfl

@[simp] theorem store_push (m : Machine) (x : Operand) : (m.push x).store = m.store := rfl

@[simp] theorem output_push (m : Machine) (x : Operand) : (m.push x).output = m.output := rfl

@[simp] theorem stack_drop (m : Machine) (n : Nat) : (m.drop n).stack = m.stack.drop n := rfl

@[simp] theorem store_drop (m : Machine) (n : Nat) : (m.drop n).store = m.store := rfl

@[simp] theorem output_drop (m : Machine) (n : Nat) : (m.drop n).output = m.output := rfl

end Machine

end ToneScript
