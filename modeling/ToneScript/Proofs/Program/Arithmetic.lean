import ToneScript.Proofs.Program.Syntax
import ToneScript.Machine.Basic

/-!
# The evaluator computes as the language says

The operators of the language are given on trees by unbounded arithmetic and a bound on the
result.  The evaluator decides beforehand whether a result is within bounds; here both are
shown to agree, operation by operation.

## Main definitions

* `Machine.step?` — an action that has to succeed.
* `Machine.env` — the variables of a machine.

## Main statements

* `Program.toOption_add`, `Program.toOption_mul` — the operators.
* `Program.readNumber?_digits`, `Program.unquote_tones` — the literals.
* `Machine.step?_add` and its neighbours — the actions.
-/

namespace ToneScript

namespace Program

/-! ## Operators -/

theorem utf8ByteSize_join_replicate (s : String) (n : Nat) :
    (String.join (List.replicate n s)).utf8ByteSize = s.utf8ByteSize * n := by
  induction n with
  | zero => rfl
  | succ n ih =>
      rw [List.replicate_succ, String.join_cons, String.utf8ByteSize_append, ih, Nat.mul_succ,
        Nat.add_comm]

theorem copies_eq_join (s : String) (n : Nat) : copies s n = String.join (List.replicate n s) := by
  rw [← String.toList_inj, toList_copies, String.toList_join, List.flatMap_replicate]

theorem toOption_ofRepeated (s : String) (n : Int) :
    (Value.ofRepeated s n).toOption = bounded (String.join (List.replicate n.toNat s)) := by
  rw [Value.ofRepeated, repeated?, bounded, utf8ByteSize_join_replicate, copies_eq_join]
  by_cases h : s.utf8ByteSize * n.toNat ≤ maxTextSize
  · rw [if_pos h, if_pos h]
    rfl
  · rw [if_neg h, if_neg h]
    rfl

theorem toOption_checked (n : Int) :
    Except.toOption (match checked n with
      | some n => .ok (.number n)
      | none => .error .overflow : Except Value.Fault Value) = fit n := by
  rw [checked, fit]
  by_cases h : IsNumber n
  · rw [if_pos h, if_pos h]
    rfl
  · rw [if_neg h, if_neg h]
    rfl

theorem toOption_add (v w : Value) : (Value.add v w).toOption = plus v w := by
  cases v with
  | number a =>
      cases w with
      | number b => exact toOption_checked (a + b)
      | text t => rfl
  | text s =>
      cases w with
      | number b => rfl
      | text t =>
          rw [Value.add, plus, bounded, String.utf8ByteSize_append]
          by_cases h : s.utf8ByteSize + t.utf8ByteSize ≤ maxTextSize
          · rw [if_pos h, if_pos h]
            rfl
          · rw [if_neg h, if_neg h]
            rfl

theorem toOption_mul (v w : Value) : (Value.mul v w).toOption = times v w := by
  cases v with
  | number a =>
      cases w with
      | number b => exact toOption_checked (a * b)
      | text t => exact toOption_ofRepeated t a
  | text s =>
      cases w with
      | number b => exact toOption_ofRepeated s b
      | text t => rfl

/-! ## Literals -/

theorem ofDigits_eq (ds : List Char) :
    Numeral.ofDigits ds = Nat.ofDigits 10 (ds.reverse.map fun c => c.toNat - '0'.toNat) := by
  rw [Nat.ofDigits_eq_foldr, List.foldr_map, List.foldr_reverse, Numeral.ofDigits]
  simp only [Numeral.digitValue, Nat.cast_id, Nat.add_comm]

theorem readNumber?_digits (d : Digits) :
    (readNumber? d.text).map Value.number = fit d.toNat := by
  rw [readNumber?, Numeral.readInt?_of_all_isDigit d.ne_nil d.isDigit, ofDigits_eq,
    ← Digits.toNat, Option.bind_some]
  by_cases h : IsNumber d.toNat
  · simp [checked, fit, h]
  · simp [checked, fit, h]

theorem unquote_tones (s : Tones) : unquote ("\"" ++ s.text ++ "\"") = s.text := by
  have hcs : ("\"" ++ s.text ++ "\"").toList = '"' :: (s.text.toList ++ ['"']) := by
    simp
  rw [unquote, hcs]
  simp

end Program

namespace Machine

/-! ## Actions -/

/-- The machine after an action, provided that the action succeeds. -/
def step? (m : Machine) (a : Action) (lexeme : String) : Option Machine :=
  match m.perform a lexeme with
  | (m', none) => some m'
  | (_, some _) => none

/-- The variables of a machine. -/
def env (m : Machine) : Program.Env := fun x => m.store[x]?

/-- Pushes a value. -/
def pushValue (m : Machine) (v : Value) : Machine := m.push (.value v)

@[simp] theorem env_pushValue (m : Machine) (v : Value) : (m.pushValue v).env = m.env := rfl

@[simp] theorem env_push (m : Machine) (x : Operand) : (m.push x).env = m.env := rfl

theorem drop_push (m : Machine) (x : Operand) : (m.push x).drop 1 = m := rfl

theorem step?_eq_of_conclude {m m' : Machine} {a : Action} {lexeme : String}
    {r : Except Value.Fault Value} (h : m.perform a lexeme = m'.conclude r) :
    m.step? a lexeme = r.toOption.map m'.pushValue := by
  rw [step?, h]
  cases r <;> rfl

theorem step?_pushString (m : Machine) (s : Program.Tones) :
    m.step? .pushString ("\"" ++ s.text ++ "\"") = some (m.pushValue (.text s.text)) := by
  rw [step?, perform, Program.unquote_tones]
  rfl

theorem step?_pushNumber (m : Machine) (d : Program.Digits) :
    m.step? .pushNumber d.text = (Program.fit d.toNat).map m.pushValue := by
  rw [step?_eq_of_conclude rfl, ← Program.readNumber?_digits]
  cases readNumber? d.text <;> rfl

theorem step?_lookupAndPushValue (m : Machine) (x : String) :
    m.step? .lookupAndPushValue x = (m.env x).map m.pushValue := by
  rw [step?_eq_of_conclude rfl, env]
  cases m.store[x]? <;> rfl

theorem step?_saveId (m : Machine) (x : String) : m.step? .saveId x = some (m.push (.name x)) :=
  rfl

theorem step?_lookupSavedId (m : Machine) (x lexeme : String) :
    (m.push (.name x)).step? .lookupSavedId lexeme = (m.env x).map m.pushValue := by
  rw [step?_eq_of_conclude rfl, env, drop_push]
  cases m.store[x]? <;> rfl

theorem step?_add (m : Machine) (v w : Value) (lexeme : String) :
    ((m.pushValue v).pushValue w).step? .add lexeme = (Program.plus v w).map m.pushValue := by
  rw [step?_eq_of_conclude rfl, ← Program.toOption_add]
  rfl

theorem step?_multiply (m : Machine) (v w : Value) (lexeme : String) :
    ((m.pushValue v).pushValue w).step? .multiply lexeme = (Program.times v w).map m.pushValue := by
  rw [step?_eq_of_conclude rfl, ← Program.toOption_mul]
  rfl

/-- The machine with a value stored under a name. -/
def assign (m : Machine) (x : String) (v : Value) : Machine :=
  { m with store := m.store.insert x v }

theorem step?_assign (m : Machine) (x : String) (v : Value) (lexeme : String) :
    ((m.push (.name x)).pushValue v).step? .assign lexeme = some (m.assign x v) := rfl

theorem env_assign (m : Machine) (x : String) (v : Value) :
    (m.assign x v).env = Function.update m.env x (some v) := by
  funext y
  rw [env, assign, Std.TreeMap.getElem?_insert, Function.update_apply]
  by_cases h : y = x
  · rw [if_pos h, if_pos (by simp [h])]
  · have hne : compare x y ≠ .eq := fun heq => h (Std.LawfulEqOrd.eq_of_compare heq).symm
    rw [if_neg h, if_neg hne]
    rfl

end Machine

end ToneScript
