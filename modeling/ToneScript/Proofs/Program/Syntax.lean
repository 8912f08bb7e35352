import Mathlib.Data.Nat.Digits.Defs
import ToneScript.Machine.Value
import ToneScript.Token.Basic
import ToneScript.Token.Alphabet

/-!
# Programs as trees

The tone language, apart from any parser: its programs as trees, how they are spelled, and
what they mean.  Statements are evaluated one after the other over one store of variables.
Sums and products are taken from the left.  Where an operation has no result, the program
has none.

## Main definitions

* `Program.Factor`, `Program.Term`, `Program.Expr`, `Program.Statement`, `Program` — the trees.
* `Program.spelling` — the tokens of a program.
* `Program.plus`, `Program.times` — the two operators.
* `Program.Expr.eval`, `Program.Statement.run`, `Program.result` — the meaning.
-/

namespace ToneScript

namespace Program

/-! ## Trees -/

/-- The text of a tone literal. -/
structure Tones where
  /-- The text, without its quotes. -/
  text : String
  isTone : text.toList.all Alphabet.isTone

/-- A run of digits. -/
structure Digits where
  /-- The digits. -/
  text : String
  ne_nil : text.toList ≠ []
  isDigit : text.toList.all Char.isDigit

/-- A name: a letter, and letters and digits behind it. -/
structure Name where
  /-- The characters of the name. -/
  text : String
  ne_nil : text.toList ≠ []
  isAlpha_head : (text.toList.head ne_nil).isAlpha
  isAlphanum : text.toList.all Char.isAlphanum

mutual

/-- What is multiplied. -/
inductive Factor where
  /-- A text. -/
  | literal (s : Tones)
  /-- A number. -/
  | number (d : Digits)
  /-- The value of a variable. -/
  | var (x : Name)
  /-- An expression in parentheses. -/
  | group (e : Expr)

/-- Factors with stars in between. -/
inductive Term where
  /-- The first factor, and the others. -/
  | product (f : Factor) (fs : List Factor)

/-- Terms with plus signs in between. -/
inductive Expr where
  /-- The first term, and the others. -/
  | sum (t : Term) (ts : List Term)

end

/-- A statement, its semicolon not included. -/
inductive Statement where
  /-- An expression is stored under a name. -/
  | assign (x : Name) (e : Expr)
  /-- An expression is evaluated for its own sake. -/
  | value (e : Expr)

end Program

/-- A program: any number of statements, and then an expression. -/
structure Program where
  /-- The statements before the last one. -/
  statements : List Program.Statement
  /-- The expression of the last one. -/
  last : Program.Expr

namespace Program

/-! ## Spelling -/

/-- What counts of a token: its class and its text. -/
abbrev Word := Token.Category × String

/-- A punctuation mark. -/
def mark (x : String) : Word := (.symbol, x)

mutual

/-- The tokens of a factor. -/
def Factor.spelling : Factor → List Word
  | .literal s => [(.literal, "\"" ++ s.text ++ "\"")]
  | .number d => [(.number, d.text)]
  | .var x => [(.identifier, x.text)]
  | .group e => mark "(" :: e.spelling ++ [mark ")"]

/-- The tokens of a product. -/
def Term.spelling : Term → List Word
  | .product f fs => f.spelling ++ Term.spellingRest fs

/-- The tokens of the further factors of a product. -/
def Term.spellingRest : List Factor → List Word
  | [] => []
  | f :: fs => mark "*" :: f.spelling ++ Term.spellingRest fs

/-- The tokens of a sum. -/
def Expr.spelling : Expr → List Word
  | .sum t ts => t.spelling ++ Expr.spellingRest ts

/-- The tokens of the further terms of a sum. -/
def Expr.spellingRest : List Term → List Word
  | [] => []
  | t :: ts => mark "+" :: t.spelling ++ Expr.spellingRest ts

end

/-- The tokens of a statement and its semicolon. -/
def Statement.spelling : Statement → List Word
  | .assign x e => (.identifier, x.text) :: mark "=" :: e.spelling ++ [mark ";"]
  | .value e => e.spelling ++ [mark ";"]

/-- The tokens of a program. -/
def spelling (p : Program) : List Word :=
  p.statements.flatMap Statement.spelling ++ p.last.spelling ++ [mark ";"]

/-! ## Operators -/

/-- A number, if it is one of the language. -/
def fit (n : Int) : Option Value := if IsNumber n then some (.number n) else none

/-- A text, if it is not too long. -/
def bounded (s : String) : Option Value :=
  if s.utf8ByteSize ≤ maxTextSize then some (.text s) else none

/-- Numbers are added and texts are joined. -/
def plus : Value → Value → Option Value
  | .number a, .number b => fit (a + b)
  | .text s, .text t => bounded (s ++ t)
  | _, _ => none

/-- Numbers are multiplied.  A text is repeated as often as the number on the other side
says, and not at all if that is negative. -/
def times : Value → Value → Option Value
  | .number a, .number b => fit (a * b)
  | .text s, .number n => bounded (String.join (List.replicate n.toNat s))
  | .number n, .text s => bounded (String.join (List.replicate n.toNat s))
  | .text _, .text _ => none

/-! ## Meaning -/

/-- The variables that have been assigned. -/
abbrev Env := String → Option Value

/-- The number that a run of digits denotes. -/
def Digits.toNat (d : Digits) : Nat :=
  Nat.ofDigits 10 (d.text.toList.reverse.map fun c => c.toNat - '0'.toNat)

mutual

/-- The value of a factor. -/
def Factor.eval (env : Env) : Factor → Option Value
  | .literal s => some (.text s.text)
  | .number d => fit d.toNat
  | .var x => env x.text
  | .group e => e.eval env

/-- The value of a product. -/
def Term.eval (env : Env) : Term → Option Value
  | .product f fs => (f.eval env).bind (Term.evalRest env fs)

/-- The value of a product whose first factors amount to `v`. -/
def Term.evalRest (env : Env) : List Factor → Value → Option Value
  | [], v => some v
  | f :: fs, v => ((f.eval env).bind (times v)).bind (Term.evalRest env fs)

/-- The value of a sum. -/
def Expr.eval (env : Env) : Expr → Option Value
  | .sum t ts => (t.eval env).bind (Expr.evalRest env ts)

/-- The value of a sum whose first terms amount to `v`. -/
def Expr.evalRest (env : Env) : List Term → Value → Option Value
  | [], v => some v
  | t :: ts, v => ((t.eval env).bind (plus v)).bind (Expr.evalRest env ts)

end

/-- The variables after a statement, if it has a value at all. -/
def Statement.run (env : Env) : Statement → Option Env
  | .assign x e => (e.eval env).map fun v => Function.update env x.text (some v)
  | .value e => (e.eval env).map fun _ => env

/-- The variables after some statements. -/
def runAll (env : Env) : List Statement → Option Env
  | [] => some env
  | c :: cs => (c.run env).bind fun env => runAll env cs

/-- The text of a value that is one. -/
def text? : Value → Option String
  | .text s => some s
  | .number _ => none

/-- The text that a program stands for.  There is none unless every statement has a value
and the last value is a text. -/
def result (p : Program) : Option String :=
  ((runAll (fun _ => none) p.statements).bind p.last.eval).bind text?

end Program

end ToneScript
