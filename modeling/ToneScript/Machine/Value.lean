import ToneScript.Text.Numeral

/-!
# Values and their arithmetic

A tone program computes with numbers and texts.  Numbers are signed 64-bit
integers and never wrap: a sum or product that does not fit is a fault.  Texts can
be joined and repeated up to a fixed length, and one that would become longer is a
fault as well.

## Main definitions

* `Value` — a number or a text.
* `Value.Fault` — what can go wrong in an action.
* `Value.add`, `Value.mul` — the two operators of the language.
* `copies` — a text written a number of times.
* `unquote` — the text between the quotes of a literal.
-/

namespace ToneScript

/-- What a variable can hold. -/
inductive Value where
  /-- A number. -/
  | number (n : Int)
  /-- A text. -/
  | text (s : String)
deriving DecidableEq, Repr

/-- Why an action fails. -/
inductive Value.Fault where
  /-- The result of the program is not a text. -/
  | noText
  /-- The lexeme is no number of the language. -/
  | badNumber (lexeme : String)
  /-- A sum or product does not fit a number. -/
  | overflow
  /-- Two texts joined exceed the limit. -/
  | tooLong
  /-- A text repeated exceeds the limit. -/
  | tooManyCopies
  /-- Two values have no sum. -/
  | noSum
  /-- Two values have no product. -/
  | noProduct
  /-- The variable has never been assigned. -/
  | undefinedVariable (name : String)
  /-- There is no name to look up. -/
  | noName
  /-- What is to be assigned is not a value. -/
  | noValue
  /-- What is to be assigned to is not a name. -/
  | noTarget
deriving DecidableEq, Repr

/-- The wording of a fault. -/
def Value.Fault.message : Fault → String
  | noText => "Final statement should be a string."
  | badNumber lexeme => "Invalid number " ++ lexeme
  | overflow => "Number overflow"
  | tooLong => "Text too long"
  | tooManyCopies => "Repetition too large"
  | noSum => "Adding unexpected values"
  | noProduct => "Multiplying unexpected values"
  | undefinedVariable name => "Undefined variable " ++ name ++ "."
  | noName => "Expected a variable name"
  | noValue => "Assigning invalid value."
  | noTarget => "Assigning to invalid variable."

/-! ## Numbers -/

/-- The numbers of the language: those of 64 bits with sign. -/
def IsNumber (n : Int) : Prop := -0x8000_0000_0000_0000 ≤ n ∧ n ≤ 0x7fff_ffff_ffff_ffff

instance (n : Int) : Decidable (IsNumber n) := inferInstanceAs (Decidable (_ ∧ _))

/-- The result of an exact computation, if it is a number of the language. -/
def checked (n : Int) : Option Int := if IsNumber n then some n else none

@[simp] theorem checked_eq_some_iff {n k : Int} : checked n = some k ↔ IsNumber n ∧ n = k := by
  simp [checked]

@[simp] theorem checked_eq_none_iff {n : Int} : checked n = none ↔ ¬ IsNumber n := by
  simp [checked]

/-- The number that a lexeme denotes. -/
def readNumber? (lexeme : String) : Option Int :=
  (Numeral.readInt? lexeme.toList).bind checked

/-! ## Texts -/

/-- The length in bytes that no sum or product of texts may exceed. -/
def maxTextSize : Nat := 1024 * 1024

/-- Appends `n` copies of `s` to `t`. -/
def copiesOnto (t s : String) : Nat → String
  | 0 => t
  | n + 1 => copiesOnto (t ++ s) s n

/-- The text `s` written `n` times.  The empty text is not written out at all, so
any number of copies of it takes no time. -/
def copies (s : String) (n : Nat) : String := if s = "" then "" else copiesOnto "" s n

theorem toList_copiesOnto (t s : String) (n : Nat) :
    (copiesOnto t s n).toList = t.toList ++ (List.replicate n s.toList).flatten := by
  induction n generalizing t with
  | zero => simp [copiesOnto]
  | succ n ih => simp [copiesOnto, ih, List.replicate_succ]

/-- The characters of a repeated text are those of the text, over and over. -/
theorem toList_copies (s : String) (n : Nat) :
    (copies s n).toList = (List.replicate n s.toList).flatten := by
  unfold copies
  split
  · simp_all
  · simp [toList_copiesOnto]

/-- The text `s` repeated `count` times, where a negative count means no copy at all,
unless the result exceeds the limit. -/
def repeated? (s : String) (count : Int) : Option String :=
  if s.utf8ByteSize * count.toNat ≤ maxTextSize then some (copies s count.toNat) else none

/-- The text between the quotes of a literal.  A lexeme that does not both begin and
end with a quote stands for itself. -/
def unquote (lexeme : String) : String :=
  match lexeme.toList with
  | '"' :: r => if r.getLast? = some '"' then String.ofList r.dropLast else lexeme
  | _ => lexeme

/-! ## The operators -/

namespace Value

/-- Sum of two numbers, or one text after the other. -/
def add : Value → Value → Except Fault Value
  | number a, number b => match checked (a + b) with
    | some n => .ok (number n)
    | none => .error .overflow
  | text s, text t =>
    if s.utf8ByteSize + t.utf8ByteSize ≤ maxTextSize then .ok (text (s ++ t)) else .error .tooLong
  | _, _ => .error .noSum

/-- A text repeated. -/
def ofRepeated (s : String) (count : Int) : Except Fault Value :=
  match repeated? s count with
  | some t => .ok (text t)
  | none => .error .tooManyCopies

/-- Product of two numbers, or a text repeated; for the latter the order of the
operands does not matter. -/
def mul : Value → Value → Except Fault Value
  | number a, number b => match checked (a * b) with
    | some n => .ok (number n)
    | none => .error .overflow
  | text s, number n | number n, text s => ofRepeated s n
  | text _, text _ => .error .noProduct

end Value

end ToneScript
