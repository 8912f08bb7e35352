import ToneScript.Token.Basic
import ToneScript.Token.Alphabet

/-!
# The scanning automaton

One small automaton per class of lexeme, all entered from a common start state.
A transition is a *rule*: in this state, on these inputs, go to that state.  The
rules are tried in order, so an earlier rule keeps an input from a later one.  An
input that no rule takes leads to the sink, unless it is a character and the state
has a place for all of them.

The end of the text is an input of its own.  That is how a number at the very end
of a program is complete while a literal without its closing quote is not.

## Main definitions

* `Scan.State` — the states of the merged automaton.
* `Scan.Input` — a character, or the end of the text.
* `Scan.State.step` — the transition function.
* `Scan.State.verdict` — what a final state produces.
* `Scan.State.retracts` — the final states that have read one character too many.
-/

namespace ToneScript.Scan

/-- Why a piece of text is not a token. -/
inductive Fault where
  /-- The characters belong to no class of lexemes. -/
  | input
  /-- A number runs into a letter. -/
  | number
  /-- A literal holds something that is no tone. -/
  | literal
  /-- The text ends inside a lexeme. -/
  | truncation
deriving DecidableEq, Repr

/-- The wording of a fault; the offending text is added by the report. -/
def Fault.message : Fault → String
  | .input => "Invalid input"
  | .number => "Invalid number"
  | .literal => "Invalid string literal"
  | .truncation => "Unexpected end of input"

/-- What the automaton reads in one step. -/
inductive Input where
  /-- The next character of the text. -/
  | char (c : Char)
  /-- The end of the text. -/
  | eof
deriving DecidableEq, Repr

namespace Input

/-- Whether the input is the end of the text or a character that can start a lexeme. -/
def isKnown : Input → Bool
  | char c => Alphabet.isKnown c
  | eof => true

/-- The given characters, as inputs. -/
def chars (l : List Char) : List Input := l.map char

/-- The known inputs, one by one, without the given characters. -/
def knownExcept (l : List Char) : List Input :=
  (chars (Alphabet.digits ++ Alphabet.letters ++ Alphabet.symbols ++ Alphabet.blanks ++ ['/', '"'])
    ++ [eof]).filter fun
    | char c => !l.contains c
    | eof => true

variable {c : Char} {l : List Char}

@[simp] theorem char_mem_chars : char c ∈ chars l ↔ c ∈ l := by simp [chars]

@[simp] theorem eof_notMem_chars : eof ∉ chars l := by simp [chars]

@[simp] theorem char_mem_knownExcept : char c ∈ knownExcept l ↔ Alphabet.isKnown c ∧ c ∉ l := by
  rw [knownExcept, List.mem_filter, List.mem_append, char_mem_chars, ← Alphabet.isKnown_iff]
  simp

@[simp] theorem eof_mem_knownExcept : eof ∈ knownExcept l := by simp [knownExcept]

/-- The list of the known inputs and the test for them agree. -/
theorem mem_knownExcept_nil_iff (i : Input) : i ∈ knownExcept [] ↔ i.isKnown := by
  cases i <;> simp [isKnown]

end Input

/-- The states of the automaton, listed class by class.  Within a class the states
that still read come before those that are final. -/
inductive State where
  /-- Nothing read yet. -/
  | start
  /-- No lexeme has the text read so far as its beginning. -/
  | sink
  /-- Inside a run of digits. -/
  | digits
  /-- A number, and one input beyond it. -/
  | numberDone
  /-- A number with a letter behind it. -/
  | numberBad
  /-- Inside a literal. -/
  | quoted
  /-- A literal with its closing quote. -/
  | literalDone
  /-- A literal with a foreign character in it. -/
  | literalBad
  /-- Inside an identifier. -/
  | name
  /-- An identifier, and one input beyond it. -/
  | nameDone
  /-- A punctuation character. -/
  | symbolDone
  /-- One slash. -/
  | slash
  /-- Inside a comment. -/
  | remark
  /-- A comment with its line end. -/
  | remarkDone
  /-- A white-space character. -/
  | blankDone
deriving DecidableEq, Repr

/-- What a final state produces. -/
inductive Verdict where
  /-- The text read is a token. -/
  | token (category : Token.Category)
  /-- The text read is refused. -/
  | reject (fault : Fault)
deriving DecidableEq, Repr

/-- One transition: in `source`, the inputs of `on` lead to `target`. -/
structure Rule where
  /-- The state the rule applies to. -/
  source : State
  /-- The inputs the rule takes. -/
  on : List Input
  /-- The state the rule leads to. -/
  target : State

namespace State

/-- The states in order, so that the position of a state serves as its number. -/
def all : List State :=
  [start, sink, digits, numberDone, numberBad, quoted, literalDone, literalBad, name, nameDone,
    symbolDone, slash, remark, remarkDone, blankDone]

theorem mem_all (s : State) : s ∈ all := by cases s <;> decide

/-- The number of a state. -/
def index (s : State) : Nat := all.idxOf s

theorem all_getElem?_index (s : State) : all[s.index]? = some s := by cases s <;> decide

open Input (chars knownExcept)

/-- The rules of numbers.  A letter right after the digits spoils the number; any
other known input ends it. -/
def numberRules : List Rule :=
  [⟨digits, chars Alphabet.digits, digits⟩,
   ⟨digits, chars Alphabet.letters, numberBad⟩,
   ⟨digits, knownExcept (Alphabet.digits ++ Alphabet.letters), numberDone⟩,
   ⟨start, chars Alphabet.digits, digits⟩]

/-- The rules of literals.  The end of the text is in none of them: a literal that
is never closed goes to the sink and counts as cut short. -/
def literalRules : List Rule :=
  [⟨quoted, chars Alphabet.toneLetters, quoted⟩,
   ⟨quoted, chars ['"'], literalDone⟩,
   ⟨quoted, (knownExcept (Alphabet.toneLetters ++ ['"'])).filter (· != .eof), literalBad⟩,
   ⟨start, chars ['"'], quoted⟩]

/-- The rules of identifiers. -/
def nameRules : List Rule :=
  [⟨name, chars Alphabet.letters, name⟩,
   ⟨name, chars Alphabet.digits, name⟩,
   ⟨name, knownExcept (Alphabet.digits ++ Alphabet.letters), nameDone⟩,
   ⟨start, chars Alphabet.letters, name⟩]

/-- The rule of punctuation. -/
def symbolRules : List Rule := [⟨start, chars Alphabet.symbols, symbolDone⟩]

/-- The rules of comments.  The end of the text closes a comment just as a line end does. -/
def remarkRules : List Rule :=
  [⟨slash, chars ['/'], remark⟩,
   ⟨remark, [.char '\n', .eof], remarkDone⟩,
   ⟨start, chars ['/'], slash⟩]

/-- The rule of white space: every character of it is a lexeme of its own. -/
def blankRules : List Rule := [⟨start, chars Alphabet.blanks, blankDone⟩]

/-- Where a character leads that no rule takes: inside a comment every character is
allowed. -/
def fallback? : State → Option State
  | remark => some remark
  | _ => none

/-- All rules, in the order in which they are tried. -/
def rules : List Rule :=
  numberRules ++ literalRules ++ nameRules ++ symbolRules ++ remarkRules ++ blankRules

/-- Where an input leads that no rule takes. -/
def astray (s : State) : Input → State
  | .char _ => s.fallback?.getD sink
  | .eof => sink

/-- The state after one more input. -/
def step (s : State) (i : Input) : State :=
  match rules.find? fun r => r.source == s && r.on.contains i with
  | some r => r.target
  | none => s.astray i

/-! ## The transitions, state by state

The rules of one class never take an input that another class wants from the
start state, so the order of the classes does not matter there; within a class it
does. -/

section Step

/-- The rules that apply to a state. -/
def rulesFrom (s : State) : List Rule := rules.filter (·.source == s)

theorem step_eq_find?_rulesFrom (s : State) (i : Input) :
    s.step i = (((rulesFrom s).find? (i ∈ ·.on)).map Rule.target).getD (s.astray i) := by
  rw [rulesFrom, List.find?_filter]
  simp only [step, Bool.decide_and, Bool.decide_eq_true, List.contains_eq_mem]
  split <;> rename_i h <;> rw [h] <;> rfl

theorem rulesFrom_start :
    rulesFrom start =
     [⟨start, chars Alphabet.digits, digits⟩, ⟨start, chars ['"'], quoted⟩,
      ⟨start, chars Alphabet.letters, name⟩, ⟨start, chars Alphabet.symbols, symbolDone⟩,
      ⟨start, chars ['/'], slash⟩, ⟨start, chars Alphabet.blanks, blankDone⟩] := rfl

theorem rulesFrom_digits :
    rulesFrom digits =
     [⟨digits, chars Alphabet.digits, digits⟩, ⟨digits, chars Alphabet.letters, numberBad⟩,
      ⟨digits, knownExcept (Alphabet.digits ++ Alphabet.letters), numberDone⟩] := rfl

theorem rulesFrom_quoted :
    rulesFrom quoted =
     [⟨quoted, chars Alphabet.toneLetters, quoted⟩, ⟨quoted, chars ['"'], literalDone⟩,
      ⟨quoted, (knownExcept (Alphabet.toneLetters ++ ['"'])).filter (· != .eof), literalBad⟩] :=
  rfl

theorem rulesFrom_name :
    rulesFrom name =
     [⟨name, chars Alphabet.letters, name⟩, ⟨name, chars Alphabet.digits, name⟩,
      ⟨name, knownExcept (Alphabet.digits ++ Alphabet.letters), nameDone⟩] := rfl

theorem rulesFrom_slash : rulesFrom slash = [⟨slash, chars ['/'], remark⟩] := rfl

theorem rulesFrom_remark :
    rulesFrom remark = [⟨remark, [.char '\n', .eof], remarkDone⟩] := rfl

variable (c : Char)

theorem step_start_char :
    start.step (.char c) =
      if c.isDigit then digits else if c == '"' then quoted else if c.isAlpha then name
      else if Alphabet.isSymbol c then symbolDone else if c == '/' then slash
      else if Alphabet.isBlank c then blankDone else sink := by
  rw [step_eq_find?_rulesFrom, rulesFrom_start]
  simp only [List.find?, Input.char_mem_chars, Alphabet.mem_digits_iff, Alphabet.mem_letters_iff,
    ← Alphabet.isSymbol_iff, ← Alphabet.isBlank_iff, List.mem_singleton]
  repeat' split
  all_goals simp_all [astray, fallback?]

theorem step_digits_char :
    digits.step (.char c) =
      if c.isDigit then digits else if c.isAlpha then numberBad
      else if Alphabet.isKnown c then numberDone else sink := by
  rw [step_eq_find?_rulesFrom, rulesFrom_digits]
  simp only [List.find?, Input.char_mem_chars, Input.char_mem_knownExcept, List.mem_append,
    Alphabet.mem_digits_iff, Alphabet.mem_letters_iff]
  repeat' split
  all_goals simp_all [astray, fallback?]

theorem step_quoted_char :
    quoted.step (.char c) =
      if Alphabet.isTone c then quoted else if c == '"' then literalDone
      else if Alphabet.isKnown c then literalBad else sink := by
  rw [step_eq_find?_rulesFrom, rulesFrom_quoted]
  simp only [List.find?, List.mem_filter, Input.char_mem_chars, Input.char_mem_knownExcept,
    List.mem_append, ← Alphabet.isTone_iff, List.mem_singleton]
  repeat' split
  all_goals simp_all [astray, fallback?]

theorem step_name_char :
    name.step (.char c) =
      if c.isAlphanum then name else if Alphabet.isKnown c then nameDone else sink := by
  rw [step_eq_find?_rulesFrom, rulesFrom_name]
  simp only [List.find?, Input.char_mem_chars, Input.char_mem_knownExcept, List.mem_append,
    Alphabet.mem_digits_iff, Alphabet.mem_letters_iff, Char.isAlphanum]
  repeat' split
  all_goals simp_all [astray, fallback?]

theorem step_slash_char :
    slash.step (.char c) = if c == '/' then remark else sink := by
  rw [step_eq_find?_rulesFrom, rulesFrom_slash]
  simp only [List.find?, Input.char_mem_chars, List.mem_singleton]
  repeat' split
  all_goals simp_all [astray, fallback?]

theorem step_remark_char :
    remark.step (.char c) = if c == '\n' then remarkDone else remark := by
  rw [step_eq_find?_rulesFrom, rulesFrom_remark]
  simp only [List.find?]
  repeat' split
  all_goals simp_all [astray, fallback?]

@[simp] theorem step_start_eof : start.step .eof = sink := by
  rw [step_eq_find?_rulesFrom, rulesFrom_start]
  simp [astray]

@[simp] theorem step_digits_eof : digits.step .eof = numberDone := by
  rw [step_eq_find?_rulesFrom, rulesFrom_digits]
  simp [astray]

@[simp] theorem step_quoted_eof : quoted.step .eof = sink := by
  rw [step_eq_find?_rulesFrom, rulesFrom_quoted]
  simp [astray]

@[simp] theorem step_name_eof : name.step .eof = nameDone := by
  rw [step_eq_find?_rulesFrom, rulesFrom_name]
  simp [astray]

@[simp] theorem step_slash_eof : slash.step .eof = sink := by
  rw [step_eq_find?_rulesFrom, rulesFrom_slash]
  simp [astray]

@[simp] theorem step_remark_eof : remark.step .eof = remarkDone := by
  rw [step_eq_find?_rulesFrom, rulesFrom_remark]
  simp [astray]

end Step

/-- What the state produces, if it is final.  The sink is final: it refuses. -/
def verdict : State → Option Verdict
  | sink => some (.reject .input)
  | numberDone => some (.token .number)
  | numberBad => some (.reject .number)
  | literalDone => some (.token .literal)
  | literalBad => some (.reject .literal)
  | nameDone => some (.token .identifier)
  | symbolDone => some (.token .symbol)
  | remarkDone => some (.token .comment)
  | blankDone => some (.token .blank)
  | start | digits | quoted | name | slash | remark => none

/-- Whether the last character read belongs to the next lexeme.  Numbers and
identifiers end only where something else begins. -/
def retracts : State → Bool
  | numberDone | nameDone => true
  | _ => false

/-- A lexeme never ends on its very first character with that character handed
back, so every scan makes progress. -/
theorem not_retracts_step_start (c : Char) : (start.step (.char c)).retracts = false := by
  rw [step_start_char]
  repeat' split
  all_goals rfl

end State

end ToneScript.Scan
