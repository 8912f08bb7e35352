/-!
# Tokens

A tone program is a sequence of tokens.  The parser never looks at the text of
most of them: what it matches against a grammar is the *terminal* of a token,
which is the text itself for punctuation and the name of the category for
everything else.

## Main definitions

* `Token.Category` — the six classes of lexemes, with their grammar names.
* `Token` — a lexeme with its category and the line it starts on.
* `Token.terminal` — what a grammar calls the token.
-/

namespace ToneScript

/-- The class of a lexeme. -/
inductive Token.Category where
  /-- A run of digits. -/
  | number
  /-- A letter followed by letters and digits. -/
  | identifier
  /-- One punctuation character. -/
  | symbol
  /-- Two slashes and everything up to the end of the line. -/
  | comment
  /-- One white-space character. -/
  | blank
  /-- Tone letters between double quotes. -/
  | literal
deriving DecidableEq, Repr

namespace Token.Category

/-- The name by which grammars and listings call the category. -/
def name : Category → String
  | number => "NUMBER"
  | identifier => "ID"
  | symbol => "SYMBOL"
  | comment => "COMMENT"
  | blank => "WHITE_SPACE"
  | literal => "STATIC_STRING"

/-- Comments and white space separate tokens and carry no meaning of their own. -/
def isTrivia : Category → Bool
  | comment | blank => true
  | _ => false

/-- All categories. -/
def all : List Category := [number, identifier, symbol, comment, blank, literal]

theorem mem_all (c : Category) : c ∈ all := by cases c <;> decide

/-- The category of a given name. -/
def ofName? (s : String) : Option Category := all.find? (·.name == s)

theorem ofName?_name (c : Category) : ofName? c.name = some c := by cases c <;> decide

end Token.Category

/-- A lexeme, its class, and the line on which it starts. -/
structure Token where
  /-- The class of the lexeme. -/
  category : Token.Category
  /-- The characters of the lexeme, quotes included. -/
  text : String
  /-- The line of its first character, counted from one. -/
  line : Nat
deriving DecidableEq, Repr

namespace Token

/-- What a grammar matches the token against: punctuation stands for itself, and
every other token for its category. -/
def terminal (t : Token) : String :=
  match t.category with
  | .symbol => t.text
  | c => c.name

/-- Whether the parser skips the token. -/
def isTrivia (t : Token) : Bool := t.category.isTrivia

/-- A token is listed as its category and its text. -/
instance : ToString Token where
  toString t := "(" ++ t.category.name ++ ", " ++ t.text ++ ")"

theorem terminal_symbol (s : String) (n : Nat) : terminal ⟨.symbol, s, n⟩ = s := rfl

theorem terminal_of_ne_symbol {t : Token} (h : t.category ≠ .symbol) :
    t.terminal = t.category.name := by
  unfold terminal
  split
  · contradiction
  · rfl

end Token

end ToneScript
