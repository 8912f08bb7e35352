import ToneScript.Diagnostic

/-!
# Listing the tokens of a program

## Main definitions

* `Scan.ofSource` — the scans of a whole program.
* `Listing` — the tokens of a program, trivia included, beside what is no token.
-/

namespace ToneScript

/-- The scans of a whole program. -/
def Scan.ofSource (source : String) : List Scan := (Cursor.ofString source).scans

/-- The token that a scan has found. -/
def Scan.token? : Scan → Option Token
  | token t => some t
  | _ => none

/-- The line on which a program ends: one more than it has line ends. -/
def endLine (source : String) : Nat := source.toList.count '\n' + 1

/-- A program cut into tokens. -/
structure Listing where
  /-- The tokens in order, comments and white space included. -/
  tokens : List Token
  /-- What is wrong with the rest of the text. -/
  diagnostics : List Diagnostic
deriving DecidableEq, Repr

/-- Cuts a program into tokens. -/
def tokenize (source : String) : Listing where
  tokens := (Scan.ofSource source).filterMap Scan.token?
  diagnostics := (Scan.ofSource source).filterMap Scan.diagnostic?

/-- The tokens that a parser looks at. -/
def Listing.significant (l : Listing) : List Token := l.tokens.filter (!·.isTrivia)

end ToneScript
