/-!
# Quoted text

Text between double quotes, as JSON has it.  Quotes, backslashes and control characters
are escaped; all other characters stand for themselves, whether in ASCII or not.

## Main definitions

* `Text.escape` — one character inside of quotes.
* `Text.quoted` — a text between quotes.
-/

namespace ToneScript.Text

/-- The control characters that have an escape of their own, with its letter. -/
def escapeLetters : List (Char × Char) :=
  [('\x08', 'b'), ('\x0c', 'f'), ('\n', 'n'), ('\r', 'r'), ('\t', 't')]

/-- A character inside of quotes. -/
def escape (c : Char) : List Char :=
  if c == '"' || c == '\\' then ['\\', c]
  else match escapeLetters.lookup c with
    | some l => ['\\', l]
    | none =>
      if c.toNat < 0x20 then
        ['\\', 'u', '0', '0', Nat.digitChar (c.toNat / 16), Nat.digitChar (c.toNat % 16)]
      else [c]

/-- A text between quotes. -/
def quoted (s : String) : String := String.ofList ('"' :: s.toList.flatMap escape ++ ['"'])

example : escape '\x1f' = ['\\', 'u', '0', '0', '1', 'f'] := by decide

example : escape '\n' = ['\\', 'n'] := by decide

end ToneScript.Text
