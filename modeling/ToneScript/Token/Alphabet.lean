/-!
# The alphabet of tone programs

The scanner sorts characters into a handful of classes.  All of them are
classes of ASCII characters; a character in none of them is *unknown* and can
only occur inside a comment.

## Main definitions

* `Alphabet.digits`, `Alphabet.letters` — the characters of numbers and of names.
* `Alphabet.isTone` — the characters that a literal may hold.
* `Alphabet.isSymbol`, `Alphabet.isBlank` — punctuation and white space.
* `Alphabet.isKnown` — the characters that can start some lexeme.
-/

namespace ToneScript.Alphabet

/-- The decimal digits. -/
def digits : List Char := ['0', '1', '2', '3', '4', '5', '6', '7', '8', '9']

/-- The ASCII letters. -/
def letters : List Char :=
  ['a', 'b', 'c', 'd', 'e', 'f', 'g', 'h', 'i', 'j', 'k', 'l', 'm',
    'n', 'o', 'p', 'q', 'r', 's', 't', 'u', 'v', 'w', 'x', 'y', 'z',
    'A', 'B', 'C', 'D', 'E', 'F', 'G', 'H', 'I', 'J', 'K', 'L', 'M',
    'N', 'O', 'P', 'Q', 'R', 'S', 'T', 'U', 'V', 'W', 'X', 'Y', 'Z']

/-- The letters of a tone, and the space that is a pause. -/
def toneLetters : List Char := ['o', 'O', 'e', 'E', 'a', 'A', ' ']

/-- The punctuation characters.  The minus sign is one of them although no rule
of the tone grammar uses it. -/
def symbols : List Char := [';', '(', ')', '+', '-', '*', '=']

/-- The six ASCII white-space characters. -/
def blanks : List Char := [' ', '\t', '\n', '\r', '\x0b', '\x0c']

/-- The characters that may stand between the quotes of a literal. -/
def isTone (c : Char) : Bool := toneLetters.contains c

/-- Punctuation. -/
def isSymbol (c : Char) : Bool := symbols.contains c

/-- White space. -/
def isBlank (c : Char) : Bool := blanks.contains c

/-- The characters that some lexeme can start with.  A known character that
breaks off a lexeme is kept, so that it can start the next one. -/
def isKnown (c : Char) : Bool :=
  c.isAlphanum || isSymbol c || isBlank c || c == '/' || c == '"'

variable {c : Char}

theorem mem_digits_iff : c ∈ digits ↔ c.isDigit := by
  constructor
  · have hall : digits.all Char.isDigit := by decide
    exact List.all_eq_true.1 hall c
  · intro h
    have hall : ∀ n < 58, 48 ≤ n → Char.ofNat n ∈ digits := by decide
    simp only [Char.isDigit, Bool.and_eq_true, decide_eq_true_eq, UInt32.le_iff_toNat_le] at h
    have hmem := hall c.toNat (Nat.lt_succ_of_le h.2) h.1
    rwa [Char.ofNat_toNat] at hmem

theorem mem_letters_iff : c ∈ letters ↔ c.isAlpha := by
  constructor
  · have hall : letters.all Char.isAlpha := by decide
    exact List.all_eq_true.1 hall c
  · intro h
    have hupper : ∀ n < 91, 65 ≤ n → Char.ofNat n ∈ letters := by decide
    have hlower : ∀ n < 123, 97 ≤ n → Char.ofNat n ∈ letters := by decide
    rw [← Char.ofNat_toNat c]
    rcases Bool.or_eq_true_iff.1 h with h | h
    · obtain ⟨hA, hZ⟩ : 'A'.val ≤ c.val ∧ c.val ≤ 'Z'.val := of_decide_eq_true h
      exact hupper c.toNat (Nat.lt_succ_of_le hZ) hA
    · obtain ⟨ha, hz⟩ := Bool.and_eq_true_iff.1 h
      exact hlower c.toNat (Nat.lt_succ_of_le (of_decide_eq_true hz)) (of_decide_eq_true ha)

theorem isTone_iff : isTone c ↔ c ∈ toneLetters := List.contains_iff_mem

theorem isSymbol_iff : isSymbol c ↔ c ∈ symbols := List.contains_iff_mem

theorem isBlank_iff : isBlank c ↔ c ∈ blanks := List.contains_iff_mem

/-- The known characters, one by one. -/
theorem isKnown_iff :
    isKnown c ↔ c ∈ digits ++ letters ++ symbols ++ blanks ++ ['/', '"'] := by
  simp only [List.mem_append, List.mem_cons, List.not_mem_nil, or_false, mem_digits_iff,
    mem_letters_iff, ← isSymbol_iff, ← isBlank_iff]
  rw [or_comm (a := c.isDigit)]
  simp only [isKnown, Char.isAlphanum, Bool.or_eq_true, beq_iff_eq, or_assoc]

end ToneScript.Alphabet
