import ToneScript.Proofs.Token.Boundary
import ToneScript.Proofs.Token.Lexemes

/-!
# Lexemes with white space behind each of them

Lexemes that are written down one behind the other may run together: a number behind a number is
one number.  One white-space character behind each lexeme is enough to keep them apart, whichever
character it is.  The scan of a number or of a name reads it and hands it back, every other scan
ends before it, and it is then found on its own.  The space, which may also stand inside of a
literal, makes no difference, since by then the literal has been closed.

## Main definitions

* `Spaced` — a lexeme that a parser looks at, with a white-space character behind it.
* `Token.placed` — the tokens that stand one behind the other in a text.

## Main statements

* `Cursor.next_lexeme` — a lexeme is found where something stands behind it that ends it.
* `tokenize_spaced` — spaced lexemes are cut into the same lexemes again.
-/

namespace ToneScript

/-- A lexeme that a parser looks at, and one white-space character behind it. -/
structure Spaced where
  /-- The class of the lexeme. -/
  category : Token.Category
  /-- Its text. -/
  text : String
  /-- The character behind it. -/
  blank : Char
  significant : category.isTrivia = false
  admits : category.Admits text.toList
  isBlank : Alphabet.isBlank blank

/-- The lexeme and the white space, as two pieces of text with their categories. -/
def Spaced.pieces (x : Spaced) : List (Token.Category × String) :=
  [(x.category, x.text), (.blank, String.singleton x.blank)]

/-- The tokens that stand one behind the other in a text that begins with `before`. -/
def Token.placed (before : List Char) : List (Token.Category × String) → List Token
  | [] => []
  | (k, text) :: rest =>
    ⟨k, text, before.count '\n' + 1⟩ :: placed (before ++ text.toList) rest

/-! ## What ends a lexeme -/

namespace Alphabet

variable {b : Char}

theorem isKnown_of_isBlank (hb : isBlank b) : isKnown b := by
  simp [isKnown, hb]

theorem not_isAlphanum_of_isBlank (hb : isBlank b) : ¬ b.isAlphanum := by
  have hall : blanks.all (!·.isAlphanum) := by decide
  simpa using List.all_eq_true.1 hall b (isBlank_iff.1 hb)

end Alphabet

namespace Cursor

variable {n : ℕ} {k : Token.Category} {x t rest : List Char} {b : Char}

theorem direct_number (hx : Token.Category.number.Admits x) (hknown : Alphabet.isKnown b)
    (hend : ¬ b.isAlphanum) : direct ⟨x ++ b :: rest, n⟩ = found n .number x (b :: rest) := by
  obtain ⟨hne, hall⟩ := hx
  obtain ⟨c, r, rfl⟩ := List.exists_cons_of_ne_nil hne
  simp only [List.all_cons, Bool.and_eq_true, List.all_eq_true] at hall
  simp only [Char.isAlphanum, Bool.or_eq_true, not_or] at hend
  simp only [direct, List.cons_append, if_pos hall.1]
  rw [List.takeWhile_append_of_pos hall.2, List.takeWhile_cons_of_neg hend.2,
    List.dropWhile_append_of_pos hall.2, List.dropWhile_cons_of_neg hend.2, List.append_nil,
    directNumber, if_neg hend.1, if_pos hknown]

theorem direct_name (hx : Token.Category.identifier.Admits x) (hknown : Alphabet.isKnown b)
    (hend : ¬ b.isAlphanum) :
    direct ⟨x ++ b :: rest, n⟩ = found n .identifier x (b :: rest) := by
  obtain ⟨c, r, rfl, hc, hall⟩ := hx
  have hdigit : ¬ c.isDigit := by
    have hletters : Alphabet.letters.all (!·.isDigit) := by decide
    simpa using List.all_eq_true.1 hletters c (Alphabet.mem_letters_iff.2 hc)
  rw [List.all_eq_true] at hall
  simp only [direct, List.cons_append, if_neg hdigit, if_pos hc]
  rw [List.takeWhile_append_of_pos hall, List.takeWhile_cons_of_neg hend,
    List.dropWhile_append_of_pos hall, List.dropWhile_cons_of_neg hend, List.append_nil,
    directName, if_pos hknown]

theorem direct_symbol (hx : Token.Category.symbol.Admits x) :
    direct ⟨x ++ rest, n⟩ = found n .symbol x rest := by
  obtain ⟨c, rfl, hc⟩ := hx
  have hsymbols : Alphabet.symbols.all fun d =>
      ¬ d.isDigit ∧ ¬ d.isAlpha ∧ d ≠ '"' ∧ d ≠ '/' := by decide
  have hother := List.all_eq_true.1 hsymbols c (Alphabet.isSymbol_iff.1 hc)
  obtain ⟨hdigit, hletter, hquote, hslash⟩ := of_decide_eq_true hother
  simp only [direct, List.singleton_append, if_neg hdigit, if_neg hletter, if_neg hquote,
    if_neg hslash, if_pos hc]

/-- A lexeme is found where something known stands behind it that cannot go on with it. -/
theorem next_lexeme (hk : k.isTrivia = false) (hx : k.Admits x) (hknown : Alphabet.isKnown b)
    (hend : ¬ b.isAlphanum) :
    next ⟨x ++ b :: rest, n⟩ =
      (.token ⟨k, String.ofList x, n⟩, ⟨b :: rest, n + x.count '\n'⟩) := by
  cases k with
  | number => exact next_of_direct (direct_number hx hknown hend)
  | identifier => exact next_of_direct (direct_name hx hknown hend)
  | symbol => exact next_of_direct (direct_symbol hx)
  | comment => cases hk
  | blank => cases hk
  | literal =>
      obtain ⟨r, rfl, hr⟩ := hx
      have htext : '"' :: r ++ ['"'] ++ b :: rest = '"' :: (r ++ '"' :: b :: rest) := by simp
      rw [htext]
      exact next_of_direct (direct_literal hr n)

/-- Where spaced lexemes stand behind the text `before`, the scans find them and the white space
in between, on the lines that the text before gives. -/
theorem scans_spaced (xs : List Spaced) (before : List Char) :
    scans ⟨(xs.flatMap Spaced.pieces).flatMap (·.2.toList), before.count '\n' + 1⟩ =
      (Token.placed before (xs.flatMap Spaced.pieces)).map .token := by
  induction xs generalizing before with
  | nil => exact scans_of_rest_eq_nil rfl
  | cons x xs ih =>
      have hknown := Alphabet.isKnown_of_isBlank x.isBlank
      have hend := Alphabet.not_isAlphanum_of_isBlank x.isBlank
      have hline : before.count '\n' + 1 + x.text.toList.count '\n' =
          (before ++ x.text.toList).count '\n' + 1 := by
        simp only [List.count_append]
        omega
      have hbehind : (before ++ x.text.toList).count '\n' + 1 + [x.blank].count '\n' =
          (before ++ x.text.toList ++ [x.blank]).count '\n' + 1 := by
        simp only [List.count_append]
        omega
      simp only [List.flatMap_cons, Spaced.pieces, List.cons_append, List.nil_append,
        String.toList_singleton, Token.placed, List.map_cons]
      -- first the lexeme, which hands the white space back, and then the white space
      rw [scans_of_rest_ne_nil (by simp), next_lexeme x.significant x.admits hknown hend,
        scans_of_rest_ne_nil (List.cons_ne_nil _ _), next_of_isBlank x.isBlank, hline, hbehind,
        ← ih, String.ofList_toList]
      rfl

end Cursor

/-- Lexemes with one white-space character behind each of them, whichever they are, are cut into
the same lexemes again, in the same order, each with a token for its white space behind it, and
nothing is wrong with them.  The line of each token is one more than there are line ends before
it. -/
theorem tokenize_spaced (xs : List Spaced) :
    tokenize (String.join ((xs.flatMap Spaced.pieces).map Prod.snd)) =
      ⟨Token.placed [] (xs.flatMap Spaced.pieces), []⟩ := by
  have hscans : Scan.ofSource (String.join ((xs.flatMap Spaced.pieces).map Prod.snd)) =
      (Token.placed [] (xs.flatMap Spaced.pieces)).map .token := by
    rw [← Cursor.scans_spaced xs [], Scan.ofSource, Cursor.ofString, String.toList_join,
      List.flatMap_map]
    rfl
  rw [tokenize, hscans, List.filterMap_map, List.filterMap_map]
  simp [Function.comp_def, Scan.token?, Scan.diagnostic?]

/-- A space may stand inside of a literal and behind a lexeme. -/
example : tokenize "\"o e\"\n42 " =
    ⟨[⟨.literal, "\"o e\"", 1⟩, ⟨.blank, "\n", 1⟩, ⟨.number, "42", 2⟩, ⟨.blank, " ", 2⟩], []⟩ := by
  decide +kernel

end ToneScript
