/-!
# White space and words

White space here is the property `White_Space` of the Unicode standard, twenty-five
characters in all.  It is wider than the six characters that separate the tokens of
a program, and it is the rule for grammar texts.

## Main definitions

* `Text.isSpace` — the white-space characters.
* `Text.trim` — a text without the white space at its two ends.
* `Text.words` — the maximal pieces of a text without white space.
* `Text.splitAtArrow?` — the two sides of the first arrow.
-/

namespace ToneScript.Text

/-- The ranges of white-space characters, as pairs of a first and a last code point. -/
def spaceRanges : List (Nat × Nat) :=
  [(0x9, 0xD), (0x20, 0x20), (0x85, 0x85), (0xA0, 0xA0), (0x1680, 0x1680), (0x2000, 0x200A),
    (0x2028, 0x2029), (0x202F, 0x202F), (0x205F, 0x205F), (0x3000, 0x3000)]

/-- Whether a character is white space. -/
def isSpace (c : Char) : Bool := spaceRanges.any fun r => r.1 ≤ c.toNat && c.toNat ≤ r.2

example : (spaceRanges.map fun r => r.2 + 1 - r.1).sum = 25 := by decide

theorem isSpace_of_isWhitespace {c : Char} (h : c.isWhitespace) : isSpace c := by
  simp only [Char.isWhitespace, Bool.or_eq_true, decide_eq_true_eq] at h
  rcases h with ((rfl | rfl) | rfl) | rfl <;> decide

/-- A text without the white space at its two ends. -/
def trim (s : List Char) : List Char :=
  ((s.dropWhile isSpace).reverse.dropWhile isSpace).reverse

/-- The maximal non-empty pieces of a text that hold no white space. -/
def words (s : List Char) : List (List Char) := (s.splitOnP isSpace).filter (!·.isEmpty)

theorem ne_nil_of_mem_words {s w : List Char} (h : w ∈ words s) : w ≠ [] := by
  simp only [words, List.mem_filter, Bool.not_eq_true', List.isEmpty_eq_false_iff] at h
  exact h.2

/-- The parts of a text before and behind its first arrow. -/
def splitAtArrow? : List Char → Option (List Char × List Char)
  | '-' :: '>' :: r => some ([], r)
  | c :: r => (splitAtArrow? r).map fun p => (c :: p.1, p.2)
  | [] => none

/-- The arrow stands between the two parts. -/
theorem eq_of_splitAtArrow? {s l r : List Char} (h : splitAtArrow? s = some (l, r)) :
    s = l ++ '-' :: '>' :: r := by
  fun_induction splitAtArrow? s generalizing l with
  | case1 => simp_all
  | case2 c t _ ih =>
    obtain ⟨⟨l', r'⟩, hp, he⟩ := Option.map_eq_some_iff.1 h
    simp only [Prod.mk.injEq] at he
    obtain ⟨rfl, rfl⟩ := he
    simp [ih hp]
  | case3 => simp at h

end ToneScript.Text
