import ToneScript.Proofs.Text.Words

/-!
# Lines

A line ends with a line feed, and a carriage return before the line feed is part of the line end.
Behind the last line feed there is a line only if there is anything at all.  Who cuts a text at its
line feeds gets other pieces than these lines, but no others once white space is trimmed and empty
lines are passed over; and the lines keep their numbers.

## Main definitions

* `Text.lines` — the lines of a text.

## Main statements

* `Text.filter_zipIdx_lines` — numbered lines that count, and pieces between line feeds.
-/

namespace ToneScript.Text

variable {s : List Char} {c : Char}

/-- A piece before a line feed, without the carriage return at its end. -/
def dropReturn (piece : List Char) : List Char :=
  if piece.getLast? = some '\r' then piece.dropLast else piece

/-- The lines that pieces between line feeds make up. -/
def linesOf : List (List Char) → List (List Char)
  | [] => []
  | [last] => if last = [] then [] else [last]
  | piece :: rest => dropReturn piece :: linesOf rest

/-- The lines of a text. -/
def lines (s : List Char) : List (List Char) := linesOf (s.splitOn '\n')

example : lines "a\r\n\nb\r".toList = ["a".toList, [], "b\r".toList] := by decide

example : lines "a\n".toList = ["a".toList] := by decide

theorem trim_concat (hc : isSpace c) (s : List Char) : trim (s ++ [c]) = trim s := by
  change ((s ++ [c]).dropWhile isSpace).rdropWhile isSpace =
    (s.dropWhile isSpace).rdropWhile isSpace
  rw [List.dropWhile_append]
  by_cases h : s.dropWhile isSpace = []
  · simp [h, hc]
  · simp [h, hc]

theorem trim_dropReturn (piece : List Char) : trim (dropReturn piece) = trim piece := by
  unfold dropReturn
  split
  · rename_i h
    obtain ⟨s, rfl⟩ := List.getLast?_eq_some_iff.1 h
    rw [List.dropLast_concat, trim_concat (by decide)]
  · rfl

theorem filter_zipIdx_linesOf {p : List Char × Nat → Bool} (hp : ∀ n, p ([], n) = false)
    (pieces : List (List Char)) (n : Nat) :
    (((linesOf pieces).map trim).zipIdx n).filter p = ((pieces.map trim).zipIdx n).filter p := by
  induction pieces generalizing n with
  | nil => rfl
  | cons piece rest ih =>
      cases rest with
      | nil =>
          by_cases h : piece = []
          · have htrim : trim [] = [] := rfl
            simp [linesOf, h, htrim, hp]
          · simp [linesOf, h]
      | cons next rest =>
          simp only [linesOf, List.map_cons, trim_dropReturn, List.zipIdx_cons,
            List.filter_cons] at ih ⊢
          simp only [ih]

/-- For trimmed lines that are not empty it is enough to cut a text at its line feeds. -/
theorem filter_zipIdx_lines {p : List Char × Nat → Bool} (hp : ∀ n, p ([], n) = false)
    (s : List Char) (n : Nat) :
    (((lines s).map trim).zipIdx n).filter p =
      (((s.splitOn '\n').map trim).zipIdx n).filter p :=
  filter_zipIdx_linesOf hp _ n

end ToneScript.Text
