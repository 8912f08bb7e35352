/-!
# Decimal numerals

Reading of decimal numerals with an optional sign.  Leading zeros are allowed and
carry no meaning; a sign alone is not a numeral.

## Main definitions

* `Numeral.ofDigits` — the number that a run of digits denotes.
* `Numeral.readNat?`, `Numeral.readInt?` — the readers.
-/

namespace ToneScript.Numeral

/-- The value of a decimal digit. -/
def digitValue (c : Char) : Nat := c.toNat - '0'.toNat

/-- The number that a run of decimal digits denotes, read from the left. -/
def ofDigits (ds : List Char) : Nat := ds.foldl (fun n c => 10 * n + digitValue c) 0

/-- Reads an unsigned numeral: one or more digits and nothing else. -/
def readNat? (ds : List Char) : Option Nat :=
  if ds ≠ [] ∧ ds.all Char.isDigit then some (ofDigits ds) else none

/-- Reads a numeral that may begin with one sign. -/
def readInt? : List Char → Option Int
  | '-' :: ds => (readNat? ds).map fun n => -(n : Int)
  | '+' :: ds => (readNat? ds).map fun n => (n : Int)
  | ds => (readNat? ds).map fun n => (n : Int)

theorem readNat?_eq_some_iff {ds : List Char} {n : Nat} :
    readNat? ds = some n ↔ (ds ≠ [] ∧ ds.all Char.isDigit) ∧ ofDigits ds = n := by
  unfold readNat?
  split <;> rename_i h
  · rw [Option.some.injEq, and_iff_right h]
  · simp only [h, reduceCtorEq, false_and]

/-- A numeral that begins with a digit has no sign to read. -/
theorem readInt?_of_isDigit {c : Char} {ds : List Char} (h : c.isDigit) :
    readInt? (c :: ds) = (readNat? (c :: ds)).map fun n => (n : Int) := by
  unfold readInt?
  split
  · simp_all +decide
  · simp_all +decide
  · rfl

/-- A run of digits is read as the number that it denotes. -/
theorem readInt?_of_all_isDigit {ds : List Char} (hne : ds ≠ []) (hall : ds.all Char.isDigit) :
    readInt? ds = some (ofDigits ds : Int) := by
  obtain ⟨c, r, rfl⟩ := List.exists_cons_of_ne_nil hne
  have hc : c.isDigit := List.all_eq_true.1 hall c List.mem_cons_self
  have hread : readNat? (c :: r) = some (ofDigits (c :: r)) :=
    readNat?_eq_some_iff.2 ⟨⟨hne, hall⟩, rfl⟩
  rw [readInt?_of_isDigit hc, hread]
  rfl

example : readInt? ['-', '0', '7'] = some (-7) := by decide

example : readInt? ['+'] = none := by decide

end ToneScript.Numeral
