import ToneScript.Proofs.Parse.Calls
import ToneScript.Proofs.Program.Arithmetic

/-!
# Repetition in machine words

The evaluator counts copies and bytes in unbounded numbers.  A machine of 64 bits has words for
them: with a sign for the numbers of a program, and without one for the sizes of its texts.  There
a product wraps around, and a number below zero, taken for a size bit by bit, is a huge one.  A
size that has wrapped around may well be within the limit.

Here a text is repeated in words.  The count is raised to zero before it is taken for a size, and
the product is checked before it is compared with the limit.  So every word on the way is the
number that it stands for, or there is none; the room that the copies need is always there; and
the result is that of the evaluator.

## Main definitions

* `Word64.size?`, `Word64.product?` — the checked operations on words.
* `Word64.Text` — a text whose size is a word.
* `Word64.repeated` — a text repeated, in words.
* `Word64.Exact` — no word on the way has wrapped around.

## Main statements

* `repeated?_eq` — which texts the evaluator repeats, and what comes of it.
* `Word64.never_wraps` — all words on the way are exact.
* `Word64.exists_repeated` — the result in words is that of the evaluator.
* `Word64.repeated_exact` — all of it, and what becomes of a product of a text and a number.
-/

namespace ToneScript

/-! ## Repetition in unbounded numbers -/

theorem utf8ByteSize_copies (s : String) (n : ℕ) :
    (copies s n).utf8ByteSize = s.utf8ByteSize * n := by
  rw [Program.copies_eq_join, Program.utf8ByteSize_join_replicate]

/-- A text is repeated if the exact product of its size and the count, which is zero if it is
negative, is within the limit.  The result has that many copies. -/
theorem repeated?_eq (s : String) (count : ℤ) :
    repeated? s count =
      if (s.utf8ByteSize : ℤ) * max count 0 ≤ maxTextSize then
        some (String.join (List.replicate (max count 0).toNat s))
      else none := by
  have htoNat : (max count 0).toNat = count.toNat := by omega
  have hproduct : (s.utf8ByteSize : ℤ) * max count 0 = (s.utf8ByteSize * count.toNat : ℕ) := by
    rw [Nat.cast_mul, Int.toNat_eq_max]
  rw [repeated?, Program.copies_eq_join, htoNat, hproduct]
  simp only [Nat.cast_le]

namespace Word64

/-! ## Words -/

variable {n : Int64} {a b p : UInt64}

/-- A number taken for a size, bit by bit, unless it is negative. -/
def size? (n : Int64) : Option UInt64 := if 0 ≤ n then some n.toUInt64 else none

/-- The product of two sizes, unless it overflows. -/
def product? (a b : UInt64) : Option UInt64 :=
  if BitVec.umulOverflow a.toBitVec b.toBitVec then none else some (a * b)

theorem toInt_max_zero (n : Int64) : (max n 0).toInt = max n.toInt 0 := by
  have hmax : max n 0 = if n ≤ 0 then 0 else n := rfl
  have hle : n ≤ 0 ↔ n.toInt ≤ 0 := Int64.le_iff_toInt_le
  by_cases h : n ≤ 0
  · rw [hmax, if_pos h, Int64.toInt_zero, Int.max_eq_right (hle.1 h)]
  · rw [hmax, if_neg h, Int.max_eq_left (not_le.1 (mt hle.2 h)).le]

/-- A number that is not negative can be taken for a size, and the size is that number. -/
theorem exists_size? (h : 0 ≤ n.toInt) : ∃ k, size? n = some k ∧ (k.toNat : ℤ) = n.toInt := by
  have hn : 0 ≤ n := Int64.le_iff_toInt_le.2 h
  refine ⟨n.toUInt64, if_pos hn, ?_⟩
  rw [Int64.toNat_toUInt64_of_le hn, Int64.cast_toNatClampNeg n hn]

theorem umulOverflow_iff :
    BitVec.umulOverflow a.toBitVec b.toBitVec ↔ UInt64.size ≤ a.toNat * b.toNat :=
  decide_eq_true_iff

theorem product?_eq_none_iff : product? a b = none ↔ UInt64.size ≤ a.toNat * b.toNat := by
  simp [product?, umulOverflow_iff]

/-- A product that does not overflow is the exact one. -/
theorem toNat_of_product? (h : product? a b = some p) : p.toNat = a.toNat * b.toNat := by
  rw [product?, Option.ite_none_left_eq_some, umulOverflow_iff, not_le] at h
  obtain ⟨hfits, hp⟩ := h
  rw [← Option.some.inj hp, UInt64.toNat_mul]
  exact Nat.mod_eq_of_lt hfits

/-! ## Texts -/

/-- A text whose size is a word. -/
structure Text where
  /-- The text itself. -/
  text : String
  /-- There are no more bytes than a word can tell. -/
  size_lt : text.utf8ByteSize < UInt64.size
deriving DecidableEq

/-- Why there is no result. -/
inductive Panic where
  /-- There is no room for a text of this size. -/
  | noRoom
deriving DecidableEq

namespace Text

/-- The size of a text. -/
def size (s : Text) : UInt64 := .ofNat s.text.utf8ByteSize

theorem toNat_size (s : Text) : s.size.toNat = s.text.utf8ByteSize :=
  UInt64.toNat_ofNat_of_lt' s.size_lt

/-- Writes a text a number of times, if there is room for all copies.  The greatest number of the
language is the size of the largest room. -/
def written (s : Text) (n : UInt64) : Except Panic Text :=
  if h : s.text.utf8ByteSize * n.toNat ≤ 0x7fff_ffff_ffff_ffff then
    .ok ⟨copies s.text n.toNat, by
      rw [utf8ByteSize_copies]
      exact Nat.lt_of_le_of_lt h (by decide)⟩
  else .error .noRoom

/-- There is room for copies within the limit. -/
theorem exists_written {s : Text} {n : UInt64}
    (h : s.text.utf8ByteSize * n.toNat ≤ maxTextSize) :
    ∃ t, s.written n = .ok t ∧ t.text = copies s.text n.toNat :=
  ⟨_, dif_pos (h.trans (by decide)), rfl⟩

end Text

/-! ## Repetition in words -/

/-- The length in bytes that no repeated text may exceed. -/
def limit : UInt64 := (1 : UInt64) <<< 20

/-- The number of copies that a count asks for, which is zero if the count is negative. -/
def copies? (count : Int64) : Option UInt64 := size? (max count 0)

/-- The size of all copies. -/
def total? (s : Text) (count : Int64) : Option UInt64 :=
  (copies? count).bind fun n => product? s.size n

/-- The text `s` repeated `count` times, where a negative count means no copy at all, unless the
result exceeds the limit. -/
def repeated (s : Text) (count : Int64) : Except Panic (Option Text) :=
  match copies? count, total? s count with
  | some n, some total => if limit < total then .ok none else (s.written n).map some
  | _, _ => .ok none

theorem toNat_limit : limit.toNat = maxTextSize := by decide

/-- No word that comes up when a text is repeated has wrapped around. -/
structure Exact (s : Text) (count : Int64) : Prop where
  /-- There is a word for the size of the text. -/
  size : s.size.toNat = s.text.utf8ByteSize
  /-- There is one for the number of copies, whatever the count. -/
  copies : ∃ n, copies? count = some n ∧ (n.toNat : ℤ) = max count.toInt 0
  /-- If there is one for the size of all copies, it is the exact product. -/
  total : ∀ p ∈ total? s count, (p.toNat : ℤ) = s.text.utf8ByteSize * max count.toInt 0
  /-- There is none only if the exact product is too large for all words. -/
  overflow : total? s count = none ↔
    (UInt64.size : ℤ) ≤ s.text.utf8ByteSize * max count.toInt 0

/-- All words on the way are exact, whatever the text and the count. -/
theorem never_wraps (s : Text) (count : Int64) : Exact s count := by
  have hmax := toInt_max_zero count
  obtain ⟨n, hn, hcopies⟩ := exists_size? (n := max count 0) (by omega)
  rw [hmax] at hcopies
  have htotal : total? s count = product? s.size n := by rw [total?, copies?, hn, Option.bind_some]
  refine ⟨s.toNat_size, ⟨n, hn, hcopies⟩, fun p hp => ?_, ?_⟩
  · rw [htotal] at hp
    rw [toNat_of_product? hp, s.toNat_size, Nat.cast_mul, hcopies]
  · rw [htotal, product?_eq_none_iff, s.toNat_size, ← hcopies, ← Nat.cast_mul, Nat.cast_le]

/-- This product would be within the limit if it were not checked. -/
example : limit * 0x1000_0000_0000 = 0 ∧ product? limit 0x1000_0000_0000 = none := by decide

/-- There is always room for the copies, and the result is that of the evaluator. -/
theorem exists_repeated (s : Text) (count : Int64) :
    ∃ r, repeated s count = .ok r ∧ r.map Text.text = repeated? s.text count.toInt := by
  have h := never_wraps s count
  obtain ⟨n, hcopies, hn⟩ := h.copies
  rw [repeated, hcopies, repeated?_eq]
  cases htotal : total? s count with
  | none =>
      -- what is too large for a word is too large for the limit
      have hoverflow := h.overflow.1 htotal
      have hlarge : maxTextSize < UInt64.size := by decide
      exact ⟨none, rfl, (if_neg (by omega)).symm⟩
  | some p =>
      have hp := h.total p htotal
      have hlt : limit < p ↔ maxTextSize < p.toNat := by
        rw [UInt64.lt_iff_toNat_lt, toNat_limit]
      by_cases hlimit : maxTextSize < p.toNat
      · exact ⟨none, if_pos (hlt.2 hlimit), (if_neg (by omega)).symm⟩
      · have hsize : ((s.text.utf8ByteSize * n.toNat : ℕ) : ℤ) = p.toNat := by
          rw [Nat.cast_mul, hn, hp]
        obtain ⟨t, ht, htext⟩ := Text.exists_written (s := s) (n := n) (by omega)
        refine ⟨some t, ?_, ?_⟩
        · dsimp only
          rw [if_neg (mt hlt.1 hlimit), ht]
          rfl
        · rw [if_pos (by omega), Option.map_some, htext, Program.copies_eq_join, ← hn,
            Int.toNat_natCast]

example : repeated ⟨"", by decide⟩ Int64.maxValue = .ok (some ⟨"", by decide⟩) := by decide
example : repeated ⟨"o", by decide⟩ Int64.minValue = .ok (some ⟨"", by decide⟩) := by decide

end Word64

/-! ## Products of a text and a number -/

namespace Machine

/-- The evaluator after it has multiplied two values, and what it reports of that. -/
theorem performAll_multiply (m : Machine) (v w : Value) (lexeme : String) (line : ℕ) :
    ((m.pushValue v).pushValue w).performAll [⟨.multiply, lexeme, line⟩] =
      match v.mul w with
      | .ok u => (m.pushValue u, [])
      | .error f => (m, [⟨line, .action f⟩]) := by
  have hperform : ((m.pushValue v).pushValue w).perform .multiply lexeme =
      m.conclude (v.mul w) := rfl
  rw [performAll, hperform]
  cases v.mul w with
  | ok u => rfl
  | error f => rfl

/-- The evaluator with a repeated text on its stack, or with a report that there is none. -/
def settle (m : Machine) (line : ℕ) : Option Word64.Text → Machine × List Diagnostic
  | some t => (m.pushValue (.text t.text), [])
  | none => (m, [⟨line, .action .tooManyCopies⟩])

end Machine

namespace Word64

variable {s : Text} {count : Int64} {r : Option Text} {v w : Value}

theorem performAll_eq_settle (h : r.map Text.text = repeated? s.text count.toInt)
    (hmul : v.mul w = Value.ofRepeated s.text count.toInt) (m : Machine) (lexeme : String)
    (line : ℕ) :
    ((m.pushValue v).pushValue w).performAll [⟨.multiply, lexeme, line⟩] = m.settle line r := by
  rw [Machine.performAll_multiply, hmul, Value.ofRepeated, ← h]
  cases r with
  | none => rfl
  | some t => rfl

/-- For every text and every count there is a result in words, which is that of the evaluator.  The
text is repeated if and only if the exact product of its size and the count, or zero if that is
negative, is within the limit, and then that many copies are written.  No word on the way has
wrapped around.  And this is what becomes of a text and a number when the evaluator multiplies
them, whichever of the two lies on top: the copies take their place on the stack, or both are gone
and one fault is reported. -/
theorem repeated_exact (s : Text) (count : Int64) :
    ∃ r, repeated s count = .ok r ∧ r.map Text.text = repeated? s.text count.toInt ∧
      (r.isSome ↔ (s.text.utf8ByteSize : ℤ) * max count.toInt 0 ≤ maxTextSize) ∧
      (∀ t ∈ r, t.text = String.join (List.replicate (max count.toInt 0).toNat s.text)) ∧
      Exact s count ∧
      ∀ (m : Machine) (lexeme : String) (line : ℕ),
        ((m.pushValue (.text s.text)).pushValue (.number count.toInt)).performAll
            [⟨.multiply, lexeme, line⟩] = m.settle line r ∧
          ((m.pushValue (.number count.toInt)).pushValue (.text s.text)).performAll
            [⟨.multiply, lexeme, line⟩] = m.settle line r := by
  obtain ⟨r, hr, hvalue⟩ := exists_repeated s count
  have hspec := hvalue.trans (repeated?_eq s.text count.toInt)
  refine ⟨r, hr, hvalue, ?_, ?_, never_wraps s count, fun m lexeme line => ⟨?_, ?_⟩⟩
  · rw [← Option.isSome_map, hspec, Option.isSome_ite]
  · intro t ht
    rw [Option.mem_def.1 ht, Option.map_some, eq_comm, Option.ite_none_right_eq_some] at hspec
    exact (Option.some.inj hspec.2).symm
  · exact performAll_eq_settle hvalue rfl m lexeme line
  · exact performAll_eq_settle hvalue rfl m lexeme line

end Word64

end ToneScript
