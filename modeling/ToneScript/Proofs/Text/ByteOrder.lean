import Mathlib.Tactic.SplitIfs
import ToneScript.Lookahead.Basic

/-!
# The order of texts, byte by byte

Texts are compared character by character, by code points.  Their bytes in UTF-8 are in the same
order.  A longer code begins with a greater byte, and codes of one length are the digits of the
code point to the base 64, the highest first; so the first byte in which two texts differ belongs to
the first character in which they differ, and is smaller where the character is.

## Main definitions

* `Text.bytes` — the UTF-8 bytes of a text.
* `Lookahead.ComesBefore` — terminals by their bytes, then the end of the program.

## Main statements

* `Text.lt_iff_bytes` — comparing texts is comparing their bytes.
* `Lookahead.comesBefore_iff` — look-ahead sets are listed in this order.
-/

namespace ToneScript

namespace Text

variable {s t : String} {c d : Char} {l l' : List Char}

/-- The UTF-8 bytes of a text. -/
def bytes (s : String) : List UInt8 := s.toUTF8.data.toList

theorem bytes_eq_flatMap (s : String) : bytes s = s.toList.flatMap String.utf8EncodeChar := by
  have hbytes : s.toUTF8 = (s.toList.flatMap String.utf8EncodeChar).toByteArray :=
    (congrArg String.toUTF8 String.ofList_toList).symm
  rw [bytes, hbytes, List.toList_data_toByteArray]

/-- Bytes that are given by numbers are compared like these. -/
theorem lex_ofNat_iff {m n : Nat} {u v : List UInt8} (hm : m < 256) (hn : n < 256) :
    List.Lex (· < ·) (UInt8.ofNat m :: u) (UInt8.ofNat n :: v) ↔
      m < n ∨ m = n ∧ List.Lex (· < ·) u v := by
  have hm' : (UInt8.ofNat m).toNat = m := by
    rw [UInt8.toNat_ofNat']
    omega
  have hn' : (UInt8.ofNat n).toNat = n := by
    rw [UInt8.toNat_ofNat']
    omega
  rw [List.cons_lex_cons_iff, UInt8.lt_iff_toNat_lt, ← UInt8.toNat_inj, hm', hn']

/-- The codes of two characters differ first where the one that comes before has the smaller
byte, whatever stands behind them. -/
theorem lex_utf8EncodeChar (h : c < d) (u v : List UInt8) :
    List.Lex (· < ·) (String.utf8EncodeChar c ++ u) (String.utf8EncodeChar d ++ v) := by
  have hlt : c.val.toNat < d.val.toNat := h
  have hd : d.val.toNat < 0x110000 := by
    rcases d.valid with h | h
    · exact Nat.lt_trans h (by decide)
    · exact h.2
  -- the digits to the base 64, one from the next
  have hsecond (n : Nat) : n / 4096 = n / 64 / 64 := (Nat.div_div_eq_div_mul n 64 64).symm
  have hthird (n : Nat) : n / 262144 = n / 64 / 64 / 64 := by
    rw [Nat.div_div_eq_div_mul, Nat.div_div_eq_div_mul]
  unfold String.utf8EncodeChar
  generalize c.val.toNat = m at *
  generalize d.val.toNat = n at *
  dsimp only
  -- for each length of the one code and of the other
  split_ifs <;>
    simp (disch := omega) only [List.cons_append, List.nil_append, lex_ofNat_iff, hsecond,
      hthird] <;>
    omega

theorem lex_flatMap_utf8EncodeChar (h : List.Lex (· < ·) l l') :
    List.Lex (· < ·) (l.flatMap String.utf8EncodeChar) (l'.flatMap String.utf8EncodeChar) := by
  induction h with
  | @nil d l' =>
      have hne : (d :: l').flatMap String.utf8EncodeChar ≠ [] := by
        rw [List.flatMap_cons, ne_eq, List.append_eq_nil_iff, not_and]
        intro hcode
        have hsize := d.utf8Size_pos
        rw [← String.length_utf8EncodeChar, hcode] at hsize
        exact absurd hsize (Nat.lt_irrefl 0)
      obtain ⟨b, v, hv⟩ := List.exists_cons_of_ne_nil hne
      rw [hv]
      exact .nil
  | @cons c l l' _ ih =>
      rw [List.flatMap_cons, List.flatMap_cons]
      generalize String.utf8EncodeChar c = w
      induction w with
      | nil => exact ih
      | cons b w ihw => exact .cons ihw
  | rel h => exact lex_utf8EncodeChar h _ _

theorem bytes_lex_of_lt (h : s < t) : List.Lex (· < ·) (bytes s) (bytes t) := by
  rw [bytes_eq_flatMap, bytes_eq_flatMap]
  exact lex_flatMap_utf8EncodeChar h

/-- Comparing texts is comparing their bytes. -/
theorem lt_iff_bytes : s < t ↔ List.Lex (· < ·) (bytes s) (bytes t) := by
  constructor
  · exact bytes_lex_of_lt
  · intro h
    by_cases hst : s < t
    · exact hst
    · by_cases hts : t < s
      · exact absurd h (List.lt_asymm (bytes_lex_of_lt hts))
      · have heq : s = t := String.le_antisymm (String.not_lt.1 hts) (String.not_lt.1 hst)
        subst heq
        exact absurd h (List.lt_irrefl _)

end Text

namespace Lookahead

/-- The order in which look-aheads are named: terminals by their bytes, then the end of the
program. -/
inductive ComesBefore : Lookahead → Lookahead → Prop
  /-- The bytes of the one terminal come first. -/
  | terminals {s t : String} (h : List.Lex (· < ·) (Text.bytes s) (Text.bytes t)) :
      ComesBefore (.terminal s) (.terminal t)
  /-- The end comes after all terminals. -/
  | endMark (s : String) : ComesBefore (.terminal s) .endMark

/-- This is the order in which look-ahead sets are listed, but for the empty sequence. -/
theorem comesBefore_iff {a b : Lookahead} : a.ComesBefore b ↔ a < b ∧ b ≠ .empty := by
  constructor
  · intro h
    cases h with
    | terminals h => exact ⟨Text.lt_iff_bytes.2 h, by simp⟩
    | endMark s => exact ⟨trivial, by simp⟩
  · rintro ⟨h, hb⟩
    cases a with
    | terminal s =>
        cases b with
        | terminal t => exact .terminals (Text.lt_iff_bytes.1 h)
        | endMark => exact .endMark s
        | empty => exact absurd rfl hb
    | endMark =>
        cases b with
        | terminal t => exact h.elim
        | endMark => exact h.elim
        | empty => exact absurd rfl hb
    | empty => cases b <;> exact h.elim

theorem ComesBefore.asymm {a b : Lookahead} (h : a.ComesBefore b) : ¬ b.ComesBefore a := by
  intro h'
  rw [comesBefore_iff] at h h'
  exact lt_irrefl a (lt_trans h.1 h'.1)

end Lookahead

end ToneScript
