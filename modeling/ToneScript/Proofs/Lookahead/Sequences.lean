import Mathlib.Order.Basic
import ToneScript.Proofs.Lookahead.Saturation

/-!
# FIRST of sequences

FIRST of a sequence can be found by going along it.  What each symbol can begin with is added to
what has been found, and the first symbol that does not vanish is the last one to be looked at.
How far that goes depends on the map, which may hold anything at all, and need not have a set for
every name.

Nevertheless FIRST of a sequence is told from FIRST of its parts.  The set of what two sequences
can begin with, one behind the other, is made of their sets by an operation that is associative
and has a unit, and FIRST carries sequences over to it.  The operation only adds to what it makes
when its operands grow, and so does FIRST when the map grows: where a symbol comes to vanish that
did not before, more symbols are looked at, and nothing is lost.

## Main definitions

* The order of maps, which compares the sets of each name.
* `firstOnto` — FIRST of a sequence, by going along it.

## Main statements

* `firstOnto_eq` — going along a sequence adds FIRST of it to what has been found.
* `firstOf_append` — FIRST of two sequences, one behind the other.
* `firstOf_mono` — FIRST grows with the map.
-/

namespace ToneScript

/-! ## Sets, one behind the other -/

namespace LookaheadSet

variable {s s' t t' u : LookaheadSet}

theorem followedBy_of_empty_mem (h : .empty ∈ s) (t : LookaheadSet) :
    s.followedBy t = s.erase .empty ∪ t := if_pos h

theorem followedBy_of_empty_notMem (h : .empty ∉ s) (t : LookaheadSet) : s.followedBy t = s :=
  if_neg h

/-- Behind what can only vanish everything shows. -/
theorem singleton_empty_followedBy (t : LookaheadSet) : (singleton .empty).followedBy t = t := by
  ext l
  rw [mem_followedBy, mem_singleton, mem_singleton]
  simp

theorem followedBy_assoc (s t u : LookaheadSet) :
    (s.followedBy t).followedBy u = s.followedBy (t.followedBy u) := by
  by_cases hs : .empty ∈ s
  · ext l
    simp only [mem_followedBy]
    grind
  · rw [followedBy_of_empty_notMem hs, followedBy_of_empty_notMem hs, followedBy_of_empty_notMem hs]

/-- A larger set shows more, also of what is behind it. -/
theorem followedBy_mono (hs : s ⊆ s') (ht : t ⊆ t') : s.followedBy t ⊆ s'.followedBy t' := by
  intro l hl
  rcases mem_followedBy.1 hl with ⟨hl, hne⟩ | ⟨hempty, hl⟩
  · exact mem_followedBy.2 (.inl ⟨hs l hl, hne⟩)
  · exact mem_followedBy.2 (.inr ⟨hs _ hempty, ht l hl⟩)

end LookaheadSet

/-! ## Larger maps -/

namespace LookaheadMap

/-- A map is below another one if each of its sets is contained in the set that has the same name
there.  A name without a set is as good as one with the empty set. -/
instance : Preorder LookaheadMap where
  le m m' := ∀ x, m.getD x ⊆ m'.getD x
  le_refl _ _ _ hl := hl
  le_trans _ _ _ h h' x l hl := h' x l (h x l hl)

theorem le_grow (m : LookaheadMap) (x : String) (s : LookaheadSet) : m ≤ m.grow x s := by
  intro y l hl
  rw [getD_grow]
  split
  · rename_i hy
    rw [hy] at hl
    exact LookaheadSet.mem_union.2 (.inl hl)
  · exact hl

end LookaheadMap

/-! ## FIRST -/

variable {m m' : LookaheadMap} {u v w : List Symbol}

/-- What the symbols of a sequence can begin with is added to `found`, up to the first one that
does not vanish.  If they all vanish, the mark of the empty sequence is added. -/
def firstOnto (first : LookaheadMap) (found : LookaheadSet) : List Symbol → LookaheadSet
  | [] => found.insert .empty
  | .terminal t :: _ => found.insert (.terminal t)
  | .endMark :: _ => found.insert .endMark
  | .epsilon :: w | .action _ :: w => firstOnto first found w
  | .nonterminal x :: w =>
    match first.get? x with
    | none => found
    | some s =>
      if .empty ∈ s then firstOnto first (found ∪ s.erase .empty) w else found ∪ s.erase .empty

theorem union_singleton (s : LookaheadSet) (l : Lookahead) : s ∪ .singleton l = s.insert l := by
  ext k
  rw [LookaheadSet.mem_union, LookaheadSet.mem_singleton, LookaheadSet.mem_insert, or_comm]

/-- Going along a sequence adds FIRST of it to what has been found. -/
theorem firstOnto_eq (first : LookaheadMap) (found : LookaheadSet) (w : List Symbol) :
    firstOnto first found w = found ∪ firstOf first w := by
  induction w generalizing found with
  | nil => rw [firstOnto, firstOf, union_singleton]
  | cons c w ih =>
      cases c with
      | terminal t => rw [firstOnto, firstOf, union_singleton]
      | endMark => rw [firstOnto, firstOf, union_singleton]
      | epsilon => exact ih found
      | action a => exact ih found
      | nonterminal x =>
          rw [firstOnto, firstOf, LookaheadMap.getD]
          cases first.get? x with
          | none =>
              ext l
              simp
          | some s =>
              rw [Option.getD_some]
              dsimp only
              split
              · rename_i hempty
                rw [ih, LookaheadSet.followedBy_of_empty_mem hempty]
                ext l
                simp only [LookaheadSet.mem_union, or_assoc]
              · rename_i hempty
                rw [LookaheadSet.followedBy_of_empty_notMem hempty]
                ext l
                grind

/-- FIRST of two sequences, one behind the other. -/
theorem firstOf_append (m : LookaheadMap) (u v : List Symbol) :
    firstOf m (u ++ v) = (firstOf m u).followedBy (firstOf m v) := by
  induction u with
  | nil => rw [List.nil_append, firstOf, LookaheadSet.singleton_empty_followedBy]
  | cons c u ih =>
      rw [List.cons_append]
      cases c with
      | terminal t => rw [firstOf, firstOf, LookaheadSet.followedBy_of_empty_notMem (by simp)]
      | endMark => rw [firstOf, firstOf, LookaheadSet.followedBy_of_empty_notMem (by simp)]
      | epsilon => exact ih
      | action a => exact ih
      | nonterminal x => rw [firstOf, firstOf, ih, LookaheadSet.followedBy_assoc]

/-- FIRST grows with the map. -/
theorem firstOf_mono (h : m ≤ m') (w : List Symbol) : firstOf m w ⊆ firstOf m' w := by
  induction w with
  | nil => exact fun _ hl => hl
  | cons c w ih =>
      cases c with
      | terminal t => exact fun _ hl => hl
      | endMark => exact fun _ hl => hl
      | epsilon => exact ih
      | action a => exact ih
      | nonterminal x => exact LookaheadSet.followedBy_mono (h x) ih

/-- FIRST of two sequences, one behind the other, is FIRST of the first one, and if that can
vanish, what it can begin with otherwise together with FIRST of the second one.  And FIRST is
monotone: larger sets lead to a larger one.  Both hold for all maps, whatever they hold, and for
FIRST as it is found by going along a sequence. -/
theorem firstOf_append_and_mono :
    (∀ m w, firstOnto m ∅ w = firstOf m w) ∧
      (∀ m u v, firstOf m (u ++ v) =
        if .empty ∈ firstOf m u then (firstOf m u).erase .empty ∪ firstOf m v else firstOf m u) ∧
      ∀ m m', m ≤ m' → ∀ w, firstOf m w ⊆ firstOf m' w := by
  refine ⟨fun m w => ?_, firstOf_append, fun m m' h w => firstOf_mono h w⟩
  rw [firstOnto_eq]
  ext l
  simp

/-- A map with a single set. -/
def lonely : LookaheadMap := ⟨[("A", .singleton (.terminal "a"))]⟩

/-- The same map, only that `A` can vanish, and that `B` has a set as well. -/
def lessLonely : LookaheadMap :=
  (lonely.grow "A" (.singleton .empty)).grow "B" (.singleton (.terminal "b"))

/-- Where a symbol comes to vanish and a name comes to have a set, a sequence is looked at further
than before, and FIRST is larger. -/
theorem firstOf_append_and_mono_absent :
    lonely ≤ lessLonely ∧
      firstOf lonely [.nonterminal "A", .nonterminal "B", .terminal "c"] =
        .singleton (.terminal "a") ∧
      firstOf lessLonely [.nonterminal "A", .nonterminal "B", .terminal "c"] =
        .ofList [.terminal "a", .terminal "b"] ∧
      firstOf lonely [.nonterminal "A", .nonterminal "B", .terminal "c"] ⊆
        firstOf lessLonely [.nonterminal "A", .nonterminal "B", .terminal "c"] := by
  have hle : lonely ≤ lessLonely :=
    (LookaheadMap.le_grow lonely "A" _).trans (LookaheadMap.le_grow _ "B" _)
  refine ⟨hle, by decide +kernel, by decide +kernel, ?_⟩
  exact firstOf_append_and_mono.2.2 lonely lessLonely hle _

end ToneScript
