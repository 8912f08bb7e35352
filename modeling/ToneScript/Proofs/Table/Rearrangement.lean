import ToneScript.Proofs.Lookahead.Neighbours
import ToneScript.Proofs.Table.Predictive

/-!
# Grammars in another order

The order in which productions are declared numbers the nonterminals, decides in which order
the passes of the analysis visit the productions, and names the alternatives of a conflict.
What the analysis finds does not depend on it.  FIRST and FOLLOW are given by rewriting, which
knows the productions only as a set, and the absence of conflicts is a matter of pairs of
alternatives, whichever comes first.

A production that is declared twice can be in conflict with itself, so that rearrangements are
permutations and not only lists with the same members.

## Main definitions

* `Grammar.Rearranges` — the same productions in another order, and the same start symbol.

## Main statements

* `Grammar.Rearranges.get?_firstSets`, `Grammar.Rearranges.get?_followSets`,
  `Grammar.Rearranges.predict_eq` — what the analysis finds is the same.
* `Table.conflict?_eq_none_iff` — a table without conflicts, alternative by alternative.
* `Grammar.Rearranges.exists_build` — both grammars have tables, or none has.
* `Grammar.Rearranges.select?_entryOf` — the same production is selected.
-/

namespace ToneScript

variable {g g' : Grammar} {p : Production} {u v w z : List Symbol} {c : Symbol} {x : String}
  {l : Lookahead} {m m' : LookaheadMap}

/-- Maps that know the same names and give them the same sets agree on a name. -/
theorem LookaheadMap.get?_congr (hn : x ∈ m.names ↔ x ∈ m'.names) (h : m.getD x = m'.getD x) :
    m.get? x = m'.get? x := by
  by_cases hx : x ∈ m.names
  · rw [get?_eq_some_getD hx, get?_eq_some_getD (hn.1 hx), h]
  · have hnone : ∀ {m : LookaheadMap}, x ∉ m.names → m.get? x = none := by
      intro m hx
      rw [get?, List.lookup_eq_none_iff]
      rintro ⟨y, s⟩ he
      have hne : x ≠ y := fun hy => hx (List.mem_map.2 ⟨(y, s), he, hy.symm⟩)
      simpa using hne
    rw [hnone hx, hnone fun hx' => hx (hn.2 hx')]

namespace Grammar

/-! ## More productions -/

section Subset

variable (hp : g.productions ⊆ g'.productions)

include hp

theorem Produces.mono (h : g.Produces v w) : g'.Produces v w := by
  obtain ⟨u, z, hmem⟩ := h
  exact .intro u z (hp hmem)

theorem Rewrites.mono (h : g.Rewrites v w) : g'.Rewrites v w := by
  induction h with
  | refl => exact Relation.ReflTransGen.refl
  | tail _ hstep ih => exact ih.tail (hstep.mono hp)

theorem Derives.mono (h : g.Derives w z) : g'.Derives w z := by
  induction h with
  | nil => exact .nil
  | input hx _ ih => exact .input hx ih
  | skip hx _ ih => exact .skip hx ih
  | expand hmem _ _ ihr ih => exact .expand (hp hmem) ihr ih

theorem Begins.mono (h : g.Begins c w) : g'.Begins c w := by
  induction h with
  | here w => exact .here w
  | skip hx _ ih => exact .skip hx ih
  | inside hmem _ ih => exact .inside (hp hmem) ih
  | behind hmem hr _ ih => exact .behind (hp hmem) (hr.mono hp) ih

theorem Shows.mono (h : g.Shows w l) : g'.Shows w l := by
  cases l with
  | terminal t => exact Begins.mono hp h
  | endMark => exact Begins.mono hp h
  | empty => exact Derives.mono hp h

theorem nonterminals_mono (hx : x ∈ g.nonterminals) : x ∈ g'.nonterminals := by
  obtain ⟨p, hmem, hlhs⟩ := mem_nonterminals.1 hx
  exact mem_nonterminals.2 ⟨p, hp hmem, hlhs⟩

theorem Follows.mono (hs : g.start = g'.start) (h : g.Follows x l) : g'.Follows x l := by
  rcases h with ⟨c, hc, y, hy, u, v, h⟩ | ⟨hl, u, h⟩
  · exact .inl ⟨c, hc, y, nonterminals_mono hp hy, u, v, h.mono hp⟩
  · rw [hs] at h
    exact .inr ⟨hl, u, h.mono hp⟩

end Subset

/-! ## The same productions -/

/-- The productions of the one grammar are those of the other in some order, and the start
symbol is the same. -/
structure Rearranges (g g' : Grammar) : Prop where
  /-- Every production is declared as often as before. -/
  perm : g.productions.Perm g'.productions
  /-- The first production may be another one, but not one of another nonterminal. -/
  start_eq : g.start = g'.start

namespace Rearranges

variable (h : g.Rearranges g')

include h

theorem symm : g'.Rearranges g := ⟨h.perm.symm, h.start_eq.symm⟩

theorem subset : g.productions ⊆ g'.productions := h.perm.subset

theorem mem_nonterminals_iff : x ∈ g.nonterminals ↔ x ∈ g'.nonterminals :=
  ⟨nonterminals_mono h.subset, nonterminals_mono h.symm.subset⟩

/-- FIRST of every sequence is the same. -/
theorem firstOf_eq (w : List Symbol) : firstOf g.firstSets w = firstOf g'.firstSets w := by
  ext l
  rw [mem_firstOf_firstSets, mem_firstOf_firstSets]
  exact ⟨Shows.mono h.subset, Shows.mono h.symm.subset⟩

theorem getD_firstSets (x : String) : g.firstSets.getD x = g'.firstSets.getD x := by
  rw [← firstOf_nonterminal, h.firstOf_eq, firstOf_nonterminal]

theorem get?_firstSets (x : String) : g.firstSets.get? x = g'.firstSets.get? x := by
  apply LookaheadMap.get?_congr
  · rw [(bounded_firstSets g).names_eq, (bounded_firstSets g').names_eq]
    exact h.mem_nonterminals_iff
  · exact h.getD_firstSets x

/-- FOLLOW of every nonterminal is the same. -/
theorem follow_eq (x : String) : g.follow x = g'.follow x := by
  ext l
  rw [follow, follow, mem_followSets, mem_followSets]
  exact ⟨Follows.mono h.subset h.start_eq, Follows.mono h.symm.subset h.symm.start_eq⟩

theorem get?_followSets (x : String) :
    (g.followSets g.firstSets).get? x = (g'.followSets g'.firstSets).get? x := by
  apply LookaheadMap.get?_congr
  · rw [(bounded_followSets g _).names_eq, (bounded_followSets g' _).names_eq]
    exact h.mem_nonterminals_iff
  · exact h.follow_eq x

/-- Every production is chosen on the same look-aheads. -/
theorem predict_eq (p : Production) : g.predict p = g'.predict p := by
  rw [Grammar.predict_eq, Grammar.predict_eq, h.firstOf_eq, h.follow_eq]

theorem alternatives_perm (x : String) : (g.alternatives x).Perm (g'.alternatives x) :=
  h.perm.filter _

end Rearranges

end Grammar

/-! ## Conflicts -/

/-- No look-ahead is a reason to choose both. -/
def Alternative.Apart (a b : Alternative) : Prop := ∀ l ∈ a.predict, l ∉ b.predict

/-- An entry is without conflict if any two of its alternatives are apart. -/
theorem Entry.conflict?_eq_none_iff {e : Entry} :
    e.conflict? = none ↔ e.alternatives.Pairwise Alternative.Apart := by
  constructor
  · intro h
    rw [List.pairwise_iff_getElem]
    intro i j hi hj hij l hl
    exact Table.disjoint_of_conflict?_eq_none h hij (List.getElem?_eq_getElem hi)
      (List.getElem?_eq_getElem hj) hl
  · intro h
    rw [Entry.conflict?, List.findSome?_eq_none_iff]
    rintro ⟨a, i⟩ ha
    rw [List.findSome?_eq_none_iff]
    rintro ⟨b, j⟩ hb
    rw [List.mk_mem_zipIdx_iff_getElem?] at ha
    obtain ⟨hij, hb⟩ := Table.mem_drop_zipIdx_iff.1 hb
    obtain ⟨hi, rfl⟩ := List.getElem?_eq_some_iff.1 ha
    obtain ⟨hj, rfl⟩ := List.getElem?_eq_some_iff.1 hb
    have hapart := List.pairwise_iff_getElem.1 h i j hi hj hij
    rw [Option.map_eq_none_iff, Table.head?_inter_eq_none_iff]
    exact hapart

namespace Table

/-- A table is without conflict if the productions of a nonterminal are chosen on different
look-aheads, position by position. -/
theorem conflict?_eq_none_iff :
    (compute g).conflict? = none ↔ ∀ x ∈ g.nonterminals,
      (g.alternatives x).Pairwise fun p q => ∀ l ∈ g.predict p, l ∉ g.predict q := by
  rw [conflict?, entries_compute, List.findSome?_eq_none_iff, List.forall_mem_map]
  refine forall₂_congr fun x _ => ?_
  rw [Entry.conflict?_eq_none_iff, entryOf, List.pairwise_map]
  rfl

theorem exists_build_iff : (∃ t, build g = .ok t) ↔ (compute g).conflict? = none := by
  constructor
  · rintro ⟨t, h⟩
    exact conflict?_eq_none_of_build h
  · intro h
    exact ⟨compute g, by rw [build, h]⟩

end Table

namespace Grammar.Rearranges

variable (h : g.Rearranges g')

include h

theorem conflict?_eq_none (hg : (Table.compute g).conflict? = none) :
    (Table.compute g').conflict? = none := by
  rw [Table.conflict?_eq_none_iff] at hg ⊢
  intro x hx
  have hpairs := (h.alternatives_perm x).pairwise (hg x (h.mem_nonterminals_iff.2 hx))
    fun hpq l hq hp => hpq l hp hq
  simpa only [h.predict_eq] using hpairs

/-- Both grammars have tables, or none has. -/
theorem exists_build : (∃ t, Table.build g = .ok t) ↔ ∃ t, Table.build g' = .ok t := by
  rw [Table.exists_build_iff, Table.exists_build_iff]
  exact ⟨h.conflict?_eq_none, h.symm.conflict?_eq_none⟩

/-! ## What is chosen -/

theorem select?_entryOf_eq_some (hg' : g'.Predictive) {a : Alternative}
    (ha : (Table.entryOf g x).select? l = some a) :
    (Table.entryOf g' x).select? l = some (Table.alternativeOf g' a.production) := by
  obtain ⟨p, hp, rfl, hl, rfl⟩ := Table.exists_of_select?_entryOf ha
  rw [h.predict_eq] at hl
  exact Table.select?_entryOf hg' (h.subset hp) hl

/-- The alternatives that are selected stem from the same production. -/
theorem select?_entryOf (hg : g.Predictive) (hg' : g'.Predictive) (x : String) (l : Lookahead) :
    (Table.entryOf g' x).select? l =
      ((Table.entryOf g x).select? l).map fun a => Table.alternativeOf g' a.production := by
  cases ha : (Table.entryOf g x).select? l with
  | some a => exact h.select?_entryOf_eq_some hg' ha
  | none =>
      cases ha' : (Table.entryOf g' x).select? l with
      | none => rfl
      | some a' =>
          rw [h.symm.select?_entryOf_eq_some hg ha'] at ha
          cases ha

end Grammar.Rearranges

end ToneScript
