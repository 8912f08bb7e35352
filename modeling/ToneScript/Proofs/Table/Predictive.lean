import ToneScript.Table.Basic

/-!
# Tables without conflicts

A table is built only if no two alternatives of a nonterminal are chosen on the same
look-ahead.  The alternative that is chosen is then no matter of order: it is the one
alternative whose set holds the look-ahead.

## Main definitions

* `Grammar.follow`, `Grammar.predict` — what can stand behind a nonterminal, and what a
  production is chosen on.
* `Grammar.Predictive` — productions of one nonterminal are chosen on different
  look-aheads.
* `Table.entryOf`, `Table.alternativeOf` — the parts of a table by name.

## Main statements

* `Table.build_eq_ok` — a table that is built is the one that is computed, and the
  grammar is predictive.
* `Table.select?_entryOf`, `Table.exists_of_select?_entryOf` — what is chosen.
-/

namespace ToneScript

variable {g : Grammar} {t : Table} {p : Production} {x : String} {l : Lookahead}

namespace Grammar

/-- What can stand behind a nonterminal. -/
def follow (g : Grammar) (x : String) : LookaheadSet := (g.followSets g.firstSets).getD x

/-- What the parser has to see in order to choose a production. -/
def predict (g : Grammar) (p : Production) : LookaheadSet :=
  ToneScript.predict g.firstSets (g.followSets g.firstSets) p

theorem predict_eq (g : Grammar) (p : Production) :
    g.predict p = (firstOf g.firstSets p.rhs).followedBy (g.follow p.lhs) := rfl

/-- Two productions of a nonterminal are never chosen on the same look-ahead. -/
def Predictive (g : Grammar) : Prop :=
  ∀ p ∈ g.productions, ∀ q ∈ g.productions, p.lhs = q.lhs →
    ∀ l, l ∈ g.predict p → l ∈ g.predict q → p = q

end Grammar

namespace Table

/-- The alternative of a production. -/
def alternativeOf (g : Grammar) (p : Production) : Alternative :=
  ⟨p, g.predict p, p.rhs.map (step g.nonterminals)⟩

/-- The entry of a nonterminal. -/
def entryOf (g : Grammar) (x : String) : Entry :=
  ⟨x, g.firstSets.getD x, g.follow x, (g.alternatives x).map (alternativeOf g)⟩

theorem entries_compute (g : Grammar) :
    (compute g).entries = (g.nonterminals.map (entryOf g)).toArray := rfl

theorem start_compute (g : Grammar) : (compute g).start = g.nonterminals.idxOf g.start := rfl

theorem eq_nonterminal_of_step_eq_expand {names : List String} {y : Symbol} {id : Nat}
    (h : step names y = .expand id) : ∃ x, y = .nonterminal x ∧ id = names.idxOf x := by
  cases y with
  | nonterminal x =>
      cases h
      exact ⟨x, rfl, rfl⟩
  | terminal t => cases h
  | action a => cases h
  | epsilon => cases h
  | endMark => cases h

/-- A nonterminal is found at its number. -/
theorem getElem?_entries_compute (hx : x ∈ g.nonterminals) :
    (compute g).entries[g.nonterminals.idxOf x]? = some (entryOf g x) := by
  have hlt : g.nonterminals.idxOf x < g.nonterminals.length := List.idxOf_lt_length_of_mem hx
  rw [entries_compute, List.getElem?_toArray, List.getElem?_map,
    List.getElem?_eq_getElem hlt, List.getElem_idxOf hlt, Option.map_some]

/-- A step that derives a nonterminal stems from a nonterminal, whose entry it is about. -/
theorem exists_entryOf {id : Nat} {e : Entry} {w : List Symbol}
    (hw : [.expand id] = w.map (step g.nonterminals))
    (hx : ∀ x, .nonterminal x ∈ w → x ∈ g.nonterminals) (he : (compute g).entries[id]? = some e) :
    ∃ x ∈ g.nonterminals, w = [.nonterminal x] ∧ e = entryOf g x := by
  obtain ⟨y, rfl, hy⟩ := List.map_eq_singleton_iff.1 hw.symm
  obtain ⟨x, rfl, rfl⟩ := eq_nonterminal_of_step_eq_expand hy
  have hmem : x ∈ g.nonterminals := hx x (List.mem_singleton.2 rfl)
  rw [getElem?_entries_compute hmem] at he
  exact ⟨x, hmem, rfl, (Option.some.inj he).symm⟩

/-! ## Conflicts -/

/-- What is left behind a position stands at greater positions. -/
theorem mem_drop_zipIdx_iff {α : Type} {l : List α} {n j : Nat} {b : α} :
    (b, j) ∈ l.zipIdx.drop n ↔ n ≤ j ∧ l[j]? = some b := by
  have hget : ∀ k, (l.zipIdx.drop n)[k]? = (l[n + k]?).map (·, n + k) := by
    intro k
    rw [List.getElem?_drop, List.getElem?_zipIdx, Nat.zero_add]
  rw [List.mem_iff_getElem?]
  constructor
  · rintro ⟨k, hk⟩
    rw [hget, Option.map_eq_some_iff] at hk
    obtain ⟨_, hb, heq⟩ := hk
    cases heq
    exact ⟨Nat.le_add_right n k, hb⟩
  · rintro ⟨hn, hb⟩
    refine ⟨j - n, ?_⟩
    rw [hget, Nat.add_sub_cancel' hn, hb, Option.map_some]

/-- Sets have no first member in common if they have none at all. -/
theorem head?_inter_eq_none_iff {s s' : LookaheadSet} :
    (s ∩ s').toList.head? = none ↔ ∀ l ∈ s, l ∉ s' := by
  rw [List.head?_eq_none_iff, List.eq_nil_iff_forall_not_mem]
  simp

theorem disjoint_of_conflict?_eq_none {e : Entry} (h : e.conflict? = none) {i j : Nat}
    {a b : Alternative} (hij : i < j) (ha : e.alternatives[i]? = some a)
    (hb : e.alternatives[j]? = some b) (hl : l ∈ a.predict) : l ∉ b.predict := by
  rw [Entry.conflict?, List.findSome?_eq_none_iff] at h
  have hrow := h (a, i) (List.mk_mem_zipIdx_iff_getElem?.2 ha)
  rw [List.findSome?_eq_none_iff] at hrow
  have hcell := hrow (b, j) (mem_drop_zipIdx_iff.2 ⟨hij, hb⟩)
  rw [Option.map_eq_none_iff, head?_inter_eq_none_iff] at hcell
  exact hcell l hl

/-- Where no conflict is found, alternatives that are chosen on the same look-ahead stand at the
same position. -/
theorem position_eq_of_conflict?_eq_none (h : (compute g).conflict? = none) {i j : Nat}
    {q : Production} (hi : (g.alternatives x)[i]? = some p) (hj : (g.alternatives x)[j]? = some q)
    (hl : l ∈ g.predict p) (hl' : l ∈ g.predict q) : i = j := by
  have hp := Grammar.mem_alternatives.1 (List.mem_of_getElem? hi)
  have hentry : (entryOf g x).conflict? = none := by
    rw [conflict?, List.findSome?_eq_none_iff] at h
    refine h _ ?_
    rw [entries_compute, List.mem_map]
    exact ⟨x, Grammar.mem_nonterminals.2 ⟨p, hp⟩, rfl⟩
  have ha : (entryOf g x).alternatives[i]? = some (alternativeOf g p) := by
    rw [entryOf, List.getElem?_map, hi, Option.map_some]
  have hb : (entryOf g x).alternatives[j]? = some (alternativeOf g q) := by
    rw [entryOf, List.getElem?_map, hj, Option.map_some]
  rcases Nat.lt_trichotomy i j with hij | hij | hij
  · exact absurd hl' (disjoint_of_conflict?_eq_none hentry hij ha hb hl)
  · exact hij
  · exact absurd hl (disjoint_of_conflict?_eq_none hentry hij hb ha hl')

theorem predictive_of_conflict?_eq_none (h : (compute g).conflict? = none) : g.Predictive := by
  intro p hp q hq hlhs l hl hl'
  obtain ⟨i, hi⟩ := List.getElem?_of_mem (Grammar.mem_alternatives.2 ⟨hp, rfl⟩)
  obtain ⟨j, hj⟩ := List.getElem?_of_mem (Grammar.mem_alternatives.2 ⟨hq, hlhs.symm⟩)
  have hij := position_eq_of_conflict?_eq_none h hi hj hl hl'
  rw [hij, hj] at hi
  exact (Option.some.inj hi).symm

theorem conflict?_eq_none_of_build (h : build g = .ok t) : (compute g).conflict? = none := by
  rw [build] at h
  split at h
  · cases h
  · assumption

/-- A table is built only for a predictive grammar. -/
theorem build_eq_ok (h : build g = .ok t) : t = compute g ∧ g.Predictive := by
  have hnone := conflict?_eq_none_of_build h
  rw [build, hnone] at h
  exact ⟨(Except.ok.inj h).symm, predictive_of_conflict?_eq_none hnone⟩

/-! ## What is chosen -/

/-- Every alternative stems from a production that is chosen on this look-ahead. -/
theorem exists_of_select?_entryOf {a : Alternative} (h : (entryOf g x).select? l = some a) :
    ∃ p ∈ g.productions, p.lhs = x ∧ l ∈ g.predict p ∧ a = alternativeOf g p := by
  have hl : l ∈ a.predict := by simpa using List.find?_some h
  have hmem := List.mem_of_find?_eq_some h
  rw [entryOf, List.mem_map] at hmem
  obtain ⟨p, hp, rfl⟩ := hmem
  rw [Grammar.mem_alternatives] at hp
  exact ⟨p, hp.1, hp.2, hl, rfl⟩

/-- In a predictive grammar the production that allows the look-ahead is chosen. -/
theorem select?_entryOf (hg : g.Predictive) (hp : p ∈ g.productions) (hl : l ∈ g.predict p) :
    (entryOf g p.lhs).select? l = some (alternativeOf g p) := by
  cases hs : (entryOf g p.lhs).select? l with
  | some a =>
      obtain ⟨q, hq, hlhs, hlq, rfl⟩ := exists_of_select?_entryOf hs
      rw [hg q hq p hp hlhs l hlq hl]
  | none =>
      have hmem : alternativeOf g p ∈ (entryOf g p.lhs).alternatives :=
        List.mem_map_of_mem (Grammar.mem_alternatives.2 ⟨hp, rfl⟩)
      have hno : l ∉ (alternativeOf g p).predict := by
        simpa using List.find?_eq_none.1 hs _ hmem
      exact absurd hl hno

end Table

end ToneScript
