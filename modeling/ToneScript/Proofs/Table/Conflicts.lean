import ToneScript.Grammar.Text
import ToneScript.Proofs.Table.Assembly
import ToneScript.Proofs.Table.Rearrangement
import ToneScript.Proofs.Text.ByteOrder

/-!
# The conflict that is reported

The search for conflicts goes through the nonterminals, and for each of them through the pairs of
its alternatives, which need not stand together in the grammar.  What it reports is told here
without the search.  Of all the nonterminals with two alternatives for one look-ahead it is the one
that is declared first, of all such pairs of its alternatives the first, by the one position and
then the other, and of all the look-aheads they share the least.

## Main definitions

* `Entry.Shares`, `Grammar.Shares` — two alternatives are chosen on the same look-ahead.
* `Grammar.FirstConflict` — the conflict that is reported.

## Main statements

* `Entry.shares_of_conflict?` — what the search in one entry finds.
* `Table.build_eq_error_iff` — what is reported of a grammar.
* `Table.build_decides` — when there is a table, and what there is otherwise.
-/

namespace ToneScript

variable {g : Grammar} {e : Entry} {c c' : Table.Conflict} {x : String} {i j : Nat} {l : Lookahead}

/-! ## Searching in order -/

/-- In a list in order, the search finds what comes first. -/
theorem exists_of_findSome? {α β : Type} {R : α → α → Prop} {f : α → Option β} {as : List α}
    {r : β} (hR : as.Pairwise R) (h : as.findSome? f = some r) :
    ∃ a ∈ as, f a = some r ∧ ∀ b ∈ as, b ≠ a → ¬ R a b → f b = none := by
  obtain ⟨before, a, behind, rfl, ha, hnone⟩ := List.findSome?_eq_some_iff.1 h
  refine ⟨a, by simp, ha, ?_⟩
  intro b hb hne hab
  rw [List.mem_append, List.mem_cons] at hb
  rcases hb with hb | rfl | hb
  · exact hnone b hb
  · exact absurd rfl hne
  · rw [List.pairwise_append, List.pairwise_cons] at hR
    exact absurd (hR.2.1.1 b hb) hab

theorem pairwise_drop_zipIdx {α : Type} (as : List α) (n : Nat) :
    (as.zipIdx.drop n).Pairwise fun a b => a.2 < b.2 := by
  apply List.Pairwise.sublist (List.drop_sublist n _)
  rw [List.pairwise_iff_getElem]
  intro i j hi hj hij
  simpa using hij

/-- The first member of a set is the least. -/
theorem LookaheadSet.eq_or_lt_of_head? {s : LookaheadSet} {a b : Lookahead}
    (ha : s.toList.head? = some a) (hb : b ∈ s) : b = a ∨ a < b := by
  obtain ⟨rest, hrest⟩ := List.head?_eq_some_iff.1 ha
  have hincreasing := s.increasing
  rw [hrest, List.pairwise_cons] at hincreasing
  rw [← mem_toList, hrest, List.mem_cons] at hb
  exact hb.imp_right (hincreasing.1 b)

/-! ## One entry -/

/-- The alternatives at two positions are both chosen on this look-ahead. -/
def Entry.Shares (e : Entry) (i j : Nat) (l : Lookahead) : Prop :=
  ∃ a b, e.alternatives[i]? = some a ∧ e.alternatives[j]? = some b ∧ l ∈ a.predict ∧ l ∈ b.predict

/-- What the search in one entry finds: the first pair of alternatives that share a look-ahead, and
the least one that they share. -/
theorem Entry.shares_of_conflict? (h : e.conflict? = some c) :
    c.nonterminal = e.name ∧ c.first < c.second ∧ e.Shares c.first c.second c.lookahead ∧
      (∀ l, e.Shares c.first c.second l → l = c.lookahead ∨ c.lookahead < l) ∧
      ∀ i j l, i < j → e.Shares i j l → c.first < i ∨ c.first = i ∧ c.second ≤ j := by
  have hzip : e.alternatives.zipIdx.Pairwise fun a b => a.2 < b.2 :=
    pairwise_drop_zipIdx e.alternatives 0
  obtain ⟨⟨a, i⟩, ha, hrow, hrows⟩ := exists_of_findSome? hzip h
  obtain ⟨⟨b, j⟩, hb, hcell, hcells⟩ := exists_of_findSome? (pairwise_drop_zipIdx _ _) hrow
  obtain ⟨l, hl, rfl⟩ := Option.map_eq_some_iff.1 hcell
  rw [List.mk_mem_zipIdx_iff_getElem?] at ha
  obtain ⟨hij, hb⟩ := Table.mem_drop_zipIdx_iff.1 hb
  have hmem : l ∈ a.predict ∩ b.predict := by
    rw [← LookaheadSet.mem_toList]
    exact List.mem_of_head? hl
  -- no cell is empty where a look-ahead is shared
  have hshared : ∀ {a b : Alternative} {l m}, l ∈ a.predict → l ∈ b.predict →
      (a.predict ∩ b.predict).toList.head?.map m ≠ (none : Option Table.Conflict) := by
    intro a b l m hla hlb hnone
    rw [Option.map_eq_none_iff, Table.head?_inter_eq_none_iff] at hnone
    exact hnone l hla hlb
  rw [LookaheadSet.mem_inter] at hmem
  refine ⟨rfl, hij, ⟨a, b, ha, hb, hmem⟩, ?_, ?_⟩
  · rintro l' ⟨a', b', ha', hb', hl'⟩
    rw [ha] at ha'
    rw [hb] at hb'
    cases ha'
    cases hb'
    exact LookaheadSet.eq_or_lt_of_head? hl (LookaheadSet.mem_inter.2 hl')
  · rintro i' j' l' hij' ⟨a', b', ha', hb', hla, hlb⟩
    by_contra hfirst
    change ¬ (i < i' ∨ i = i' ∧ j ≤ j') at hfirst
    have hcell' : (b', j') ∈ e.alternatives.zipIdx.drop (i' + 1) :=
      Table.mem_drop_zipIdx_iff.2 ⟨hij', hb'⟩
    by_cases hi : i' = i
    · -- an earlier cell in the same row
      subst hi
      rw [ha] at ha'
      cases ha'
      have hne : (b', j') ≠ (b, j) := by
        rintro ⟨⟩
        omega
      exact hshared hla hlb (hcells (b', j') hcell' hne (by dsimp only; omega))
    · -- an earlier row
      have hne : (a', i') ≠ (a, i) := by
        rintro ⟨⟩
        exact hi rfl
      have hnone := hrows (a', i') (List.mk_mem_zipIdx_iff_getElem?.2 ha') hne
        (by dsimp only; omega)
      rw [List.findSome?_eq_none_iff] at hnone
      exact hshared hla hlb (hnone (b', j') hcell')

/-! ## A whole grammar -/

namespace Grammar

/-- The alternatives of a nonterminal at two positions are both chosen on this look-ahead. -/
def Shares (g : Grammar) (x : String) (i j : Nat) (l : Lookahead) : Prop :=
  ∃ p q, (g.alternatives x)[i]? = some p ∧ (g.alternatives x)[j]? = some q ∧
    l ∈ g.predict p ∧ l ∈ g.predict q

theorem shares_entryOf : (Table.entryOf g x).Shares i j l ↔ g.Shares x i j l := by
  simp [Entry.Shares, Shares, Table.entryOf, Table.alternativeOf]

theorem empty_notMem_predict (g : Grammar) (p : Production) : .empty ∉ g.predict p := by
  rw [predict_eq, LookaheadSet.mem_followedBy]
  rintro (⟨_, h⟩ | ⟨_, h⟩)
  · exact h rfl
  · exact empty_notMem_followSets h

theorem Shares.ne_empty (h : g.Shares x i j l) : l ≠ .empty := by
  rintro rfl
  obtain ⟨p, q, _, _, hp, _⟩ := h
  exact g.empty_notMem_predict p hp

theorem Shares.mem_nonterminals (h : g.Shares x i j l) : x ∈ g.nonterminals := by
  obtain ⟨p, q, hp, _⟩ := h
  exact Grammar.mem_nonterminals.2 ⟨p, Grammar.mem_alternatives.1 (List.mem_of_getElem? hp)⟩

/-- The conflict that is reported of a grammar. -/
structure FirstConflict (g : Grammar) (c : Table.Conflict) : Prop where
  /-- There are two alternatives at different positions. -/
  ordered : c.first < c.second
  /-- They share a look-ahead. -/
  shares : g.Shares c.nonterminal c.first c.second c.lookahead
  /-- No nonterminal that is declared before has such alternatives. -/
  nonterminal_first : ∀ x i j l, i < j → g.Shares x i j l →
    x = c.nonterminal ∨ g.declarations.idxOf c.nonterminal < g.declarations.idxOf x
  /-- No pair of its alternatives comes before. -/
  pair_first : ∀ i j l, i < j → g.Shares c.nonterminal i j l →
    c.first < i ∨ c.first = i ∧ c.second ≤ j
  /-- They share no look-ahead that comes before. -/
  lookahead_first : ∀ l, g.Shares c.nonterminal c.first c.second l →
    l = c.lookahead ∨ c.lookahead.ComesBefore l

/-- Only one conflict is the first. -/
theorem FirstConflict.unique (h : g.FirstConflict c) (h' : g.FirstConflict c') : c = c' := by
  obtain ⟨x, l, i, j⟩ := c
  obtain ⟨x', l', i', j'⟩ := c'
  have hx : x = x' := by
    rcases h.nonterminal_first _ _ _ _ h'.ordered h'.shares with hx | hx
    · exact hx.symm
    · rcases h'.nonterminal_first _ _ _ _ h.ordered h.shares with hx' | hx'
      · exact hx'
      · omega
  subst hx
  have hpair := h.pair_first _ _ _ h'.ordered h'.shares
  have hpair' := h'.pair_first _ _ _ h.ordered h.shares
  dsimp only at hpair hpair'
  obtain rfl : i = i' := by omega
  obtain rfl : j = j' := by omega
  rcases h.lookahead_first _ h'.shares with rfl | hl
  · rfl
  · rcases h'.lookahead_first _ h.shares with rfl | hl'
    · rfl
    · exact absurd hl' hl.asymm

end Grammar

namespace Table

/-- What the search finds is the first conflict. -/
theorem firstConflict_of_conflict? (h : (compute g).conflict? = some c) : g.FirstConflict c := by
  rw [conflict?, entries_compute, List.toList_toArray, List.findSome?_map] at h
  obtain ⟨x, _, hentry, hbefore⟩ := exists_of_findSome? g.pairwise_nonterminals h
  obtain ⟨hname, hij, hshares, hleast, hpairs⟩ := Entry.shares_of_conflict? hentry
  obtain rfl : c.nonterminal = x := hname
  simp only [Grammar.shares_entryOf] at hshares hleast hpairs
  constructor
  case ordered => exact hij
  case shares => exact hshares
  case pair_first => exact hpairs
  case nonterminal_first =>
    intro y i j l hij hy
    by_contra hfirst
    rw [not_or] at hfirst
    have hnone := hbefore y hy.mem_nonterminals hfirst.1 hfirst.2
    obtain ⟨a, b, ha, hb, hla, hlb⟩ := Grammar.shares_entryOf.2 hy
    exact disjoint_of_conflict?_eq_none hnone hij ha hb hla hlb
  case lookahead_first =>
    intro l hl
    exact (hleast l hl).imp_right fun hlt => Lookahead.comesBefore_iff.2 ⟨hlt, hl.ne_empty⟩

/-- What is reported of a grammar is its first conflict. -/
theorem build_eq_error_iff : build g = .error c ↔ g.FirstConflict c := by
  constructor
  · intro h
    rw [build] at h
    split at h
    · rename_i hconflict
      cases h
      exact firstConflict_of_conflict? hconflict
    · cases h
  · intro h
    cases hconflict : (compute g).conflict? with
    | some c' => rw [build, hconflict, h.unique (firstConflict_of_conflict? hconflict)]
    | none =>
        obtain ⟨p, q, hp, hq, hlp, hlq⟩ := h.shares
        have heq := position_eq_of_conflict?_eq_none hconflict hp hq hlp hlq
        have hlt := h.ordered
        omega

/-- There is a table if the alternatives of every nonterminal are chosen on different look-aheads,
whichever two one takes; otherwise its first conflict is reported. -/
theorem build_decides (g : Grammar) :
    ((∃ t, build g = .ok t) ↔ ∀ x ∈ g.nonterminals,
      (g.alternatives x).Pairwise fun p q => ∀ l ∈ g.predict p, l ∉ g.predict q) ∧
    ∀ c, build g = .error c ↔ g.FirstConflict c := by
  refine ⟨?_, fun c => build_eq_error_iff⟩
  rw [exists_build_iff, conflict?_eq_none_iff]

-- the alternatives in conflict stand on different lines, and two look-aheads are shared
example : (Grammar.ofText "S -> A $\nA -> /c | B\nB -> /b | /a\nA -> /b | /a /c").toOption.map build =
    some (.error ⟨"A", .terminal "b", 1, 2⟩) := by
  decide +kernel

end Table

end ToneScript
