import ToneScript.Proofs.Lookahead.Neighbours
import ToneScript.Proofs.Table.Predictive

/-!
# No word has two derivation trees

A derivation tree is a series of choices: which of its alternatives is taken for a nonterminal,
symbol by symbol.  The choice is a position among the alternatives and not a production, so an
alternative that is declared twice makes for two trees.

If a table is built, the word decides every choice.  What a parser sees of the word at a
nonterminal is in PREDICT of the alternative that is taken there, and PREDICT of the others has
nothing in common with it.  What stands behind the nonterminal has to be taken into account,
since an alternative may vanish; it is kept in FOLLOW along the way.

## Main definitions

* `Grammar.DerivationTree` — the derivation trees of a sequence of symbols.
* `Grammar.DerivationTree.word` — the word at the leaves of the trees.

## Main statements

* `Grammar.DerivationTree.derives`, `Grammar.Derives.exists_derivationTree` — a sequence has
  trees for the words that it stands for, and for no others.
* `Grammar.derivationTree_unique` — by a grammar with a table no word has two trees.
-/

namespace ToneScript

namespace Grammar

variable {g : Grammar} {x lhs : String} {w z r s : List Symbol}

/-- The derivation trees of a sequence of symbols, one for each symbol. -/
inductive DerivationTree (g : Grammar) : List Symbol → Type
  /-- There are no symbols. -/
  | nil : DerivationTree g []
  /-- Any symbol but a nonterminal, be it an action or the empty symbol, is a leaf. -/
  | leaf {c : Symbol} {w : List Symbol} (hc : c.nonterminal? = none) (rest : DerivationTree g w) :
      DerivationTree g (c :: w)
  /-- A nonterminal, the position of the alternative that is taken, and the trees below. -/
  | node {x : String} {w : List Symbol} (i : Fin (g.alternatives x).length)
      (below : DerivationTree g ((g.alternatives x).get i).rhs) (rest : DerivationTree g w) :
      DerivationTree g (.nonterminal x :: w)

namespace DerivationTree

/-- The terminals and end marks at the leaves, from left to right. -/
def word {w : List Symbol} : DerivationTree g w → List Symbol
  | nil => []
  | @leaf _ c _ _ rest => if c.isInput then c :: rest.word else rest.word
  | node _ below rest => below.word ++ rest.word

/-- What the leaves spell is derived from the symbols. -/
theorem derives (D : DerivationTree g w) : g.Derives w D.word := by
  induction D with
  | nil => exact .nil
  | @leaf c w hc rest ih =>
      cases c with
      | terminal t => exact .input rfl ih
      | endMark => exact .input rfl ih
      | action a => exact .skip rfl ih
      | epsilon => exact .skip rfl ih
      | nonterminal x => cases hc
  | @node x w i below rest ihbelow ih =>
      obtain ⟨hp, hx⟩ := mem_alternatives.1 (List.get_mem (g.alternatives x) i)
      have hnode := Derives.expand hp ihbelow ih
      rwa [hx] at hnode

end DerivationTree

/-- Every word has a derivation tree. -/
theorem Derives.exists_derivationTree (h : g.Derives w z) :
    ∃ D : g.DerivationTree w, D.word = z := by
  induction h with
  | nil => exact ⟨.nil, rfl⟩
  | @input c w z hc _ ih =>
      obtain ⟨D, rfl⟩ := ih
      cases c with
      | terminal t => exact ⟨.leaf rfl D, rfl⟩
      | endMark => exact ⟨.leaf rfl D, rfl⟩
      | nonterminal x => cases hc
      | action a => cases hc
      | epsilon => cases hc
  | @skip c w z hc _ ih =>
      obtain ⟨D, rfl⟩ := ih
      cases c with
      | action a => exact ⟨.leaf rfl D, rfl⟩
      | epsilon => exact ⟨.leaf rfl D, rfl⟩
      | terminal t => cases hc
      | nonterminal x => cases hc
      | endMark => cases hc
  | @expand p w y z hp _ _ ihr ih =>
      obtain ⟨below, rfl⟩ := ihr
      obtain ⟨rest, rfl⟩ := ih
      generalize hx : p.lhs = x
      obtain ⟨i, rfl⟩ := List.get_of_mem (mem_alternatives.2 ⟨hp, hx⟩)
      exact ⟨.node i below rest, rfl⟩

/-! ## The word decides -/

/-- Alternatives of a nonterminal at different positions have no look-ahead in common. -/
def Separates (g : Grammar) : Prop :=
  ∀ x, ∀ i j : Fin (g.alternatives x).length, ∀ l,
    l ∈ g.predict ((g.alternatives x).get i) → l ∈ g.predict ((g.alternatives x).get j) → i = j

theorem ClosedAlong.tail {first m : LookaheadMap} {c : Symbol}
    (h : ClosedAlong first m lhs (c :: w)) : ClosedAlong first m lhs w := by
  intro u x v hw
  exact h (u := c :: u) (by rw [hw, List.cons_append])

/-- What is seen behind a nonterminal is in its FOLLOW. -/
theorem DerivationTree.glimpse_mem_follow (rest : DerivationTree g w)
    (hw : ClosedAlong g.firstSets (g.followSets g.firstSets) lhs (.nonterminal x :: w))
    (hr : glimpse r ∈ g.follow lhs) : glimpse (rest.word ++ r) ∈ g.follow x :=
  hw (u := []) rfl _ (rest.derives.glimpse_mem hr)

/-- What is seen at a nonterminal is in PREDICT of the alternative that is taken. -/
theorem DerivationTree.glimpse_mem_predict {i : Fin (g.alternatives x).length}
    (below : DerivationTree g ((g.alternatives x).get i).rhs) (hr : glimpse r ∈ g.follow x) :
    glimpse (below.word ++ r) ∈ g.predict ((g.alternatives x).get i) := by
  have hx := (mem_alternatives.1 (List.get_mem (g.alternatives x) i)).2
  rw [predict_eq, hx]
  exact below.derives.glimpse_mem hr

/-- The trees of a sequence, which stands on a right-hand side of `lhs`, can be told from the
word with anything behind it that may follow there, and so can the end of the word. -/
theorem Separates.eq_of_word_append_eq (hg : g.Separates) (D D' : g.DerivationTree w)
    (hw : ClosedAlong g.firstSets (g.followSets g.firstSets) lhs w)
    (hr : glimpse r ∈ g.follow lhs) (hs : glimpse s ∈ g.follow lhs)
    (h : D.word ++ r = D'.word ++ s) : D = D' ∧ r = s := by
  induction D generalizing lhs r s with
  | nil =>
      cases D'
      exact ⟨rfl, h⟩
  | @leaf c w hc rest ih =>
      cases D' with
      | node => cases hc
      | leaf _ rest' =>
          have hrest : rest.word ++ r = rest'.word ++ s := by
            simp only [DerivationTree.word] at h
            split at h
            · exact (List.cons.inj h).2
            · exact h
          obtain ⟨rfl, rfl⟩ := ih rest' hw.tail hr hs hrest
          exact ⟨rfl, rfl⟩
  | @node x w i below rest ihbelow ih =>
      cases D' with
      | leaf hc _ => cases hc
      | node j below' rest' =>
          have hfollow := rest.glimpse_mem_follow hw hr
          have hfollow' := rest'.glimpse_mem_follow hw hs
          simp only [DerivationTree.word, List.append_assoc] at h
          have hi := below.glimpse_mem_predict hfollow
          have hj := below'.glimpse_mem_predict hfollow'
          rw [h] at hi
          obtain rfl := hg x i j _ hi hj
          -- the sequence below stands on a right-hand side of `x`
          obtain ⟨hp, hx⟩ := mem_alternatives.1 (List.get_mem (g.alternatives x) i)
          have hbelow : ClosedAlong g.firstSets (g.followSets g.firstSets) x
              ((g.alternatives x).get i).rhs := by
            intro u y v hrhs
            have hsub := (followClosed_followSets g g.firstSets).subset_getD hp hrhs
            rwa [hx] at hsub
          obtain ⟨rfl, hrest⟩ := ihbelow below' hbelow hfollow hfollow' h
          obtain ⟨rfl, rfl⟩ := ih rest' hw.tail hr hs hrest
          exact ⟨rfl, rfl⟩

/-- A tree of the start symbol can be told from its word. -/
theorem Separates.eq_of_word_eq (hg : g.Separates) (D D' : g.DerivationTree [.nonterminal g.start])
    (h : D.word = D'.word) : D = D' := by
  have hend : .endMark ∈ g.follow g.start := endMark_mem_followSets g g.firstSets
  have hstart : ClosedAlong g.firstSets (g.followSets g.firstSets) g.start
      [.nonterminal g.start] := by
    refine ClosedAlong.cons ?_ (closedAlong_nil _ _ _)
    rintro x hx l hl
    cases hx
    simpa [firstOf] using hl
  exact (hg.eq_of_word_append_eq (r := []) (s := []) D D' hstart hend hend (by rw [h])).1

/-- A table is built only if alternatives at different positions can be told apart. -/
theorem separates_of_build {t : Table} (h : Table.build g = .ok t) : g.Separates := by
  intro x i j l hi hj
  exact Fin.ext (Table.position_eq_of_conflict?_eq_none (Table.conflict?_eq_none_of_build h)
    (List.getElem?_eq_getElem i.isLt) (List.getElem?_eq_getElem j.isLt) hi hj)

/-- By a grammar with a table a word has at most one derivation tree from the start symbol; so a
grammar in which some word has two of them is refused, for a conflict. -/
theorem derivationTree_unique (g : Grammar) :
    (∀ t, Table.build g = .ok t →
      ∀ z : List Symbol, ∀ D D' : g.DerivationTree [.nonterminal g.start],
        D.word = z → D'.word = z → D = D') ∧
    ∀ D D' : g.DerivationTree [.nonterminal g.start], D ≠ D' → D.word = D'.word →
      ∃ c, Table.build g = .error c := by
  have hunique : ∀ t, Table.build g = .ok t → ∀ D D' : g.DerivationTree [.nonterminal g.start],
      D.word = D'.word → D = D' := by
    intro t ht
    exact (separates_of_build ht).eq_of_word_eq
  refine ⟨?_, ?_⟩
  · intro t ht z D D' hD hD'
    exact hunique t ht D D' (hD.trans hD'.symm)
  · intro D D' hne hword
    cases hb : Table.build g with
    | ok t => exact absurd (hunique t hb D D' hword) hne
    | error c => exact ⟨c, rfl⟩

/-- A grammar of one word, whose alternative is declared once. -/
def onceDeclared : Grammar where
  productions := [⟨"Word", [.terminal "x", .epsilon]⟩]
  productions_ne_nil := by decide
  closed := by decide

/-- The same grammar, with the alternative declared twice. -/
def twiceDeclared : Grammar where
  productions := [⟨"Word", [.terminal "x", .epsilon]⟩, ⟨"Word", [.terminal "x", .epsilon]⟩]
  productions_ne_nil := by decide
  closed := by decide

/-- The two trees of that word. -/
def twiceDeclaredTree : Fin 2 → twiceDeclared.DerivationTree [.nonterminal "Word"]
  | 0 => .node (x := "Word") ⟨0, by decide⟩ (.leaf rfl (.leaf rfl .nil)) .nil
  | 1 => .node (x := "Word") ⟨1, by decide⟩ (.leaf rfl (.leaf rfl .nil)) .nil

/-- The one tree of the word where the alternative is declared once. -/
def onceDeclaredTree : onceDeclared.DerivationTree [.nonterminal "Word"] :=
  .node (x := "Word") ⟨0, by decide⟩ (.leaf rfl (.leaf rfl .nil)) .nil

/-- An alternative that is declared twice gives its word a second tree, and is a conflict.  Declared
once it gives the word its only tree. -/
theorem derivationTree_unique_twiceDeclared :
    (twiceDeclaredTree 0 ≠ twiceDeclaredTree 1 ∧
      (twiceDeclaredTree 0).word = (twiceDeclaredTree 1).word ∧
      ∃ c, Table.build twiceDeclared = .error c) ∧
    Table.build onceDeclared = .ok (Table.compute onceDeclared) ∧
      onceDeclaredTree.word = [.terminal "x"] ∧
        ∀ D : onceDeclared.DerivationTree [.nonterminal onceDeclared.start],
          D.word = [.terminal "x"] → D = onceDeclaredTree := by
  have hne : twiceDeclaredTree 0 ≠ twiceDeclaredTree 1 := by
    intro h
    cases h
  have hbuild : Table.build onceDeclared = .ok (Table.compute onceDeclared) := by decide
  refine ⟨⟨hne, rfl, ?_⟩, hbuild, rfl, ?_⟩
  · exact (derivationTree_unique twiceDeclared).2 _ _ hne rfl
  · intro D hD
    exact (derivationTree_unique onceDeclared).1 _ hbuild [.terminal "x"] D onceDeclaredTree hD rfl

end Grammar

end ToneScript
