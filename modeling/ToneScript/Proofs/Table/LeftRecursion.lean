import ToneScript.Proofs.Grammar.Sentences
import ToneScript.Proofs.Lookahead.Neighbours
import ToneScript.Proofs.Table.Predictive

/-!
# Left recursion is a conflict

There is no search for left recursion.  It shows all the same, as a conflict: an alternative of
`x` that can be rewritten to begin with `x` can begin with whatever any alternative of `x` stands
for, so the two are chosen on the same look-ahead.  Where an alternative vanishes, the look-ahead
is found behind `x`: in what the recursion leaves there, or in what follows `x` in a form of the
start symbol.

So in a grammar without conflicts an alternative that is left-recursive is the only one that
stands for a word.  But then no word can be derived, since there is always a recursion further
below; that is an induction on the derivation of the word.

## Main definitions

* `Grammar.LeftRecursive` — a nonterminal can be rewritten to begin with itself.
* `Grammar.Reachable` — every nonterminal occurs in a form of the start symbol.
* `Grammar.Recurs` — left recursion in terms of a first production.

## Main statements

* `Grammar.Recurs.eq_of_derives` — a left-recursive alternative leaves no room for another one.
* `Table.exists_conflict_of_leftRecursive` — left recursion is refused.
-/

namespace ToneScript

namespace Grammar

variable {g : Grammar} {p q : Production} {x y : String} {c : Symbol} {u v w z : List Symbol}

/-- The nonterminal can be rewritten, in one or more steps, to begin with itself. -/
def LeftRecursive (g : Grammar) (x : String) : Prop :=
  ∃ v, Relation.TransGen g.Produces [.nonterminal x] (.nonterminal x :: v)

/-- Every nonterminal occurs in a form of the start symbol. -/
def Reachable (g : Grammar) : Prop :=
  ∀ x ∈ g.nonterminals, ∃ u v, g.Rewrites [.nonterminal g.start] (u ++ .nonterminal x :: v)

/-- The production is one of the nonterminal and can begin with it. -/
structure Recurs (g : Grammar) (x : String) (p : Production) : Prop where
  mem_productions : p ∈ g.productions
  lhs_eq : p.lhs = x
  begins : g.Begins (.nonterminal x) p.rhs

theorem LeftRecursive.exists_recurs (h : g.LeftRecursive x) : ∃ p, g.Recurs x p := by
  obtain ⟨v, h⟩ := h
  obtain ⟨s, hstep, hrest⟩ := Relation.TransGen.head'_iff.1 h
  obtain ⟨p, hp, hlhs, rfl⟩ := hstep.exists_production
  exact ⟨p, hp, hlhs, (exists_rewrites_cons_iff rfl).1 ⟨v, hrest⟩⟩

/-! ## What a sequence begins with -/

/-- What a production of the first nonterminal begins with, the sequence begins with. -/
theorem Begins.through (h : g.Begins (.nonterminal p.lhs) w) (hp : p ∈ g.productions)
    (hc : g.Begins c p.rhs) : g.Begins c w := by
  induction h with
  | here w => exact inside hp hc
  | skip hskip _ ih => exact skip hskip ih
  | inside hq _ ih => exact inside hq ih
  | behind hq hr _ ih => exact behind hq hr ih

/-- What a sequence begins with is one of its symbols, or comes from a production of one that
the sequence begins with. -/
theorem Begins.mem_or_exists (h : g.Begins c w) :
    c ∈ w ∨ ∃ p ∈ g.productions, .nonterminal p.lhs ∈ w ∧ g.Begins (.nonterminal p.lhs) w ∧
      g.Begins c p.rhs := by
  induction h with
  | here w => exact .inl List.mem_cons_self
  | skip hskip _ ih =>
      refine ih.imp (List.mem_cons_of_mem _) ?_
      rintro ⟨p, hp, hmem, hw, hc⟩
      exact ⟨p, hp, List.mem_cons_of_mem _ hmem, .skip hskip hw, hc⟩
  | inside hp hc _ => exact .inr ⟨_, hp, List.mem_cons_self, .here _, hc⟩
  | behind hq hr _ ih =>
      refine ih.imp (List.mem_cons_of_mem _) ?_
      rintro ⟨p, hp, hmem, hw, hc⟩
      exact ⟨p, hp, List.mem_cons_of_mem _ hmem, .behind hq hr hw, hc⟩

/-- The recursion goes through some nonterminal on the right-hand side. -/
theorem Recurs.exists_below (h : g.Recurs x p) : ∃ y q, .nonterminal y ∈ p.rhs ∧ g.Recurs y q := by
  rcases h.begins.mem_or_exists with hmem | ⟨q, hq, hmem, hbegins, hx⟩
  · exact ⟨x, p, hmem, h⟩
  · refine ⟨q.lhs, q, hmem, hq, rfl, ?_⟩
    rw [← h.lhs_eq] at hx
    exact hx.through h.mem_productions hbegins

/-! ## The conflict -/

theorem Produces.declared (h : g.Produces u v)
    (hu : ∀ x, .nonterminal x ∈ u → x ∈ g.nonterminals) :
    ∀ x, .nonterminal x ∈ v → x ∈ g.nonterminals := by
  obtain ⟨a, b, hp⟩ := h
  intro x hx
  simp only [List.append_assoc, List.mem_append, List.mem_cons] at hu hx
  rcases hx with hx | hx | hx
  · exact hu x (.inl hx)
  · exact mem_nonterminals_of_mem_rhs hp (List.mem_of_mem_filter hx)
  · exact hu x (.inr (.inr hx))

/-- What stands in a form of a declared nonterminal is declared. -/
theorem Rewrites.declared (h : g.Rewrites [.nonterminal y] v) (hy : y ∈ g.nonterminals) :
    ∀ x, .nonterminal x ∈ v → x ∈ g.nonterminals := by
  induction h with
  | refl =>
      intro x hx
      cases List.mem_singleton.1 hx
      exact hy
  | tail _ hstep ih => exact hstep.declared ih

/-- What stands behind a nonterminal in a form of a declared one stands for some word. -/
theorem Productive.exists_derives_behind (hg : g.Productive) (hy : y ∈ g.nonterminals)
    (h : g.Rewrites [.nonterminal y] (u ++ .nonterminal x :: v)) : ∃ z, g.Derives v z :=
  hg.exists_derives fun x' hx' =>
    h.declared hy x' (List.mem_append_right _ (List.mem_cons_of_mem _ hx'))

/-- Behind a word that stands behind `x` in a form of `y` one sees what follows `x`, if one sees
there what follows `y`. -/
theorem glimpse_mem_follow (h : g.Rewrites [.nonterminal y] (u ++ .nonterminal x :: v))
    (hz : g.Derives v z) {r : List Symbol} (hr : glimpse r ∈ g.follow y) :
    glimpse (z ++ r) ∈ g.follow x :=
  (followClosed_followSets g g.firstSets).subset_of_rewrites h _ (hz.glimpse_mem hr)

/-- Something follows every nonterminal. -/
theorem Productive.exists_glimpse_mem_follow (hg : g.Productive) (hr : g.Reachable)
    (hx : x ∈ g.nonterminals) : ∃ r, glimpse r ∈ g.follow x := by
  obtain ⟨u, v, h⟩ := hr x hx
  obtain ⟨z, hz⟩ := hg.exists_derives_behind g.start_mem_nonterminals h
  have hend : glimpse [] ∈ g.follow g.start := endMark_mem_followSets g g.firstSets
  exact ⟨z ++ [], glimpse_mem_follow h hz hend⟩

/-- An alternative that begins with its own nonterminal leaves no room for another one that
stands for a word: the word, with what the recursion leaves behind it, is seen for both. -/
theorem Recurs.eq_of_derives (hg : g.Predictive) (hprod : g.Productive) (hreach : g.Reachable)
    (h : g.Recurs x p) (hq : q ∈ g.productions) (hlhs : q.lhs = x) (hz : g.Derives q.rhs z) :
    q = p := by
  obtain ⟨hp, hx, hbegins⟩ := h
  have hmem : x ∈ g.nonterminals := mem_nonterminals.2 ⟨p, hp, hx⟩
  obtain ⟨v, hv⟩ := hbegins.rewrites rfl
  have hform : g.Rewrites [.nonterminal x] ([] ++ .nonterminal x :: v) := by
    rw [← hx] at hv ⊢
    exact (rewrites_nonterminal hp).trans hv
  obtain ⟨z', hz'⟩ := hprod.exists_derives_behind hmem hform
  obtain ⟨r, hr⟩ := hprod.exists_glimpse_mem_follow hreach hmem
  -- the recursive alternative stands for `z ++ z'`, the other one for `z`
  have hrec : g.Derives p.rhs (z ++ z') := by
    have hword := Derives.expand hq hz hz'
    rw [hlhs] at hword
    exact (hword.of_rewrites hv).of_visible
  refine hg q hq p hp (hlhs.trans hx.symm) (glimpse (z ++ (z' ++ r))) ?_ ?_
  · rw [predict_eq, hlhs]
    exact hz.glimpse_mem (glimpse_mem_follow hform hz' hr)
  · rw [predict_eq, hx, ← List.append_assoc]
    exact hrec.glimpse_mem hr

/-- What stands for a word has no left-recursive nonterminal in it. -/
theorem Derives.not_recurs (hg : g.Predictive) (hprod : g.Productive) (hreach : g.Reachable)
    (h : g.Derives w z) (hx : .nonterminal x ∈ w) : ¬ g.Recurs x p := by
  induction h generalizing x p with
  | nil => exact absurd hx List.not_mem_nil
  | input hc _ ih =>
      rcases List.mem_cons.1 hx with rfl | hx
      · cases hc
      · exact ih hx
  | skip hc _ ih =>
      rcases List.mem_cons.1 hx with rfl | hx
      · cases hc
      · exact ih hx
  | @expand q w y z hq hr _ ihr ih =>
      intro hrec
      rcases List.mem_cons.1 hx with hx | hx
      · cases hx
        obtain rfl := hrec.eq_of_derives hg hprod hreach hq rfl hr
        obtain ⟨y, q', hy, hrec'⟩ := hrec.exists_below
        exact ihr hy hrec'
      · exact ih hx hrec

end Grammar

namespace Table

variable {g : Grammar} {x : String}

/-- Where every nonterminal is of use, that is, occurs in a form of the start symbol and stands
for some word, a left-recursive nonterminal makes for a conflict. -/
theorem exists_conflict_of_leftRecursive (hprod : g.Productive) (hreach : g.Reachable)
    (hx : g.LeftRecursive x) : ∃ c, build g = .error c := by
  cases hb : build g with
  | error c => exact ⟨c, rfl⟩
  | ok t =>
      obtain ⟨p, hrec⟩ := hx.exists_recurs
      have hmem : x ∈ g.nonterminals :=
        Grammar.mem_nonterminals.2 ⟨p, hrec.mem_productions, hrec.lhs_eq⟩
      obtain ⟨z, hz⟩ := hprod.exists_derives (w := [.nonterminal x]) (by simp [hmem])
      have hpred := (build_eq_ok hb).2
      exact absurd hrec (hz.not_recurs hpred hprod hreach List.mem_cons_self)

end Table

namespace Grammar

/-- A grammar whose recursion is indirect, and hidden behind an action and a nonterminal that
vanishes. -/
def veiledRecursion : Grammar where
  productions :=
    [⟨"List", [.nonterminal "Gap", .action .add, .nonterminal "Front", .terminal ","]⟩,
     ⟨"List", [.endMark]⟩,
     ⟨"Front", [.nonterminal "List"]⟩,
     ⟨"Gap", [.epsilon]⟩]
  productions_ne_nil := by decide
  closed := by decide

/-- A recursion that is indirect and hidden is a conflict as well. -/
theorem exists_conflict_of_leftRecursive_veiled :
    veiledRecursion.Productive ∧ veiledRecursion.Reachable ∧
      veiledRecursion.LeftRecursive "List" ∧ ∃ c, Table.build veiledRecursion = .error c := by
  have hprod : veiledRecursion.Productive :=
    productive_of_rank ["Gap", "List", "Front"].idxOf (by decide)
  have hlist : veiledRecursion.Produces [.nonterminal "List"]
      [.nonterminal "Gap", .nonterminal "Front", .terminal ","] :=
    .intro [] [] (p := ⟨"List",
      [.nonterminal "Gap", .action .add, .nonterminal "Front", .terminal ","]⟩) (by decide)
  have hgap : veiledRecursion.Produces [.nonterminal "Gap", .nonterminal "Front", .terminal ","]
      [.nonterminal "Front", .terminal ","] :=
    .intro [] _ (p := ⟨"Gap", [.epsilon]⟩) (by decide)
  have hfront : veiledRecursion.Produces [.nonterminal "Front", .terminal ","]
      [.nonterminal "List", .terminal ","] :=
    .intro [] _ (p := ⟨"Front", [.nonterminal "List"]⟩) (by decide)
  have hreach : veiledRecursion.Reachable := by
    intro x hx
    have hname : x = "List" ∨ x = "Gap" ∨ x = "Front" := by
      revert x
      decide
    rcases hname with rfl | rfl | rfl
    · exact ⟨[], [], .refl⟩
    · exact ⟨[], _, .single hlist⟩
    · exact ⟨[.nonterminal "Gap"], _, .single hlist⟩
  have hrec : veiledRecursion.LeftRecursive "List" :=
    ⟨[.terminal ","], .head hlist (.head hgap (.single hfront))⟩
  exact ⟨hprod, hreach, hrec, Table.exists_conflict_of_leftRecursive hprod hreach hrec⟩

end Grammar

end ToneScript
