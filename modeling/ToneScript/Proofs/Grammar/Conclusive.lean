import Mathlib.Data.Fintype.Card
import Mathlib.Data.Fintype.EquivFin
import Mathlib.Data.Fintype.Sets
import ToneScript.Proofs.Grammar.Anchored

/-!
# Grammars whose end mark is conclusive

A grammar may write symbols behind the end mark, and a parser that stands at the end of the
program goes on with them.  There it takes no token any more, so that a nonterminal which
begins with the end mark and comes up again behind it sends the parser round in circles.
A grammar in which that happens to no nonterminal is called conclusive here.

## Main definitions

* `Grammar.Behind` — what can stand behind a first symbol.
* `Grammar.Conclusive` — no nonterminal comes up again behind an end mark it begins with.

## Main statements

* `Grammar.wellFounded_behind` — in a conclusive grammar, going behind the end mark over and
  over comes to an end.
* `Grammar.Anchored.conclusive` — grammars with one end are conclusive.
-/

namespace ToneScript.Grammar

variable {g : Grammar} {p : Production} {c : Symbol} {u v w z : List Symbol} {x y : String}

/-! ## Behind a first symbol -/

/-- The sequence can be rewritten to begin with the symbol `c`, and the nonterminal `y` then
stands somewhere behind it. -/
def Behind (g : Grammar) (c : Symbol) (w : List Symbol) (y : String) : Prop :=
  ∃ u v, g.Rewrites (visible w) (c :: u ++ .nonterminal y :: v)

namespace Behind

theorem append_right (h : g.Behind c u y) (w : List Symbol) : g.Behind c (u ++ w) y := by
  obtain ⟨a, b, h⟩ := h
  refine ⟨a, b ++ visible w, ?_⟩
  have happ := Rewrites.append h (.refl (a := visible w))
  rw [visible_append]
  simpa using happ

theorem append_left (hu : g.Derives u []) (h : g.Behind c w y) : g.Behind c (u ++ w) y := by
  obtain ⟨a, b, h⟩ := h
  refine ⟨a, b, ?_⟩
  rw [visible_append]
  exact Rewrites.append (y := []) hu.rewrites h

/-- What is written behind a sequence stands behind the symbol that the sequence begins with. -/
theorem of_begins (hc : c.isVisible) (h : g.Begins c u) (hy : .nonterminal y ∈ w) :
    g.Behind c (u ++ w) y := by
  obtain ⟨a, h⟩ := h.rewrites hc
  have hmem : .nonterminal y ∈ visible w := List.mem_filter.2 ⟨hy, rfl⟩
  obtain ⟨b, d, hw⟩ := List.append_of_mem hmem
  refine ⟨a ++ b, d, ?_⟩
  have happ := Rewrites.append h (.refl (a := visible w))
  rw [visible_append]
  simpa [hw] using happ

theorem skip {s : Symbol} (hs : s.isVisible = false) (h : g.Behind c w y) :
    g.Behind c (s :: w) y := by
  rwa [Behind, visible_cons_of_not_visible hs]

theorem of_production (hp : p ∈ g.productions) (h : g.Behind c p.rhs y) :
    g.Behind c [.nonterminal p.lhs] y := by
  obtain ⟨a, b, h⟩ := h
  exact ⟨a, b, (rewrites_nonterminal hp).trans h⟩

/-- What stands behind something behind the symbol stands behind the symbol. -/
theorem trans {d : Symbol} (h : g.Behind c w x) (h' : g.Behind d [.nonterminal x] y) :
    g.Behind c w y := by
  obtain ⟨a, b, h⟩ := h
  obtain ⟨a', b', h'⟩ := h'
  change g.Rewrites [.nonterminal x] _ at h'
  have hx : g.Rewrites (c :: a ++ .nonterminal x :: b)
      (c :: a ++ (d :: a' ++ .nonterminal y :: b') ++ b) := by
    simpa using h'.append_both (c :: a) b
  exact ⟨a ++ d :: a', b' ++ b, by simpa using h.trans hx⟩

end Behind

/-! ## Conclusive grammars -/

/-- No declared nonterminal can be rewritten so that it begins with the end mark and stands
itself behind it. -/
def Conclusive (g : Grammar) : Prop :=
  ∀ x ∈ g.nonterminals, ¬ g.Behind .endMark [.nonterminal x] x

/-- Going from a nonterminal to one behind the end mark cannot be repeated for ever. -/
theorem wellFounded_behind (hg : g.Conclusive) :
    WellFounded fun y x : { x // x ∈ g.nonterminals } =>
      g.Behind .endMark [.nonterminal x.1] y.1 := by
  have : IsTrans { x // x ∈ g.nonterminals } fun y x =>
      g.Behind .endMark [.nonterminal x.1] y.1 := ⟨fun _ _ _ hab hbc => hbc.trans hab⟩
  have : Std.Irrefl fun y x : { x // x ∈ g.nonterminals } =>
      g.Behind .endMark [.nonterminal x.1] y.1 := ⟨fun x => hg x.1 x.2⟩
  exact Finite.wellFounded_of_trans_of_irrefl _

/-! ## Anchored grammars -/

/-- Inside an anchored grammar nothing begins with the end of the program. -/
theorem Anchored.not_begins_endMark (hg : g.Anchored) (hw : g.Inner w) :
    ¬ g.Begins .endMark w := by
  intro h
  induction h with
  | here w => exact hw.endMark_notMem List.mem_cons_self
  | skip _ _ ih => exact ih hw.tail
  | inside hp _ ih => exact ih (hg.inner hp hw.lhs_ne)
  | behind _ _ _ ih => exact ih hw.tail

/-- In an anchored grammar the start symbol never comes up. -/
theorem Anchored.start_notMem_of_rewrites (hg : g.Anchored) (h : g.Rewrites w z)
    (hw : .nonterminal g.start ∉ w) : .nonterminal g.start ∉ z := by
  induction h with
  | refl => exact hw
  | tail _ hstep ih =>
      obtain ⟨u, v, hp⟩ := hstep
      have hrhs := hg.start_notMem _ hp
      simp_all [visible]

/-- Behind the one end of an anchored grammar there is nothing. -/
theorem Anchored.conclusive (hg : g.Anchored) : g.Conclusive := by
  rintro x _ ⟨u, v, h⟩
  by_cases hx : x = g.start
  · subst hx
    rcases Relation.ReflTransGen.cases_head h with heq | ⟨z, hstep, hrest⟩
    · cases heq
    · -- after the first replacement the start symbol is gone
      obtain ⟨p, hp, _, rfl⟩ := hstep.exists_production
      have hz : .nonterminal g.start ∉ visible p.rhs :=
        fun hm => hg.start_notMem p hp (List.mem_filter.1 hm).1
      exact hg.start_notMem_of_rewrites hrest hz (by simp)
  · have hinner : g.Inner [.nonterminal x] := ⟨by simp, by simp [Ne.symm hx]⟩
    exact hg.not_begins_endMark hinner ((exists_rewrites_cons_iff rfl).1 ⟨_, h⟩)

end ToneScript.Grammar
