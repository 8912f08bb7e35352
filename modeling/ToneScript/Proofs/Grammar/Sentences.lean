import Mathlib.Data.Nat.Init
import ToneScript.Proofs.Grammar.Anchored
import ToneScript.Grammar.Tone

/-!
# Sentences and their beginnings

A sentence is a sequence of terminals that, with the end of the program behind it, is derived
from the start symbol.  What some sentence begins with is called viable here: a program that
begins so may still turn out well.

Where every nonterminal stands for some word, everything that can be reached by rewriting can
be carried on to a sentence.

## Main definitions

* `Grammar.Sentence`, `Grammar.Viable` — sentences, and what they begin with.
* `Grammar.Productive` — every nonterminal stands for some word.

## Main statements

* `Grammar.Anchored.sentence_of_derives` — the words of the start symbol are the sentences of
  an anchored grammar.
* `Grammar.Productive.exists_derives` — every sequence stands for some word.
-/

namespace ToneScript

/-- The terminals of a sequence of symbols. -/
def terminalsOf (w : List Symbol) : List String := w.filterMap Symbol.terminal?

@[simp] theorem terminalsOf_append (u v : List Symbol) :
    terminalsOf (u ++ v) = terminalsOf u ++ terminalsOf v := List.filterMap_append ..

namespace Grammar

variable {g : Grammar} {w z : List Symbol} {x : String} {y y' : List String}

/-- The terminals, with the end of the program behind them, are derived from the start
symbol. -/
def Sentence (g : Grammar) (y : List String) : Prop :=
  g.Rewrites [.nonterminal g.start] (y.map .terminal ++ [.endMark])

/-- Some sentence begins with the terminals. -/
def Viable (g : Grammar) (y : List String) : Prop := ∃ y', g.Sentence (y ++ y')

/-- Every nonterminal stands for some word. -/
def Productive (g : Grammar) : Prop :=
  ∀ x ∈ g.nonterminals, ∃ z, (∀ c ∈ z, c.isInput) ∧ g.Rewrites [.nonterminal x] z

theorem Sentence.viable (h : g.Sentence y) : g.Viable y := ⟨[], by rwa [List.append_nil]⟩

theorem Viable.of_append (h : g.Viable (y ++ y')) : g.Viable y := by
  obtain ⟨y'', h⟩ := h
  exact ⟨y' ++ y'', by rwa [← List.append_assoc]⟩

/-! ## Words -/

/-- Words of an inner sequence consist of terminals. -/
theorem Anchored.derives_inner (hg : g.Anchored) (hw : g.Inner w) (h : g.Derives w z) :
    z = (terminalsOf z).map .terminal := by
  induction h with
  | nil => rfl
  | @input x w z hx _ ih =>
      cases x with
      | terminal t => exact congrArg (Symbol.terminal t :: ·) (ih hw.tail)
      | endMark => exact absurd List.mem_cons_self hw.endMark_notMem
      | nonterminal x => cases hx
      | action a => cases hx
      | epsilon => cases hx
  | skip _ _ ih => exact ih hw.tail
  | expand hp _ _ ihr ih =>
      rw [terminalsOf_append, List.map_append, ← ihr (hg.inner hp hw.lhs_ne), ← ih hw.tail]

/-- The end mark stands for itself alone. -/
theorem Derives.eq_of_endMark (h : g.Derives [.endMark] z) : z = [.endMark] := by
  cases h with
  | input _ h =>
      cases h
      rfl
  | skip hx _ => cases hx

/-- The words of the start symbol end in the end mark, and it is nowhere else in them. -/
theorem Anchored.derives_start (hg : g.Anchored) (h : g.Derives [.nonterminal g.start] z) :
    z = (terminalsOf z).map .terminal ++ [.endMark] := by
  obtain ⟨p, hp, hlhs, h⟩ := h.exists_production
  obtain ⟨w, hw, hinner⟩ := hg.exists_inner hp hlhs
  rw [hw] at h
  obtain ⟨z₁, z₂, rfl, h₁, h₂⟩ := h.split
  rw [h₂.eq_of_endMark, terminalsOf_append, List.map_append, ← hg.derives_inner hinner h₁]
  simp [terminalsOf, Symbol.terminal?]

theorem Anchored.sentence_of_derives (hg : g.Anchored) (h : g.Derives [.nonterminal g.start] z) :
    g.Sentence (terminalsOf z) := by
  have hr := h.rewrites
  rw [hg.derives_start h] at hr
  exact hr

theorem Viable.exists_derives (h : g.Viable y) :
    ∃ z, g.Derives [.nonterminal g.start] (y.map .terminal ++ z) := by
  obtain ⟨y', h⟩ := h
  refine ⟨y'.map .terminal ++ [.endMark], ?_⟩
  rw [Sentence, List.map_append, List.append_assoc] at h
  refine (rewrites_iff_derives (w := [.nonterminal g.start]) ?_).1 h
  intro c hc
  simp only [List.mem_append, List.mem_map, List.mem_singleton] at hc
  rcases hc with ⟨t, _, rfl⟩ | ⟨t, _, rfl⟩ | rfl <;> rfl

/-! ## Productive grammars -/

/-- A sequence stands for some word if each of its nonterminals does. -/
theorem exists_derives_of_forall
    (hw : ∀ x, .nonterminal x ∈ w → ∃ z, g.Derives [.nonterminal x] z) : ∃ z, g.Derives w z := by
  induction w with
  | nil => exact ⟨[], .nil⟩
  | cons c w ih =>
      obtain ⟨z, hz⟩ := ih fun x hx => hw x (List.mem_cons_of_mem c hx)
      cases c with
      | terminal t => exact ⟨_, .input rfl hz⟩
      | endMark => exact ⟨_, .input rfl hz⟩
      | action a => exact ⟨z, .skip rfl hz⟩
      | epsilon => exact ⟨z, .skip rfl hz⟩
      | nonterminal x =>
          obtain ⟨z', hz'⟩ := hw x List.mem_cons_self
          exact ⟨z' ++ z, hz'.append hz⟩

/-- In a productive grammar every sequence stands for some word. -/
theorem Productive.exists_derives (hg : g.Productive)
    (hw : ∀ x, .nonterminal x ∈ w → x ∈ g.nonterminals) : ∃ z, g.Derives w z := by
  refine exists_derives_of_forall fun x hx => ?_
  obtain ⟨z, hinput, hz⟩ := hg x (hw x hx)
  exact ⟨z, (rewrites_iff_derives (w := [.nonterminal x]) hinput).1 hz⟩

/-- The empty beginning is viable. -/
theorem Productive.viable_nil (hg : g.Productive) (ha : g.Anchored) : g.Viable [] := by
  obtain ⟨z, hz⟩ := hg.exists_derives (w := [.nonterminal g.start]) (by
    simp [g.start_mem_nonterminals])
  exact ⟨_, ha.sentence_of_derives hz⟩

/-- The beginnings of a sequence up to some length are viable if the non-empty ones are. -/
theorem Productive.viable_take (hg : g.Productive) (ha : g.Anchored) {α : Type} {f : α → String}
    {l : List α} {n : Nat} (h : ∀ m < n, g.Viable ((l.take (m + 1)).map f)) :
    g.Viable ((l.take n).map f) := by
  cases n with
  | zero => exact hg.viable_nil ha
  | succ n => exact h n (Nat.lt_succ_self n)

/-- A grammar is productive if its nonterminals can be ranked so that each has a production with
none but nonterminals of lower rank on its right-hand side. -/
theorem productive_of_rank (rank : String → Nat)
    (h : ∀ x ∈ g.nonterminals, ∃ p ∈ g.productions, p.lhs = x ∧
      ∀ y ∈ g.nonterminals, .nonterminal y ∈ p.rhs → rank y < rank x) : g.Productive := by
  intro x hx
  generalize hn : rank x = n
  induction n using Nat.strong_induction_on generalizing x with
  | h n ih =>
      obtain ⟨p, hp, rfl, hlt⟩ := h x hx
      have hrhs : ∃ z, g.Derives p.rhs z := by
        refine exists_derives_of_forall fun y hy => ?_
        have hy' := mem_nonterminals_of_mem_rhs hp hy
        obtain ⟨z, hinput, hz⟩ := ih _ (hn ▸ hlt y hy' hy) y hy' rfl
        exact ⟨z, (rewrites_iff_derives (w := [.nonterminal y]) hinput).1 hz⟩
      obtain ⟨z, hz⟩ := hrhs
      exact ⟨z, hz.forall_isInput, (Derives.of_nonterminal hp hz).rewrites⟩

theorem productive_tone : tone.Productive := by
  refine productive_of_rank
    ["TermPrime", "ExprPrime", "ProgramRest", "FactorNoId", "Factor", "Term", "Expr",
      "ProgramBody", "StartRule", "Program"].idxOf ?_
  decide

end Grammar

end ToneScript
