import Mathlib.Logic.Relation
import ToneScript.Grammar.Basic

/-!
# Rewriting by the productions

What a grammar says is given by rewriting: a nonterminal may be replaced by the
right-hand side of any of its productions.  Actions and the empty symbol stand for no
text, so sentential forms are written without them.

Proofs about parsers do not follow single replacements but whole symbols, from left to
right.  Two inductive relations do that: `Derives` for the words that a sequence stands
for, and `Begins` for what it can be rewritten to begin with.  Both agree with
rewriting, and neither looks at the order in which nonterminals are replaced.

## Main definitions

* `visible` — a sequence of symbols without actions and empty symbols.
* `Grammar.Rewrites` — rewriting of sentential forms.
* `Grammar.Derives` — the words of a sequence, symbol by symbol.
* `Grammar.Begins` — the symbols that a form of a sequence can begin with.

## Main statements

* `Grammar.rewrites_iff_derives`, `Grammar.exists_rewrites_cons_iff` — the two relations
  agree with rewriting.
-/

namespace ToneScript

/-- Whether a symbol stands for text.  Actions and the empty symbol do not. -/
def Symbol.isVisible : Symbol → Bool
  | .action _ | .epsilon => false
  | _ => true

/-- Whether a symbol is matched by a single token, or by the end of the program. -/
def Symbol.isInput : Symbol → Bool
  | .terminal _ | .endMark => true
  | _ => false

theorem Symbol.isVisible_of_isInput {x : Symbol} (h : x.isInput) : x.isVisible := by
  cases x <;> simp_all [isInput, isVisible]

/-- A sequence of symbols with actions and empty symbols erased. -/
def visible (w : List Symbol) : List Symbol := w.filter Symbol.isVisible

theorem visible_cons_of_visible {x : Symbol} (h : x.isVisible) (w : List Symbol) :
    visible (x :: w) = x :: visible w := List.filter_cons_of_pos h

theorem visible_cons_of_not_visible {x : Symbol} (h : x.isVisible = false) (w : List Symbol) :
    visible (x :: w) = visible w := List.filter_cons_of_neg (by simp [h])

@[simp] theorem visible_append (v w : List Symbol) : visible (v ++ w) = visible v ++ visible w :=
  List.filter_append ..

@[simp] theorem visible_nonterminal_cons (x : String) (w : List Symbol) :
    visible (.nonterminal x :: w) = .nonterminal x :: visible w := rfl

namespace Grammar

variable {g : Grammar} {p : Production} {x c : Symbol} {u v w y z : List Symbol}

/-! ## Rewriting -/

/-- One nonterminal of a sentential form is replaced by a right-hand side. -/
inductive Produces (g : Grammar) : List Symbol → List Symbol → Prop
  /-- The nonterminal stands between `u` and `v`. -/
  | intro (u v : List Symbol) {p : Production} (hp : p ∈ g.productions) :
      Produces g (u ++ .nonterminal p.lhs :: v) (u ++ visible p.rhs ++ v)

/-- Any number of replacements, one after the other. -/
def Rewrites (g : Grammar) : List Symbol → List Symbol → Prop :=
  Relation.ReflTransGen g.Produces

theorem Rewrites.trans (h : g.Rewrites u v) (h' : g.Rewrites v w) : g.Rewrites u w :=
  Relation.ReflTransGen.trans h h'

/-- A nonterminal on its own is replaced by one of its right-hand sides. -/
theorem Produces.exists_production {x : String} (h : g.Produces [.nonterminal x] w) :
    ∃ p ∈ g.productions, p.lhs = x ∧ w = visible p.rhs := by
  generalize hs : [Symbol.nonterminal x] = s at h
  obtain ⟨u, v, hp⟩ := h
  rcases List.append_eq_singleton_iff.1 hs.symm with ⟨rfl, h⟩ | ⟨_, h⟩
  · cases h
    exact ⟨_, hp, rfl, by simp⟩
  · cases h

theorem Produces.append (h : g.Produces v w) (u z : List Symbol) :
    g.Produces (u ++ v ++ z) (u ++ w ++ z) := by
  obtain ⟨a, b, hp⟩ := h
  have h := Produces.intro (u ++ a) (b ++ z) hp
  simpa only [List.append_assoc, List.cons_append] using h

theorem Rewrites.append_both (h : g.Rewrites v w) (u z : List Symbol) :
    g.Rewrites (u ++ v ++ z) (u ++ w ++ z) := by
  induction h with
  | refl => exact Relation.ReflTransGen.refl
  | tail _ hstep ih => exact ih.tail (hstep.append u z)

/-- Neighbours are rewritten independently of one another. -/
theorem Rewrites.append (hu : g.Rewrites u y) (hv : g.Rewrites v z) :
    g.Rewrites (u ++ v) (y ++ z) := by
  have h₁ : g.Rewrites (u ++ v) (y ++ v) := by simpa using hu.append_both [] v
  have h₂ : g.Rewrites (y ++ v) (y ++ z) := by simpa using hv.append_both y []
  exact h₁.trans h₂

theorem Rewrites.cons (x : Symbol) (h : g.Rewrites v w) : g.Rewrites (x :: v) (x :: w) :=
  Rewrites.append (u := [x]) (y := [x]) Relation.ReflTransGen.refl h

theorem rewrites_nonterminal (hp : p ∈ g.productions) :
    g.Rewrites [.nonterminal p.lhs] (visible p.rhs) := by
  have h := Produces.intro (g := g) [] [] hp
  rw [List.nil_append, List.nil_append, List.append_nil] at h
  exact Relation.ReflTransGen.single h

/-! ## Words, symbol by symbol -/

/-- The sequence on the left stands for the word on the right: its tokens stand for
themselves, and every nonterminal for a word of one of its productions. -/
inductive Derives (g : Grammar) : List Symbol → List Symbol → Prop
  /-- Nothing stands for nothing. -/
  | nil : Derives g [] []
  /-- A terminal or the end mark stands for itself. -/
  | input {x : Symbol} {w z : List Symbol} (hx : x.isInput) (h : Derives g w z) :
      Derives g (x :: w) (x :: z)
  /-- An action or the empty symbol stands for nothing. -/
  | skip {x : Symbol} {w z : List Symbol} (hx : x.isVisible = false) (h : Derives g w z) :
      Derives g (x :: w) z
  /-- A nonterminal stands for whatever one of its productions stands for. -/
  | expand {p : Production} {w y z : List Symbol} (hp : p ∈ g.productions)
      (hr : Derives g p.rhs y) (h : Derives g w z) :
      Derives g (.nonterminal p.lhs :: w) (y ++ z)

namespace Derives

theorem append (hu : g.Derives u y) (hv : g.Derives v z) : g.Derives (u ++ v) (y ++ z) := by
  induction hu with
  | nil => exact hv
  | input hx _ ih => exact input hx ih
  | skip hx _ ih => exact skip hx ih
  | expand hp hr _ _ ih =>
      rw [List.append_assoc]
      exact expand hp hr ih

/-- Words consist of terminals and end marks. -/
theorem forall_isInput (h : g.Derives w z) : ∀ c ∈ z, c.isInput := by
  induction h with
  | nil => simp
  | input hx _ ih => exact List.forall_mem_cons.2 ⟨hx, ih⟩
  | skip _ _ ih => exact ih
  | expand _ _ _ ihr ih => exact List.forall_mem_append.2 ⟨ihr, ih⟩

/-- A word of two sequences falls into a word of each. -/
theorem split (h : g.Derives (u ++ v) z) :
    ∃ z₁ z₂, z = z₁ ++ z₂ ∧ g.Derives u z₁ ∧ g.Derives v z₂ := by
  induction u generalizing z with
  | nil => exact ⟨[], z, rfl, nil, h⟩
  | cons x u ih =>
      cases h with
      | input hx h =>
          obtain ⟨z₁, z₂, rfl, h₁, h₂⟩ := ih h
          exact ⟨x :: z₁, z₂, rfl, input hx h₁, h₂⟩
      | skip hx h =>
          obtain ⟨z₁, z₂, rfl, h₁, h₂⟩ := ih h
          exact ⟨z₁, z₂, rfl, skip hx h₁, h₂⟩
      | @expand p _ y _ hp hr h =>
          obtain ⟨z₁, z₂, rfl, h₁, h₂⟩ := ih h
          exact ⟨y ++ z₁, z₂, (List.append_assoc ..).symm, expand hp hr h₁, h₂⟩

/-- A word stands for itself. -/
theorem self (h : ∀ x ∈ z, x.isInput) : g.Derives z z := by
  induction z with
  | nil => exact nil
  | cons x z ih =>
      rw [List.forall_mem_cons] at h
      exact input h.1 (ih h.2)

theorem of_nonterminal (hp : p ∈ g.productions) (h : g.Derives p.rhs z) :
    g.Derives [.nonterminal p.lhs] z := by
  simpa using expand hp h nil

theorem exists_production {x : String} (h : g.Derives [.nonterminal x] z) :
    ∃ p ∈ g.productions, p.lhs = x ∧ g.Derives p.rhs z := by
  cases h with
  | input hx _ => cases hx
  | skip hx _ => cases hx
  | expand hp hr h =>
      cases h
      refine ⟨_, hp, rfl, ?_⟩
      rwa [List.append_nil]

/-- Putting back what was erased changes no word. -/
theorem of_visible (h : g.Derives (visible w) z) : g.Derives w z := by
  induction w generalizing z with
  | nil => exact h
  | cons x w ih =>
      by_cases hx : x.isVisible
      · rw [visible_cons_of_visible hx] at h
        obtain ⟨z₁, z₂, rfl, h₁, h₂⟩ := split (u := [x]) h
        exact append (u := [x]) h₁ (ih h₂)
      · rw [Bool.not_eq_true] at hx
        rw [visible_cons_of_not_visible hx] at h
        exact skip hx (ih h)

theorem rewrites (h : g.Derives w z) : g.Rewrites (visible w) z := by
  induction h with
  | nil => exact Relation.ReflTransGen.refl
  | input hx _ ih =>
      rw [visible_cons_of_visible (Symbol.isVisible_of_isInput hx)]
      exact ih.cons _
  | skip hx _ ih =>
      rw [visible_cons_of_not_visible hx]
      exact ih
  | expand hp _ _ ihr ih =>
      rw [visible_nonterminal_cons]
      exact Rewrites.append ((rewrites_nonterminal hp).trans ihr) ih

/-- A word of a form that has been produced is a word of the form before. -/
theorem of_produces (hs : g.Produces v w) (h : g.Derives w z) : g.Derives v z := by
  obtain ⟨a, b, hp⟩ := hs
  rw [List.append_assoc] at h
  obtain ⟨z₁, z', rfl, h₁, h'⟩ := split h
  obtain ⟨z₂, z₃, rfl, h₂, h₃⟩ := split h'
  exact append h₁ (expand hp (of_visible h₂) h₃)

theorem of_rewrites (hs : g.Rewrites v w) (h : g.Derives w z) : g.Derives v z := by
  induction hs using Relation.ReflTransGen.head_induction_on with
  | refl => exact h
  | head hstep _ ih => exact ih.of_produces hstep

end Derives

/-- The words of a sequence are the sentential forms without nonterminals. -/
theorem rewrites_iff_derives (hz : ∀ x ∈ z, x.isInput) :
    g.Rewrites (visible w) z ↔ g.Derives w z := by
  constructor
  · intro h
    exact ((Derives.self hz).of_rewrites h).of_visible
  · exact Derives.rewrites

/-! ## First symbols -/

/-- The sequence can be rewritten to begin with the symbol `c`: some symbol of it can,
and everything before that symbol vanishes. -/
inductive Begins (g : Grammar) (c : Symbol) : List Symbol → Prop
  /-- The symbol is there already. -/
  | here (w : List Symbol) : Begins g c (c :: w)
  /-- Actions and empty symbols are passed over. -/
  | skip {x : Symbol} {w : List Symbol} (hx : x.isVisible = false) (h : Begins g c w) :
      Begins g c (x :: w)
  /-- A production of the first nonterminal can begin so. -/
  | inside {p : Production} {w : List Symbol} (hp : p ∈ g.productions)
      (h : Begins g c p.rhs) : Begins g c (.nonterminal p.lhs :: w)
  /-- The first nonterminal vanishes, and the rest can begin so. -/
  | behind {p : Production} {w : List Symbol} (hp : p ∈ g.productions)
      (hr : Derives g p.rhs []) (h : Begins g c w) : Begins g c (.nonterminal p.lhs :: w)

namespace Begins

theorem append_right (h : g.Begins c u) (v : List Symbol) : g.Begins c (u ++ v) := by
  induction h with
  | here w => exact here (w ++ v)
  | skip hx _ ih => exact skip hx ih
  | inside hp h _ => exact inside hp h
  | behind hp hr _ ih => exact behind hp hr ih

theorem append_left (hu : g.Derives u []) (h : g.Begins c v) : g.Begins c (u ++ v) := by
  generalize hz : ([] : List Symbol) = z at hu
  induction hu with
  | nil => exact h
  | input _ _ _ => exact absurd hz (by simp)
  | skip hx _ ih => exact skip hx (ih hz)
  | expand hp hr _ _ ih =>
      obtain ⟨rfl, rfl⟩ := List.append_eq_nil_iff.1 hz.symm
      exact behind hp hr (ih rfl)

/-- What two sequences begin with, the first begins with, or it vanishes before it. -/
theorem split (h : g.Begins c (u ++ v)) : g.Begins c u ∨ g.Derives u [] ∧ g.Begins c v := by
  induction u with
  | nil => exact .inr ⟨.nil, h⟩
  | cons x u ih =>
      cases h with
      | here => exact .inl (here u)
      | skip hx h => exact (ih h).imp (skip hx) (And.imp_left (Derives.skip hx))
      | inside hp h => exact .inl (inside hp h)
      | behind hp hr h => exact (ih h).imp (behind hp hr) (And.imp_left (Derives.expand hp hr))

theorem of_visible (h : g.Begins c (visible w)) : g.Begins c w := by
  induction w with
  | nil => exact h
  | cons x w ih =>
      by_cases hx : x.isVisible
      · rw [visible_cons_of_visible hx] at h
        rcases split (u := [x]) h with h | ⟨hr, h⟩
        · exact append_right h w
        · exact append_left hr (ih h)
      · rw [Bool.not_eq_true] at hx
        rw [visible_cons_of_not_visible hx] at h
        exact skip hx (ih h)

theorem of_produces (hs : g.Produces v w) (h : g.Begins c w) : g.Begins c v := by
  obtain ⟨a, b, hp⟩ := hs
  rw [List.append_assoc] at h
  rcases split h with h | ⟨ha, h⟩
  · exact append_right h _
  · apply append_left ha
    rcases split h with h | ⟨hr, h⟩
    · exact inside hp (of_visible h)
    · exact behind hp hr.of_visible h

theorem rewrites (hc : c.isVisible) (h : g.Begins c w) :
    ∃ v, g.Rewrites (visible w) (c :: v) := by
  induction h with
  | here w => exact ⟨visible w, by rw [visible_cons_of_visible hc]; exact .refl⟩
  | skip hx _ ih => rwa [visible_cons_of_not_visible hx]
  | @inside p w hp _ ih =>
      obtain ⟨v, h⟩ := ih
      exact ⟨v ++ visible w, Rewrites.append ((rewrites_nonterminal hp).trans h) .refl⟩
  | behind hp hr _ ih =>
      obtain ⟨v, h⟩ := ih
      exact ⟨v, Rewrites.append ((rewrites_nonterminal hp).trans hr.rewrites) h⟩

end Begins

/-- A sequence begins with `c` if and only if some sentential form of it does. -/
theorem exists_rewrites_cons_iff (hc : c.isVisible) :
    (∃ v, g.Rewrites (visible w) (c :: v)) ↔ g.Begins c w := by
  constructor
  · rintro ⟨v, h⟩
    apply Begins.of_visible
    generalize visible w = s at h ⊢
    induction h using Relation.ReflTransGen.head_induction_on with
    | refl => exact Begins.here v
    | head hs _ ih => exact ih.of_produces hs
  · exact Begins.rewrites hc

end Grammar

end ToneScript
