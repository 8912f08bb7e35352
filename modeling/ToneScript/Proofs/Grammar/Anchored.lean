import ToneScript.Proofs.Grammar.Rewriting

/-!
# Grammars with one end

In most grammars the end of the program is written once, at the end of what the start
symbol stands for, and the start symbol is not used again.  Everything inside then stands
for tokens alone.

## Main definitions

* `Grammar.Anchored` — the end mark ends the alternatives of the start symbol, and neither
  of the two occurs anywhere else.
* `Grammar.Inner` — a sequence in which neither occurs.

## Main statements

* `Grammar.Anchored.exists_inner`, `Grammar.Anchored.inner` — what right-hand sides look
  like.
-/

namespace ToneScript.Grammar

variable {g : Grammar} {p : Production} {x : Symbol} {w : List Symbol}

/-- The end of the program is written once in every alternative of the start symbol, as its
last symbol, and nowhere else; and the start symbol is written nowhere. -/
structure Anchored (g : Grammar) : Prop where
  count_endMark : ∀ p ∈ g.productions, p.lhs = g.start → p.rhs.count .endMark = 1
  getLast?_rhs : ∀ p ∈ g.productions, p.lhs = g.start → p.rhs.getLast? = some .endMark
  endMark_notMem : ∀ p ∈ g.productions, p.lhs ≠ g.start → .endMark ∉ p.rhs
  start_notMem : ∀ p ∈ g.productions, .nonterminal g.start ∉ p.rhs

/-- Neither the end of the program nor the start symbol occurs in the sequence. -/
structure Inner (g : Grammar) (w : List Symbol) : Prop where
  endMark_notMem : .endMark ∉ w
  start_notMem : .nonterminal g.start ∉ w

theorem Inner.tail (h : g.Inner (x :: w)) : g.Inner w where
  endMark_notMem hm := h.endMark_notMem (List.mem_cons_of_mem x hm)
  start_notMem hm := h.start_notMem (List.mem_cons_of_mem x hm)

theorem Inner.lhs_ne (h : g.Inner (.nonterminal p.lhs :: w)) : p.lhs ≠ g.start := by
  intro heq
  apply h.start_notMem
  rw [heq]
  exact List.mem_cons_self

theorem Anchored.inner (hg : g.Anchored) (hp : p ∈ g.productions) (hne : p.lhs ≠ g.start) :
    g.Inner p.rhs where
  endMark_notMem := hg.endMark_notMem p hp hne
  start_notMem := hg.start_notMem p hp

/-- An alternative of the start symbol is an inner sequence before the end mark. -/
theorem Anchored.exists_inner (hg : g.Anchored) (hp : p ∈ g.productions) (hlhs : p.lhs = g.start) :
    ∃ w, p.rhs = w ++ [.endMark] ∧ g.Inner w := by
  obtain ⟨w, hw⟩ := List.getLast?_eq_some_iff.1 (hg.getLast?_rhs p hp hlhs)
  refine ⟨w, hw, ?_, ?_⟩
  · have hcount := hg.count_endMark p hp hlhs
    rw [hw, List.count_append, List.count_singleton_self] at hcount
    exact List.count_eq_zero.1 (by omega)
  · intro h
    apply hg.start_notMem p hp
    rw [hw]
    exact List.mem_append_left _ h

end ToneScript.Grammar
