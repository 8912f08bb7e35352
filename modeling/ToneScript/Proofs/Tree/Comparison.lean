import Mathlib.Data.List.Forall2
import ToneScript.Proofs.Loop.Rounds
import ToneScript.Tree.Basic

/-!
# Comparing trees with a stack

Two trees are compared pair by pair.  The pairs that are left to compare are kept on a stack, and of
the one on top only the roots are compared: their labels, and the numbers of their children.  If
these do not differ, the children are paired and stacked; otherwise the trees differ, and that is
the end of it.

A pair is equal if and only if its roots agree and the pairs of its children are equal, so it makes
no difference that pairs from different levels are mixed on the stack: at every moment the trees
are equal if and only if all pairs are that are left.  A round takes one node away from either side,
so there are no more rounds than the smaller tree has nodes.

## Main definitions

* `Tree.RootsAgree` — two trees do not differ at their roots.
* `Tree.compareRound` — a round of the comparison.

## Main statements

* `Tree.eq_iff_of_rootsAgree` — trees are equal if their roots agree and their children are equal.
* `Tree.loops_compareRound_eq_true_iff` — a comparison succeeds if and only if all pairs are equal.
* `Tree.same_exact` — a comparison ends, and tells equal trees from different ones.
-/

namespace ToneScript.Tree

variable {t u : Tree} {pairs next : List (Tree × Tree)} {b : Bool} {n : ℕ}

/-! ## Pairs of trees -/

/-- The roots have the same label, and as many children. -/
def RootsAgree (t u : Tree) : Prop := t.label = u.label ∧ t.children.length = u.children.length

instance (t u : Tree) : Decidable (RootsAgree t u) := inferInstanceAs (Decidable (_ ∧ _))

theorem ne_of_not_rootsAgree (h : ¬ RootsAgree t u) : t ≠ u := by
  rintro rfl
  exact h ⟨rfl, rfl⟩

/-- Trees are equal if their roots agree and each child is equal to its counterpart. -/
theorem eq_iff_of_rootsAgree (h : RootsAgree t u) :
    t = u ↔ ∀ p ∈ t.children.zip u.children, p.1 = p.2 := by
  obtain ⟨l, ts⟩ := t
  obtain ⟨m, us⟩ := u
  obtain ⟨hlabel, hlength⟩ := h
  simp only [label_node, children_node] at hlabel hlength ⊢
  have hchildren : ts = us ↔ ∀ p ∈ ts.zip us, p.1 = p.2 := by
    rw [← List.forall₂_eq_eq_eq, List.forall₂_iff_zip]
    constructor
    · rintro ⟨_, hzip⟩ ⟨c, d⟩ hp
      exact hzip hp
    · intro hzip
      exact ⟨hlength, fun hp => hzip _ hp⟩
  rw [← hchildren, hlabel]
  simp

/-- Whichever pair is taken first, a comparison succeeds if and only if all pairs are equal. -/
theorem sameAll_eq_true_iff (pairs : List (Tree × Tree)) :
    sameAll pairs = true ↔ ∀ p ∈ pairs, p.1 = p.2 := by
  fun_induction sameAll pairs with
  | case1 => simp
  | case2 t u pairs h =>
      have hroots : ¬ RootsAgree t u := by
        rw [RootsAgree, not_and_or]
        exact h
      simp [ne_of_not_rootsAgree hroots]
  | case3 t u pairs h ih =>
      have hroots : RootsAgree t u := by simpa [RootsAgree] using h
      rw [ih, List.forall_mem_append, List.forall_mem_cons, eq_iff_of_rootsAgree hroots]

theorem same_eq_true_iff (t u : Tree) : t.same u = true ↔ t = u := by
  rw [same, sameAll_eq_true_iff, List.forall_mem_singleton]

/-! ## Rounds -/

/-- A round of the comparison: of the pairs that are left the last one is taken, and the pairs of
its children are put in its place, unless its roots tell it apart. -/
def compareRound (pairs : List (Tree × Tree)) : Bool ⊕ List (Tree × Tree) :=
  match pairs.getLast? with
  | none => .inl true
  | some (t, u) =>
    if RootsAgree t u then .inr (pairs.dropLast ++ t.children.zip u.children) else .inl false

theorem compareRound_concat (pairs : List (Tree × Tree)) (t u : Tree) :
    compareRound (pairs ++ [(t, u)]) =
      if RootsAgree t u then .inr (pairs ++ t.children.zip u.children) else .inl false := by
  rw [compareRound, List.getLast?_concat, List.dropLast_concat]

theorem compareRound_eq_inr (h : compareRound pairs = .inr next) :
    ∃ rest t u, pairs = rest ++ [(t, u)] ∧ RootsAgree t u ∧
      next = rest ++ t.children.zip u.children := by
  rcases List.eq_nil_or_concat' pairs with rfl | ⟨rest, ⟨t, u⟩, rfl⟩
  · cases h
  · rw [compareRound_concat] at h
    by_cases hroots : RootsAgree t u
    · rw [if_pos hroots] at h
      exact ⟨rest, t, u, rfl, hroots, (Sum.inr.inj h).symm⟩
    · rw [if_neg hroots] at h
      cases h

/-- The verdict in the last round is right about the pairs that are left. -/
theorem eq_true_iff_of_compareRound_eq_inl (h : compareRound pairs = .inl b) :
    b = true ↔ ∀ p ∈ pairs, p.1 = p.2 := by
  rcases List.eq_nil_or_concat' pairs with rfl | ⟨rest, ⟨t, u⟩, rfl⟩
  · cases h
    simp
  · rw [compareRound_concat] at h
    by_cases hroots : RootsAgree t u
    · rw [if_pos hroots] at h
      cases h
    · rw [if_neg hroots] at h
      cases h
      refine iff_of_false Bool.false_ne_true fun hall => ?_
      exact ne_of_not_rootsAgree hroots (hall (t, u) (by simp))

/-- In every round the pairs that are left are equal if and only if those before it were. -/
theorem forall_eq_compareRound (h : compareRound pairs = .inr next) :
    (∀ p ∈ next, p.1 = p.2) ↔ ∀ p ∈ pairs, p.1 = p.2 := by
  obtain ⟨rest, t, u, rfl, hroots, rfl⟩ := compareRound_eq_inr h
  rw [List.forall_mem_append, List.forall_mem_append, List.forall_mem_singleton,
    eq_iff_of_rootsAgree hroots]

/-- A round takes one node away on the left. -/
theorem sizeAll_fst_compareRound (h : compareRound pairs = .inr next) :
    sizeAll (next.map Prod.fst) < sizeAll (pairs.map Prod.fst) := by
  obtain ⟨rest, t, u, rfl, hroots, rfl⟩ := compareRound_eq_inr h
  simp [size_eq t, List.map_fst_zip (Nat.le_of_eq hroots.2)]

/-- A round takes one node away on the right. -/
theorem sizeAll_snd_compareRound (h : compareRound pairs = .inr next) :
    sizeAll (next.map Prod.snd) < sizeAll (pairs.map Prod.snd) := by
  obtain ⟨rest, t, u, rfl, hroots, rfl⟩ := compareRound_eq_inr h
  simp [size_eq u, List.map_snd_zip (Nat.le_of_eq hroots.2.symm)]

/-- A comparison succeeds if and only if all pairs are equal. -/
theorem loops_compareRound_eq_true_iff (h : Loops compareRound n pairs b) :
    b = true ↔ ∀ p ∈ pairs, p.1 = p.2 := by
  have hstep : ∀ s s', ((∀ p ∈ s, p.1 = p.2) ↔ ∀ p ∈ pairs, p.1 = p.2) →
      compareRound s = .inr s' → ((∀ p ∈ s', p.1 = p.2) ↔ ∀ p ∈ pairs, p.1 = p.2) :=
    fun s s' hs hround => (forall_eq_compareRound hround).trans hs
  obtain ⟨last, hlast, hstop⟩ := h.exists_stop hstep Iff.rfl
  exact (eq_true_iff_of_compareRound_eq_inl hstop).trans hlast

/-- A comparison of two trees with a stack comes to an end, after at most as many rounds as the
smaller one has nodes, and with the verdict of the plain comparison.  That is that the trees have
the same label, and as many children, which are equal in the same order: that they are equal. -/
theorem same_exact (t u : Tree) :
    (∃ n ≤ min t.size u.size, ∀ k b, Loops compareRound k [(t, u)] b ↔ k = n ∧ b = t.same u) ∧
      (t.same u = true ↔ t = u) := by
  refine ⟨?_, same_eq_true_iff t u⟩
  obtain ⟨n, b, hloop⟩ := exists_loops (P := fun _ => True) (s := [(t, u)])
    (fun s s' _ hround => ⟨trivial, sizeAll_fst_compareRound hround⟩) trivial
  have hleft := hloop.le_measure (P := fun _ => True)
    (fun s s' _ hround => ⟨trivial, sizeAll_fst_compareRound hround⟩) trivial
  have hright := hloop.le_measure (P := fun _ => True)
    (fun s s' _ hround => ⟨trivial, sizeAll_snd_compareRound hround⟩) trivial
  simp only [List.map_cons, List.map_nil, sizeAll_cons, sizeAll_nil, Nat.add_zero] at hleft hright
  have hb : b = t.same u := by
    rw [Bool.eq_iff_iff, loops_compareRound_eq_true_iff hloop, same_eq_true_iff,
      List.forall_mem_singleton]
  refine ⟨n, Nat.le_min.2 ⟨hleft, hright⟩, fun k b' => ?_⟩
  rw [← hb]
  exact hloop.iff

end ToneScript.Tree
