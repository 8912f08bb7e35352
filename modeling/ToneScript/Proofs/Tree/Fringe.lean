import ToneScript.Tree.Basic

/-!
# The leaves of a tree by recursion

The traversals of a tree keep what is still to be visited on a list, so that no tree is too
deep for them.  Here the same nodes are listed by recursion over the tree, and so are the
labels of its leaves, which is the form that inductions over trees need.

## Main definitions

* `Tree.nodesFrom` — the nodes of a tree in pre-order.
* `Tree.fringe` — the labels of its leaves.

## Main statements

* `Tree.visit_eq`, `Tree.preorder_eq_nodesFrom` — the traversal lists the nodes in pre-order.
* `Tree.leaves_eq_fringe` — the leaves of the traversal are those of the recursion.
-/

namespace ToneScript.Tree

variable {l : String} {cs : List Tree} {p : String → Bool}

/-! ## Nodes -/

mutual

/-- The nodes of a tree whose root has depth `d`: the root, and then those of its children,
one child after the other. -/
def nodesFrom (d : Nat) : Tree → List (Tree × Nat)
  | node l cs => (node l cs, d) :: nodesFromAll (d + 1) cs

/-- The nodes of the trees of a forest, one tree after the other. -/
def nodesFromAll (d : Nat) : List Tree → List (Tree × Nat)
  | [] => []
  | t :: ts => t.nodesFrom d ++ nodesFromAll d ts

end

theorem nodesFromAll_eq (d : Nat) (ts : List Tree) :
    nodesFromAll d ts = (ts.map (·, d)).flatMap fun n => n.1.nodesFrom n.2 := by
  induction ts with
  | nil => rw [nodesFromAll, List.map_nil, List.flatMap_nil]
  | cons t ts ih => rw [nodesFromAll, List.map_cons, List.flatMap_cons, ih]

theorem nodesFrom_eq (d : Nat) (t : Tree) :
    t.nodesFrom d = (t, d) :: nodesFromAll (d + 1) t.children := by
  cases t with
  | node l cs => rw [nodesFrom, children_node]

/-- Behind what has been seen come the nodes of the trees still to be visited. -/
theorem visit_eq (seen todo : List (Tree × Nat)) :
    visit seen todo = seen.reverse ++ todo.flatMap fun n => n.1.nodesFrom n.2 := by
  fun_induction visit seen todo with
  | case1 seen => rw [List.flatMap_nil, List.append_nil]
  | case2 seen t d todo ih =>
      rw [ih, List.flatMap_append, List.flatMap_cons, nodesFrom_eq, nodesFromAll_eq,
        List.reverse_cons, List.append_assoc]
      rfl

theorem preorder_eq_nodesFrom (t : Tree) : t.preorder = t.nodesFrom 0 := by
  rw [preorder, visit_eq, List.reverse_nil, List.nil_append, List.flatMap_singleton]

/-! ## Leaves -/

mutual

/-- The labels of the nodes without children, from left to right. -/
def fringe : Tree → List String
  | node l [] => [l]
  | node _ (c :: cs) => c.fringe ++ fringeAll cs

/-- The labels of the leaves of a forest. -/
def fringeAll : List Tree → List String
  | [] => []
  | t :: ts => t.fringe ++ fringeAll ts

end

@[simp] theorem fringeAll_nil : fringeAll [] = [] := by rw [fringeAll]

@[simp] theorem fringeAll_cons (t : Tree) (ts : List Tree) :
    fringeAll (t :: ts) = t.fringe ++ fringeAll ts := by rw [fringeAll]

@[simp] theorem fringe_leaf (l : String) : (leaf l).fringe = [l] := by rw [leaf, fringe]

theorem fringe_node_of_ne_nil (h : cs ≠ []) (l : String) :
    (node l cs).fringe = fringeAll cs := by
  obtain ⟨c, cs, rfl⟩ := List.exists_cons_of_ne_nil h
  rw [fringe, fringeAll]

/-- Of a node whose own label does not count, only the leaves below it do. -/
theorem filter_fringe_node (hl : p l = false) :
    (node l cs).fringe.filter p = (fringeAll cs).filter p := by
  by_cases h : cs = []
  · rw [h, fringe, fringeAll_nil, List.filter_cons_of_neg (by simp [hl])]
  · rw [fringe_node_of_ne_nil h]

mutual

theorem leafLabels_nodesFrom (d : Nat) :
    (t : Tree) → ((t.nodesFrom d).filter fun n => n.1.children.isEmpty).map (·.1.label) = t.fringe
  | node l [] => by
      rw [nodesFrom, nodesFromAll, fringe, List.filter_cons_of_pos rfl]
      rfl
  | node l (c :: cs) => by
      have h := leafLabels_nodesFromAll (d + 1) (c :: cs)
      simpa [nodesFrom, fringe] using h

theorem leafLabels_nodesFromAll (d : Nat) :
    (ts : List Tree) →
      ((nodesFromAll d ts).filter fun n => n.1.children.isEmpty).map (·.1.label) = fringeAll ts
  | [] => by simp [nodesFromAll]
  | t :: ts => by
      rw [nodesFromAll, List.filter_append, List.map_append, leafLabels_nodesFrom d t,
        leafLabels_nodesFromAll d ts, fringeAll]

end

theorem leaves_eq_fringe (t : Tree) : t.leaves = t.fringe := by
  rw [leaves, preorder_eq_nodesFrom]
  exact leafLabels_nodesFrom 0 t

end ToneScript.Tree
