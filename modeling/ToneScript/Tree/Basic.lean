/-!
# Derivation trees

A derivation tree has a label at every node: the name of a nonterminal, a consumed
token, the empty sequence or the end mark.  The trees of long programs are deep,
since statements and operands nest to the right, so every traversal keeps the
nodes still to be visited on a list of its own.

## Main definitions

* `Tree` — labelled trees with any number of children.
* `Tree.preorder` — the nodes in pre-order, with their depths.
* `Tree.leaves`, `Tree.find?` — the leaf labels, and the first node of a label.
* `Tree.same` — structural equality.
* `Tree.Builder` — a tree under construction.
-/

namespace ToneScript

/-- A tree with labelled nodes. -/
inductive Tree where
  /-- A node over its children. -/
  | node (label : String) (children : List Tree)

namespace Tree

/-- The label of the root. -/
def label : Tree → String
  | node l _ => l

/-- The subtrees below the root. -/
def children : Tree → List Tree
  | node _ cs => cs

@[simp] theorem label_node (l : String) (cs : List Tree) : (node l cs).label = l := rfl

@[simp] theorem children_node (l : String) (cs : List Tree) : (node l cs).children = cs := rfl

/-- A tree of one node. -/
def leaf (l : String) : Tree := node l []

instance : Inhabited Tree := ⟨leaf ""⟩

/-! ## Sizes

The number of nodes bounds every traversal. -/

mutual

/-- The number of nodes of a tree. -/
def size : Tree → Nat
  | node _ cs => sizeAll cs + 1

/-- The number of nodes of a forest. -/
def sizeAll : List Tree → Nat
  | [] => 0
  | t :: ts => t.size + sizeAll ts

end

@[simp] theorem sizeAll_nil : sizeAll [] = 0 := by rw [sizeAll]

@[simp] theorem sizeAll_cons (t : Tree) (ts : List Tree) :
    sizeAll (t :: ts) = t.size + sizeAll ts := by rw [sizeAll]

theorem size_eq (t : Tree) : t.size = sizeAll t.children + 1 := by
  cases t with
  | node l cs => rw [size, children]

@[simp] theorem sizeAll_append (ts us : List Tree) :
    sizeAll (ts ++ us) = sizeAll ts + sizeAll us := by
  induction ts with
  | nil => simp
  | cons t ts ih => simp [ih, Nat.add_assoc]

/-! ## Pre-order -/

/-- The nodes of the trees in `todo` in pre-order, behind those in `seen`, which holds
the latest first.  Each tree is paired with its depth; the children of a node come
before everything else that is still to be visited. -/
def visit (seen : List (Tree × Nat)) : (todo : List (Tree × Nat)) → List (Tree × Nat)
  | [] => seen.reverse
  | (t, d) :: todo => visit ((t, d) :: seen) (t.children.map (·, d + 1) ++ todo)
termination_by todo => sizeAll (todo.map Prod.fst)
decreasing_by
  simp [size_eq t, Function.comp_def]

/-- The nodes of a tree in pre-order, each with its depth. -/
def preorder (t : Tree) : List (Tree × Nat) := visit [] [(t, 0)]

/-- The labels of the nodes without children, from left to right. -/
def leaves (t : Tree) : List String :=
  (t.preorder.filter fun n => n.1.children.isEmpty).map fun n => n.1.label

/-- The first node in pre-order with a given label. -/
def find? (t : Tree) (l : String) : Option Tree :=
  (t.preorder.find? fun n => n.1.label == l).map Prod.fst

/-- Appends one line of the printed form: two spaces per level, and the label. -/
def appendLine (s : String) (n : Tree × Nat) : String :=
  (s.pushn ' ' (2 * n.2) ++ n.1.label).push '\n'

/-- A tree is printed as its nodes in pre-order, one a line. -/
instance : ToString Tree where
  toString t := t.preorder.foldl appendLine ""

/-! ## Equality -/

/-- Whether the two trees of every pair are equal. -/
def sameAll : (todo : List (Tree × Tree)) → Bool
  | [] => true
  | (t, u) :: todo =>
    if t.label ≠ u.label ∨ t.children.length ≠ u.children.length then false
    else sameAll (t.children.zip u.children ++ todo)
termination_by todo => sizeAll (todo.map Prod.fst)
decreasing_by
  rename_i h
  have hlen : t.children.length = u.children.length := by
    simp only [ne_eq, not_or, Decidable.not_not] at h
    exact h.2
  simp [size_eq t, List.map_fst_zip (Nat.le_of_eq hlen)]

/-- Whether two trees are equal: the same label, and equal children in the same order. -/
def same (t u : Tree) : Bool := sameAll [(t, u)]

/-! ## Construction -/

/-- A tree under construction: the nodes that are entered and not yet left, the
innermost first, each with the children it has so far, the last one first. -/
structure Builder where
  /-- The nodes entered and not yet left. -/
  path : List (String × List Tree) := []
  /-- The last tree that was completed. -/
  root : Option Tree := none

namespace Builder

/-- Enters a new node. -/
def enter (b : Builder) (l : String) : Builder := { b with path := (l, []) :: b.path }

/-- Leaves the innermost node, which thereby becomes a child of the one around it. -/
def leave (b : Builder) : Builder :=
  match b.path with
  | [] => b
  | [(l, cs)] => { path := [], root := some (.node l cs.reverse) }
  | (l, cs) :: (l', cs') :: path =>
    { b with path := (l', .node l cs.reverse :: cs') :: path }

/-- Leaves the `n` innermost nodes. -/
def leaveAll (b : Builder) : (n : Nat) → Builder
  | 0 => b
  | n + 1 => b.leave.leaveAll n

/-- Adds a leaf to the innermost node.  Outside of all nodes there is no place for it. -/
def addLeaf (b : Builder) (l : String) : Builder :=
  match b.path with
  | [] => b
  | (l', cs) :: path => { b with path := (l', Tree.leaf l :: cs) :: path }

/-- The tree, once all nodes are left. -/
def finish (b : Builder) : Option Tree := (b.leaveAll b.path.length).root

end Builder

end Tree

end ToneScript
