import Mathlib.Data.List.Basic
import ToneScript.Proofs.Loop.Rounds
import ToneScript.Proofs.Tree.Fringe

/-!
# Touring a tree with a stack

A tour of a tree keeps a stack of the nodes that have been seen from above and not been visited
yet, the next one on top.  Whoever takes a tour asks for one node after the other.  The node on top
is handed out, and its children are stacked, the first one last, so that it comes next.

What is still to be handed out is read off the stack at every moment: from the top down, each node
with everything below it.  So a tour ends, after as many nodes as the tree has, and hands them out
in the order of the recursion over the tree.  Someone who looks for a label stops asking as soon as
a node has it, and this is the first node in that order.

## Main definitions

* `Tree.HasNode` — a tree has a node so many levels below its root.
* `Tree.Tour` — what is still to be visited.
* `Tree.Tour.collectRound`, `Tree.Tour.seekRound` — a round of someone who wants to have all nodes,
  and of someone who looks for a label.

## Main statements

* `Tree.Tour.loops_collectRound` — a tour hands out what is left of it, and ends.
* `Tree.Tour.loops_seekRound` — a search stops at the first node that has the label.
* `Tree.tour_recursive` — the traversals of a tree are the recursion over it.
-/

namespace ToneScript.Tree

/-! ## The nodes of a tree -/

/-- A tree has the node `u` so many levels below its root. -/
inductive HasNode : Tree → (level : ℕ) → (u : Tree) → Prop
  /-- The root is a node. -/
  | root {t} : HasNode t 0 t
  /-- The nodes of a child are nodes, one level further down. -/
  | child {t c k u} (hc : c ∈ t.children) (h : HasNode c k u) : HasNode t (k + 1) u

variable {t u : Tree} {l : String} {k : ℕ}

mutual

theorem hasNode_of_mem_nodesFrom (d : ℕ) (n : Tree × ℕ) :
    (t : Tree) → n ∈ t.nodesFrom d → ∃ k, t.HasNode k n.1 ∧ n.2 = d + k
  | node l cs, h => by
      rw [nodesFrom, List.mem_cons] at h
      rcases h with rfl | h
      · exact ⟨0, .root, rfl⟩
      · obtain ⟨c, k, hc, hnode, hk⟩ := hasNode_of_mem_nodesFromAll (d + 1) n cs h
        exact ⟨k + 1, .child hc hnode, by omega⟩

theorem hasNode_of_mem_nodesFromAll (d : ℕ) (n : Tree × ℕ) :
    (ts : List Tree) → n ∈ nodesFromAll d ts →
      ∃ c k, c ∈ ts ∧ c.HasNode k n.1 ∧ n.2 = d + k
  | [], h => by
      rw [nodesFromAll] at h
      exact absurd h List.not_mem_nil
  | t :: ts, h => by
      rw [nodesFromAll, List.mem_append] at h
      rcases h with h | h
      · obtain ⟨k, hnode, hk⟩ := hasNode_of_mem_nodesFrom d n t h
        exact ⟨t, k, List.mem_cons_self, hnode, hk⟩
      · obtain ⟨c, k, hc, hnode, hk⟩ := hasNode_of_mem_nodesFromAll d n ts h
        exact ⟨c, k, List.mem_cons_of_mem t hc, hnode, hk⟩

end

theorem HasNode.mem_nodesFrom (h : t.HasNode k u) (d : ℕ) : (u, d + k) ∈ t.nodesFrom d := by
  induction h generalizing d with
  | root =>
      rw [nodesFrom_eq]
      exact List.mem_cons_self
  | @child t c k u hc _ ih =>
      have hmem : (u, d + (k + 1)) ∈ c.nodesFrom (d + 1) := by
        rw [Nat.add_comm k 1, ← Nat.add_assoc]
        exact ih (d + 1)
      rw [nodesFrom_eq, nodesFromAll_eq, List.mem_cons, List.mem_flatMap]
      exact .inr ⟨(c, d + 1), List.mem_map_of_mem hc, hmem⟩

/-- The traversal visits the nodes of the tree, each at its depth. -/
theorem mem_preorder : (u, k) ∈ t.preorder ↔ t.HasNode k u := by
  rw [preorder_eq_nodesFrom]
  constructor
  · intro h
    obtain ⟨j, hnode, hk⟩ := hasNode_of_mem_nodesFrom 0 (u, k) t h
    rw [Nat.zero_add] at hk
    subst hk
    exact hnode
  · intro h
    simpa using h.mem_nodesFrom 0

mutual

theorem length_nodesFrom (d : ℕ) : (t : Tree) → (t.nodesFrom d).length = t.size
  | node l cs => by rw [nodesFrom, List.length_cons, length_nodesFromAll (d + 1) cs, size]

theorem length_nodesFromAll (d : ℕ) : (ts : List Tree) → (nodesFromAll d ts).length = sizeAll ts
  | [] => by rw [nodesFromAll, List.length_nil, sizeAll]
  | t :: ts => by
      rw [nodesFromAll, List.length_append, length_nodesFrom d t, length_nodesFromAll d ts, sizeAll]

end

/-! ## Tours -/

/-- A tour that is under way. -/
structure Tour where
  /-- The nodes that have not been visited, with their depths.  The last one comes next, and what
  is below a node comes right after it. -/
  stack : List (Tree × ℕ)

namespace Tour

/-- The beginning of a tour of a tree. -/
def start (t : Tree) : Tour := ⟨[(t, 0)]⟩

/-- The next node of a tour, and the tour behind it. -/
def next? (r : Tour) : Option ((Tree × ℕ) × Tour) :=
  match r.stack.getLast? with
  | none => none
  | some n => some (n, ⟨r.stack.dropLast ++ n.1.children.reverse.map (·, n.2 + 1)⟩)

/-- A round of someone who wants to have all nodes, behind those in `seen`. -/
def collectRound (c : List (Tree × ℕ) × Tour) : List (Tree × ℕ) ⊕ List (Tree × ℕ) × Tour :=
  match c.2.next? with
  | none => .inl c.1
  | some (n, r) => .inr (c.1 ++ [n], r)

/-- A round of someone who looks for a node with a label. -/
def seekRound (l : String) (r : Tour) : Option Tree ⊕ Tour :=
  match r.next? with
  | none => .inl none
  | some (n, r') => if n.1.label = l then .inl (some n.1) else .inr r'

/-- The nodes that a tour has still to hand out. -/
def remaining (r : Tour) : List (Tree × ℕ) := r.stack.reverse.flatMap fun n => n.1.nodesFrom n.2

theorem remaining_start (t : Tree) : (start t).remaining = t.nodesFrom 0 := by
  rw [remaining, start, List.reverse_singleton, List.flatMap_singleton]

theorem next?_concat (stack : List (Tree × ℕ)) (n : Tree × ℕ) :
    next? ⟨stack ++ [n]⟩ = some (n, ⟨stack ++ n.1.children.reverse.map (·, n.2 + 1)⟩) := by
  rw [next?, List.getLast?_concat, List.dropLast_concat]

theorem remaining_concat (stack : List (Tree × ℕ)) (n : Tree × ℕ) :
    remaining ⟨stack ++ [n]⟩ =
      n :: remaining ⟨stack ++ n.1.children.reverse.map (·, n.2 + 1)⟩ := by
  rw [remaining, remaining, List.reverse_concat, List.flatMap_cons, nodesFrom_eq, nodesFromAll_eq,
    List.reverse_append, List.flatMap_append, ← List.map_reverse, List.reverse_reverse,
    List.cons_append]

theorem next?_of_remaining_eq_nil {r : Tour} (h : r.remaining = []) : r.next? = none := by
  obtain ⟨stack⟩ := r
  rcases List.eq_nil_or_concat' stack with rfl | ⟨stack, n, rfl⟩
  · rfl
  · rw [remaining_concat] at h
    cases h

/-- A tour hands out the first of the nodes that remain, and then the others remain. -/
theorem exists_next?_of_remaining_eq_cons {r : Tour} {n : Tree × ℕ} {ns : List (Tree × ℕ)}
    (h : r.remaining = n :: ns) : ∃ r', r.next? = some (n, r') ∧ r'.remaining = ns := by
  obtain ⟨stack⟩ := r
  rcases List.eq_nil_or_concat' stack with rfl | ⟨stack, m, rfl⟩
  · cases h
  · rw [remaining_concat] at h
    obtain ⟨rfl, hrest⟩ := List.cons.inj h
    exact ⟨_, next?_concat stack m, hrest⟩

/-- A tour hands out what remains of it, one node a round, and then it has ended. -/
theorem loops_collectRound (seen : List (Tree × ℕ)) (r : Tour) :
    Loops collectRound r.remaining.length (seen, r) (seen ++ r.remaining) := by
  induction hr : r.remaining generalizing seen r with
  | nil =>
      refine .stop ?_
      rw [collectRound, next?_of_remaining_eq_nil hr, List.append_nil]
  | cons n ns ih =>
      obtain ⟨r', hnext, hr'⟩ := exists_next?_of_remaining_eq_cons hr
      have hstep : collectRound (seen, r) = .inr (seen ++ [n], r') := by rw [collectRound, hnext]
      have hloop := ih (seen ++ [n]) r' hr'
      rw [List.append_assoc, List.singleton_append] at hloop
      exact .round hstep hloop

/-- A search stops at the first node that remains and has the label, or at the end. -/
theorem loops_seekRound (l : String) (r : Tour) :
    Loops (seekRound l) (r.remaining.findIdx (·.1.label == l)) r
      ((r.remaining.find? (·.1.label == l)).map Prod.fst) := by
  induction hr : r.remaining generalizing r with
  | nil =>
      refine .stop ?_
      rw [seekRound, next?_of_remaining_eq_nil hr]
      rfl
  | cons n ns ih =>
      obtain ⟨r', hnext, hr'⟩ := exists_next?_of_remaining_eq_cons hr
      rw [List.findIdx_cons, List.find?_cons]
      by_cases hl : n.1.label = l
      · have hstep : seekRound l r = .inl (some n.1) := by
          rw [seekRound, hnext]
          exact if_pos hl
        rw [beq_iff_eq.2 hl]
        exact .stop hstep
      · have hstep : seekRound l r = .inr r' := by
          rw [seekRound, hnext]
          exact if_neg hl
        rw [beq_eq_false_iff_ne.2 hl]
        exact .round hstep (ih r' hr')

end Tour

/-! ## The traversals -/

theorem find?_eq_some_iff : t.find? l = some u ↔
    ∃ before d behind, t.preorder = before ++ (u, d) :: behind ∧ u.label = l ∧
      ∀ n ∈ before, n.1.label ≠ l := by
  rw [find?, Option.map_eq_some_iff]
  constructor
  · rintro ⟨⟨u, d⟩, h, rfl⟩
    obtain ⟨hl, before, behind, hsplit, hbefore⟩ := List.find?_eq_some_iff_append.1 h
    exact ⟨before, d, behind, hsplit, by simpa using hl, by simpa using hbefore⟩
  · rintro ⟨before, d, behind, hsplit, hl, hbefore⟩
    refine ⟨(u, d), List.find?_eq_some_iff_append.2 ⟨by simpa using hl, before, behind, hsplit, ?_⟩,
      rfl⟩
    simpa using hbefore

theorem find?_eq_none_iff : t.find? l = none ↔ ∀ u d, t.HasNode d u → u.label ≠ l := by
  rw [find?, Option.map_eq_none_iff, List.find?_eq_none]
  constructor
  · intro h u d hu
    simpa using h (u, d) (mem_preorder.2 hu)
  · intro h n hn
    simpa using h n.1 n.2 (mem_preorder.1 hn)

/-- A tour of a tree comes to an end, after as many rounds as the tree has nodes, and hands out
what the recursion over the tree lists: every node, with its depth, before what is below it.  The
leaves are the labels of the childless nodes in that order.  A search for a label stops at the
first node in that order that has it, and finds none if and only if no node of the tree has it. -/
theorem tour_recursive (t : Tree) :
    (∀ k ns, Loops Tour.collectRound k ([], .start t) ns ↔ k = t.size ∧ ns = t.preorder) ∧
      t.preorder = t.nodesFrom 0 ∧ t.leaves = t.fringe ∧
      ∀ l, (∀ k o, Loops (Tour.seekRound l) k (.start t) o ↔
          k = t.preorder.findIdx (·.1.label == l) ∧ o = t.find? l) ∧
        (∀ u, t.find? l = some u ↔ ∃ before d behind,
          t.nodesFrom 0 = before ++ (u, d) :: behind ∧ u.label = l ∧
            ∀ n ∈ before, n.1.label ≠ l) ∧
        (t.find? l = none ↔ ∀ u d, t.HasNode d u → u.label ≠ l) := by
  have hremaining : (Tour.start t).remaining = t.preorder := by
    rw [Tour.remaining_start, preorder_eq_nodesFrom]
  refine ⟨fun k ns => ?_, preorder_eq_nodesFrom t, leaves_eq_fringe t, fun l => ⟨fun k o => ?_, ?_,
    find?_eq_none_iff⟩⟩
  · have hloop := Tour.loops_collectRound [] (.start t)
    rw [Tour.remaining_start, length_nodesFrom, List.nil_append, ← preorder_eq_nodesFrom] at hloop
    exact hloop.iff
  · have hloop := Tour.loops_seekRound l (.start t)
    rw [hremaining] at hloop
    exact hloop.iff
  · intro u
    rw [← preorder_eq_nodesFrom]
    exact find?_eq_some_iff

end ToneScript.Tree
