import ToneScript.Proofs.Lookahead.First

/-!
# FOLLOW is closed

FOLLOW is found by the same kind of passes as FIRST, only that a pass goes through the
nonterminals on the right-hand sides.  When a pass changes nothing, the sets are closed:
what can stand behind an occurrence of a nonterminal is in the set of the nonterminal.
Every justification of a parser's choice starts from there.

## Main definitions

* `Grammar.FollowClosed` — the sets are closed under the occurrences of nonterminals.

## Main statements

* `Grammar.followClosed_followSets` — the sets that come out are closed, and the end mark
  is in the set of the start symbol.
-/

namespace ToneScript

namespace Grammar

open LookaheadMap (Bounded)

variable {g : Grammar} {first m : LookaheadMap} {p : Production} {u v w : List Symbol}
  {x : String}

/-- What can stand behind an occurrence of a nonterminal is in the set of the nonterminal. -/
structure FollowClosed (g : Grammar) (first follow : LookaheadMap) : Prop where
  /-- Behind the start symbol comes the end of the program. -/
  endMark_mem : .endMark ∈ follow.getD g.start
  /-- Behind an occurrence comes what the rest of the right-hand side begins with, or what
  comes behind the left-hand side. -/
  subset_getD : ∀ {p u x v}, p ∈ g.productions → p.rhs = u ++ .nonterminal x :: v →
    (firstOf first v).followedBy (follow.getD p.lhs) ⊆ follow.getD x

theorem getD_subset_glimpses (g : Grammar) (first : LookaheadMap) (x : String) :
    first.getD x ⊆ g.glimpses first := by
  intro l hl
  obtain ⟨s, hs, hl⟩ := LookaheadMap.exists_mem_entries hl
  rw [glimpses, LookaheadSet.mem_ofList, List.mem_append, List.mem_flatMap]
  exact .inr ⟨(x, s), hs, hl⟩

/-! ## One right-hand side -/

/-- A step of a pass adds nothing but glimpses. -/
theorem bounded_grow_follow (hp : p ∈ g.productions) (hw : p.rhs = u ++ .nonterminal x :: v)
    (hm : Bounded g (g.glimpses first) m) :
    Bounded g (g.glimpses first)
      (m.grow x ((firstOf first v).followedBy (m.getD p.lhs))) := by
  have hx : Symbol.nonterminal x ∈ p.rhs := by simp [hw]
  refine hm.grow (mem_nonterminals_of_mem_rhs hp hx) ?_
  have hfirst : firstOf first v ⊆ g.glimpses first := by
    refine firstOf_subset (getD_subset_glimpses g first) (fun l hl => mem_glimpses _ hl) ?_
    intro t ht
    refine mem_terminals hp ?_
    rw [hw]
    exact List.mem_append_right _ (List.mem_cons_of_mem _ ht)
  intro l hl
  rcases LookaheadSet.mem_followedBy.1 hl with ⟨hl, _⟩ | ⟨_, hl⟩
  · exact hfirst l hl
  · exact hm.getD_subset p.lhs l hl

theorem bounded_followAlong (hp : p ∈ g.productions) (hw : p.rhs = u ++ w)
    (hm : Bounded g (g.glimpses first) m) :
    Bounded g (g.glimpses first) (followAlong first p.lhs w m) := by
  induction w generalizing u m with
  | nil => exact hm
  | cons y w ih =>
      have hrest : p.rhs = (u ++ [y]) ++ w := by rw [hw, List.append_assoc, List.singleton_append]
      cases y with
      | nonterminal x => exact ih hrest (bounded_grow_follow hp hw hm)
      | terminal t => exact ih hrest hm
      | action a => exact ih hrest hm
      | epsilon => exact ih hrest hm
      | endMark => exact ih hrest hm

/-- In `w`, which stands on a right-hand side of `lhs`, the sets are closed under the
occurrences of nonterminals. -/
def ClosedAlong (first m : LookaheadMap) (lhs : String) (w : List Symbol) : Prop :=
  ∀ {u x v}, w = u ++ .nonterminal x :: v →
    (firstOf first v).followedBy (m.getD lhs) ⊆ m.getD x

theorem closedAlong_nil (first m : LookaheadMap) (lhs : String) :
    ClosedAlong first m lhs [] := by
  intro u x v h
  exact absurd h (by simp)

theorem ClosedAlong.cons {lhs : String} {y : Symbol}
    (hy : ∀ x, y = .nonterminal x → (firstOf first w).followedBy (m.getD lhs) ⊆ m.getD x)
    (h : ClosedAlong first m lhs w) : ClosedAlong first m lhs (y :: w) := by
  intro u x v hw
  rcases List.cons_eq_append_iff.1 hw with ⟨_, hw⟩ | ⟨u', _, hw⟩
  · obtain ⟨hx, rfl⟩ := List.cons.inj hw
    exact hy x hx.symm
  · exact h hw

/-- Going along a right-hand side enlarges the map, or the map is closed under every
occurrence of a nonterminal there. -/
theorem followAlong_eq_or_weight_lt (hp : p ∈ g.productions) (hw : p.rhs = u ++ w)
    (hm : Bounded g (g.glimpses first) m) :
    (followAlong first p.lhs w m = m ∧ ClosedAlong first m p.lhs w) ∨
      m.weight < (followAlong first p.lhs w m).weight := by
  induction w generalizing u m with
  | nil => exact .inl ⟨rfl, closedAlong_nil first m p.lhs⟩
  | cons y w ih =>
      have hrest : p.rhs = (u ++ [y]) ++ w := by rw [hw, List.append_assoc, List.singleton_append]
      cases y with
      | terminal t => exact (ih hrest hm).imp_left (And.imp_right (.cons (by simp)))
      | action a => exact (ih hrest hm).imp_left (And.imp_right (.cons (by simp)))
      | epsilon => exact (ih hrest hm).imp_left (And.imp_right (.cons (by simp)))
      | endMark => exact (ih hrest hm).imp_left (And.imp_right (.cons (by simp)))
      | nonterminal x =>
          have hx : Symbol.nonterminal x ∈ p.rhs := by simp [hw]
          rw [followAlong]
          rcases hm.grow_eq_or_weight_lt (s := (firstOf first w).followedBy (m.getD p.lhs))
            (mem_nonterminals_of_mem_rhs hp hx) with heq | hlt
          · rw [heq]
            refine (ih hrest hm).imp_left (And.imp_right (.cons ?_))
            intro x' hx'
            cases hx'
            exact LookaheadMap.subset_getD_of_grow_eq heq
          · refine .inr ?_
            rcases ih hrest (bounded_grow_follow hp hw hm) with ⟨hsame, _⟩ | hlt'
            · rw [hsame]
              exact hlt
            · exact Nat.lt_trans hlt hlt'

/-! ## All passes -/

/-- Where a pass starts: only the end of the program is known to follow anything. -/
def followSeed (g : Grammar) : LookaheadMap :=
  (LookaheadMap.ofNames g.nonterminals).grow g.start (.singleton .endMark)

theorem bounded_followSeed (g : Grammar) (first : LookaheadMap) :
    Bounded g (g.glimpses first) g.followSeed := by
  refine (Bounded.ofNames g _).grow (start_mem_nonterminals g) ?_
  intro l hl
  rw [LookaheadSet.mem_singleton] at hl
  exact mem_glimpses _ (by simp [hl])

theorem bounded_followPass (hm : Bounded g (g.glimpses first) m) :
    Bounded g (g.glimpses first) (g.followPass first m) := by
  refine List.foldlRecOn g.productions _ hm ?_
  intro m hm p hp
  exact bounded_followAlong (u := []) hp rfl hm

theorem followPass_eq_or_weight_lt (hm : Bounded g (g.glimpses first) m) :
    (g.followPass first m = m ∧ ∀ p ∈ g.productions, followAlong first p.lhs p.rhs m = m) ∨
      m.weight < (g.followPass first m).weight := by
  refine LookaheadMap.foldl_eq_or_weight_lt (P := Bounded g (g.glimpses first)) ?_ ?_ hm
  · intro p hp m hm
    exact bounded_followAlong (u := []) hp rfl hm
  · intro p hp m hm
    exact (followAlong_eq_or_weight_lt (u := []) hp rfl hm).imp_left And.left

theorem bounded_followSets (g : Grammar) (first : LookaheadMap) :
    Bounded g (g.glimpses first) (g.followSets first) := by
  refine saturate_induction ?_ _ (bounded_followSeed g first)
  intro m hm
  exact bounded_followPass hm

/-- One more pass changes nothing. -/
theorem followPass_followSets (g : Grammar) (first : LookaheadMap) :
    g.followPass first (g.followSets first) = g.followSets first := by
  refine Bounded.saturate_stable ?_ ?_ (bounded_followSeed g first) (Nat.lt_succ_self _)
  · intro m hm
    exact bounded_followPass hm
  · intro m hm
    exact (followPass_eq_or_weight_lt hm).imp_left And.left

/-! ## Closure -/

theorem mem_getD_followAlong {l : Lookahead} {y : String} (h : l ∈ m.getD y) :
    l ∈ (followAlong first x w m).getD y := by
  induction w generalizing m with
  | nil => exact h
  | cons z w ih =>
      cases z with
      | nonterminal z =>
          refine ih ?_
          rw [LookaheadMap.getD_grow]
          split
          · rename_i hy
            rw [hy] at h
            exact LookaheadSet.mem_union.2 (.inl h)
          · exact h
      | terminal t => exact ih h
      | action a => exact ih h
      | epsilon => exact ih h
      | endMark => exact ih h

theorem endMark_mem_followSets (g : Grammar) (first : LookaheadMap) :
    .endMark ∈ (g.followSets first).getD g.start := by
  refine saturate_induction (P := fun m : LookaheadMap => Lookahead.endMark ∈ m.getD g.start)
    ?_ _ ?_
  · intro m hm
    refine List.foldlRecOn (motive := fun m : LookaheadMap => Lookahead.endMark ∈ m.getD g.start)
      g.productions _ hm ?_
    intro m hm p _
    exact mem_getD_followAlong hm
  · rw [LookaheadMap.getD_grow, if_pos rfl]
    exact LookaheadSet.mem_union.2 (.inr (LookaheadSet.mem_singleton.2 rfl))

/-- FOLLOW is closed, from whatever FIRST it is computed. -/
theorem followClosed_followSets (g : Grammar) (first : LookaheadMap) :
    g.FollowClosed first (g.followSets first) where
  endMark_mem := endMark_mem_followSets g first
  subset_getD := by
    intro p u x v hp hw
    have hm := bounded_followSets g first
    rcases followPass_eq_or_weight_lt hm with ⟨_, hall⟩ | hlt
    · rcases followAlong_eq_or_weight_lt (u := []) hp rfl hm with ⟨_, hclosed⟩ | hlt
      · exact hclosed hw
      · rw [hall p hp] at hlt
        exact absurd hlt (Nat.lt_irrefl _)
    · rw [followPass_followSets] at hlt
      exact absurd hlt (Nat.lt_irrefl _)

end Grammar

end ToneScript
