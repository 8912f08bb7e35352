import Mathlib.Logic.Function.Iterate
import ToneScript.Proofs.Loop.Rounds
import ToneScript.Proofs.Lookahead.Follow
import ToneScript.Proofs.Lookahead.Sequences

/-!
# The loops of FIRST and FOLLOW

FIRST and FOLLOW are found by a loop that knows no bound on its passes.  A pass notes whether a set
had more members after it was enlarged than before, and as long as a pass has noted that, there is
another one.

The note is right: without it the pass has left the map as it was, and with it the map weighs more.
The weight is bounded by the number of nonterminals times the number of glimpses, which are the
terminals, the end mark and the mark of the empty sequence.  So the loop ends, after one pass more
than that at most.  The map in which it ends is an iterate of the pass that the pass does not
change, and there is only one such iterate: the map that saturation finds.

## Main definitions

* `Progress` — a map on its way through a pass, with the note.
* `Grammar.firstRound`, `Grammar.followRound` — passes that take the note.
* `Progress.again` — what decides on another pass.

## Main statements

* `Progress.Tells.grow` — the note stays right when a set is enlarged.
* `Progress.exists_loops_again` — a loop of passes ends in what saturation finds.
* `Grammar.loops_passes` — the passes of FIRST and FOLLOW, and how many there are.
-/

namespace ToneScript

open LookaheadMap (Bounded)

variable {g : Grammar} {G : LookaheadSet} {first m : LookaheadMap} {x lhs : String}
  {s : LookaheadSet} {w : List Symbol}

/-! ## Iterates -/

section Iterates

variable {α : Type} {f : α → α} {a : α} {i j : ℕ}

theorem exists_saturate_eq_iterate [DecidableEq α] (f : α → α) (n : ℕ) (a : α) :
    ∃ i, saturate f n a = f^[i] a := by
  refine saturate_induction (P := fun b => ∃ i, b = f^[i] a) ?_ n ⟨0, rfl⟩
  rintro _ ⟨i, rfl⟩
  exact ⟨i + 1, (Function.iterate_succ_apply' f i a).symm⟩

/-- Of the iterates only one is a fixed point. -/
theorem iterate_eq_of_fixed (hi : f (f^[i] a) = f^[i] a) (hj : f (f^[j] a) = f^[j] a) :
    f^[i] a = f^[j] a := by
  have hle {i j : ℕ} (hi : f (f^[i] a) = f^[i] a) (hij : i ≤ j) : f^[j] a = f^[i] a := by
    obtain ⟨k, rfl⟩ := Nat.exists_eq_add_of_le' hij
    rw [Function.iterate_add_apply, Function.iterate_fixed hi]
  rcases Nat.le_total i j with hij | hji
  · exact (hle hi hij).symm
  · exact hle hj hji

end Iterates

/-! ## Sets and maps -/

theorem LookaheadSet.size_ofList_le (l : List Lookahead) : (ofList l).size ≤ l.length := by
  have hsub : (ofList l).toList ⊆ l := fun a ha => mem_ofList.1 ha
  exact (List.subperm_of_subset (nodup_toList _) hsub).length_le

theorem LookaheadMap.growIn_eq_of_subset {l : List (String × LookaheadSet)}
    (hx : x ∈ l.map Prod.fst) (hs : s ⊆ (l.lookup x).getD ∅) : growIn x s l = l := by
  induction l with
  | nil => simp at hx
  | cons e l ih =>
      obtain ⟨y, t⟩ := e
      rw [growIn]
      by_cases hxy : x = y
      · rw [List.lookup_cons, hxy, beq_self_eq_true] at hs
        have ht : t ∪ s = t := by
          ext a
          rw [LookaheadSet.mem_union]
          exact or_iff_left_of_imp (hs a)
        rw [if_pos hxy, ht]
      · rw [List.lookup_cons, beq_eq_false_iff_ne.2 hxy] at hs
        rw [List.map_cons, List.mem_cons] at hx
        rw [if_neg hxy, ih (hx.resolve_left hxy) hs]

/-- What is there already changes nothing. -/
theorem LookaheadMap.grow_eq_of_subset (hx : x ∈ m.names) (hs : s ⊆ m.getD x) : m.grow x s = m :=
  congrArg LookaheadMap.mk (growIn_eq_of_subset hx hs)

/-! ## The note -/

/-- A map on its way through a pass. -/
structure Progress where
  /-- The map as it is now. -/
  map : LookaheadMap
  /-- Whether the pass has made a set larger. -/
  changed : Bool
deriving DecidableEq, Repr

namespace Progress

variable {c : Progress}

/-- Enlarges the set of a name by the members of `s`, and notes whether it has more members then. -/
def grow (c : Progress) (x : String) (s : LookaheadSet) : Progress where
  map := c.map.grow x s
  changed := c.changed || ((c.map.grow x s).getD x).size != (c.map.getD x).size

@[simp] theorem map_grow (c : Progress) (x : String) (s : LookaheadSet) :
    (c.grow x s).map = c.map.grow x s := rfl

/-- Either nothing happens, or the map comes to weigh more, and that is noted. -/
theorem grow_cases (hx : x ∈ c.map.names) :
    c.grow x s = c ∨ (c.grow x s).changed = true ∧ c.map.weight < (c.grow x s).map.weight := by
  have hget : (c.map.grow x s).getD x = c.map.getD x ∪ s := by
    rw [LookaheadMap.getD_grow, if_pos rfl]
  rcases LookaheadSet.union_eq_or_size_lt (c.map.getD x) s with heq | hlt
  · have hsub : s ⊆ c.map.getD x := by
      intro a ha
      rw [← heq]
      exact LookaheadSet.mem_union.2 (.inr ha)
    have hsame : c.map.grow x s = c.map := LookaheadMap.grow_eq_of_subset hx hsub
    refine .inl ?_
    rw [grow, hsame, bne_self_eq_false, Bool.or_false]
  · have hne : c.map.grow x s ≠ c.map := by
      intro hsame
      rw [← hget, hsame] at hlt
      exact absurd hlt (Nat.lt_irrefl _)
    refine .inr ⟨?_, (LookaheadMap.grow_eq_or_weight_lt hx).resolve_left hne⟩
    rw [grow, hget, bne_iff_ne.2 (Nat.ne_of_gt hlt), Bool.or_true]

/-- The note is right about a pass that began with the map `m`. -/
def Tells (m : LookaheadMap) (c : Progress) : Prop :=
  c = ⟨m, false⟩ ∨ c.changed = true ∧ m.weight < c.map.weight

theorem Tells.grow (h : Tells m c) (hx : x ∈ c.map.names) : Tells m (c.grow x s) := by
  rcases grow_cases (s := s) hx with heq | ⟨hchanged, hlt⟩
  · rw [heq]
    exact h
  · refine .inr ⟨hchanged, ?_⟩
    rcases h with rfl | ⟨_, hlt'⟩
    · exact hlt
    · exact Nat.lt_trans hlt' hlt

/-- Adds to the set of each nonterminal in a piece of a right-hand side of `lhs` what can stand
behind it there. -/
def followAlong (first : LookaheadMap) (lhs : String) : List Symbol → Progress → Progress
  | [], c => c
  | .nonterminal x :: w, c =>
    followAlong first lhs w (c.grow x ((firstOf first w).followedBy (c.map.getD lhs)))
  | _ :: w, c => followAlong first lhs w c

theorem map_followAlong (first : LookaheadMap) (lhs : String) (w : List Symbol) (c : Progress) :
    (c.followAlong first lhs w).map = Grammar.followAlong first lhs w c.map := by
  induction w generalizing c with
  | nil => rfl
  | cons y w ih =>
      cases y with
      | nonterminal x => exact ih _
      | terminal t => exact ih c
      | action a => exact ih c
      | epsilon => exact ih c
      | endMark => exact ih c

theorem Tells.followAlong (h : Tells m c) (hw : ∀ x, .nonterminal x ∈ w → x ∈ c.map.names) :
    Tells m (c.followAlong first lhs w) := by
  induction w generalizing c with
  | nil => exact h
  | cons y w ih =>
      have hrest : ∀ x, .nonterminal x ∈ w → x ∈ c.map.names :=
        fun x hx => hw x (List.mem_cons_of_mem y hx)
      cases y with
      | nonterminal x =>
          have hx : x ∈ c.map.names := hw x List.mem_cons_self
          refine ih (h.grow hx) ?_
          intro y hy
          rw [map_grow, LookaheadMap.names_grow hx]
          exact hrest y hy
      | terminal t => exact ih h hrest
      | action a => exact ih h hrest
      | epsilon => exact ih h hrest
      | endMark => exact ih h hrest

/-- If every step of a pass stays within bounds and keeps the note right, the note is right at the
end of the pass. -/
theorem tells_foldl {step : Progress → Production → Progress} {ps : List Production}
    (hstep : ∀ p ∈ ps, ∀ c, Bounded g G c.map → Tells m c →
      Bounded g G (step c p).map ∧ Tells m (step c p)) (hm : Bounded g G m) :
    Tells m (ps.foldl step ⟨m, false⟩) := by
  have hall : Bounded g G (ps.foldl step ⟨m, false⟩).map ∧ Tells m (ps.foldl step ⟨m, false⟩) := by
    refine List.foldlRecOn (motive := fun c => Bounded g G c.map ∧ Tells m c) ps step
      ⟨hm, .inl rfl⟩ ?_
    rintro c ⟨hc, ht⟩ p hp
    exact hstep p hp c hc ht
  exact hall.2

/-! ## The loop -/

/-- Goes through the productions once more if the last pass has changed something. -/
def again (pass : LookaheadMap → Progress) (c : Progress) : LookaheadMap ⊕ Progress :=
  if c.changed then .inr (pass c.map) else .inl c.map

/-- How many passes there can be at most from here on. -/
def room (g : Grammar) (G : LookaheadSet) (c : Progress) : ℕ :=
  g.nonterminals.length * G.size - c.map.weight + if c.changed then 1 else 0

/-- The invariant of a loop of passes that began with the map `m`.  Without their notes the passes
are `f`. -/
structure Underway (g : Grammar) (G : LookaheadSet) (pass : LookaheadMap → Progress)
    (f : LookaheadMap → LookaheadMap) (m : LookaheadMap) (c : Progress) : Prop where
  /-- The map is within bounds. -/
  bounded : Bounded g G c.map
  /-- The map is what has become of `m` in some passes. -/
  iterate : ∃ i, c.map = f^[i] m
  /-- Without the note, one more pass would leave everything as it is. -/
  fixed : c.changed = false → pass c.map = c

section Loop

variable {pass : LookaheadMap → Progress} {f : LookaheadMap → LookaheadMap} {c c' : Progress}
  {n : ℕ}

theorem again_eq_inr (h : again pass c = .inr c') : c.changed = true ∧ c' = pass c.map := by
  rw [again] at h
  split at h
  · rename_i hchanged
    exact ⟨hchanged, (Sum.inr.inj h).symm⟩
  · cases h

theorem again_eq_inl {r : LookaheadMap} (h : again pass c = .inl r) :
    c.changed = false ∧ c.map = r := by
  rw [again] at h
  split at h
  · cases h
  · rename_i hchanged
    exact ⟨by simpa using hchanged, Sum.inl.inj h⟩

/-- A pass keeps the invariant, and leaves less room. -/
theorem Underway.again (hpass : ∀ m, (pass m).map = f m)
    (hbounded : ∀ m, Bounded g G m → Bounded g G (f m))
    (htells : ∀ m, Bounded g G m → Tells m (pass m)) (h : Underway g G pass f m c)
    (hagain : Progress.again pass c = .inr c') :
    Underway g G pass f m c' ∧ room g G c' < room g G c := by
  obtain ⟨hchanged, rfl⟩ := again_eq_inr hagain
  obtain ⟨i, hi⟩ := h.iterate
  have hin : Bounded g G (pass c.map).map := by
    rw [hpass]
    exact hbounded c.map h.bounded
  have hiterate : (pass c.map).map = f^[i + 1] m := by
    rw [hpass, Function.iterate_succ_apply', ← hi]
  rcases htells c.map h.bounded with heq | ⟨hchanged', hlt⟩
  · refine ⟨⟨hin, ⟨i + 1, hiterate⟩, fun _ => ?_⟩, ?_⟩
    · rw [heq]
      exact heq
    · rw [room, room, heq, hchanged]
      simp
  · refine ⟨⟨hin, ⟨i + 1, hiterate⟩, fun hfalse => ?_⟩, ?_⟩
    · rw [hchanged'] at hfalse
      cases hfalse
    · have hle := hin.weight_le
      rw [room, room, hchanged, hchanged', if_pos rfl]
      omega

/-- A loop of passes that stay within bounds and take the right notes comes to an end.  The map is
an iterate of the pass then, and one more pass leaves it as it is. -/
theorem exists_loops_again (hpass : ∀ m, (pass m).map = f m)
    (hbounded : ∀ m, Bounded g G m → Bounded g G (f m))
    (htells : ∀ m, Bounded g G m → Tells m (pass m)) (hm : Bounded g G m) :
    ∃ k ≤ g.nonterminals.length * G.size + 1, ∃ i,
      Loops (again pass) k ⟨m, true⟩ (f^[i] m) ∧ pass (f^[i] m) = ⟨f^[i] m, false⟩ := by
  have hround : ∀ c c', Underway g G pass f m c → again pass c = .inr c' →
      Underway g G pass f m c' ∧ room g G c' < room g G c :=
    fun _ _ hc hagain => hc.again hpass hbounded htells hagain
  have hstart : Underway g G pass f m ⟨m, true⟩ := ⟨hm, ⟨0, rfl⟩, nofun⟩
  obtain ⟨k, r, hloop⟩ := exists_loops hround hstart
  have hk := hloop.le_measure hround hstart
  rw [room, if_pos rfl] at hk
  obtain ⟨last, hlast, hstop⟩ :=
    hloop.exists_stop (fun c c' hc hagain => (hround c c' hc hagain).1) hstart
  obtain ⟨hchanged, rfl⟩ := again_eq_inl hstop
  obtain ⟨i, hi⟩ := hlast.iterate
  have hfixed : pass last.map = ⟨last.map, false⟩ := by rw [hlast.fixed hchanged, ← hchanged]
  rw [hi] at hloop hfixed
  exact ⟨k, by omega, i, hloop, hfixed⟩

/-- If the pass without its notes is saturated, the loop ends in what comes out of that. -/
theorem exists_loops_saturate (hpass : ∀ m, (pass m).map = f m)
    (hbounded : ∀ m, Bounded g G m → Bounded g G (f m))
    (htells : ∀ m, Bounded g G m → Tells m (pass m)) (hm : Bounded g G m)
    (hfixed : f (saturate f n m) = saturate f n m) :
    (∃ k ≤ g.nonterminals.length * G.size + 1,
      ∀ j r, Loops (again pass) j ⟨m, true⟩ r ↔ j = k ∧ r = saturate f n m) ∧
      pass (saturate f n m) = ⟨saturate f n m, false⟩ := by
  obtain ⟨k, hk, i, hloop, hlast⟩ := exists_loops_again hpass hbounded htells hm
  obtain ⟨j, hj⟩ := exists_saturate_eq_iterate f n m
  have heq : saturate f n m = f^[i] m := by
    rw [hj] at hfixed ⊢
    refine iterate_eq_of_fixed hfixed ?_
    rw [← hpass, hlast]
  rw [heq]
  exact ⟨⟨k, hk, fun _ _ => hloop.iff⟩, hlast⟩

end Loop

end Progress

/-! ## The passes -/

namespace Grammar

/-- A pass over the productions for FIRST, with the note. -/
def firstRound (g : Grammar) (m : LookaheadMap) : Progress :=
  g.productions.foldl (fun c p => c.grow p.lhs (firstOf c.map p.rhs)) ⟨m, false⟩

/-- A pass over the productions for FOLLOW, with the note. -/
def followRound (g : Grammar) (first m : LookaheadMap) : Progress :=
  g.productions.foldl (fun c p => c.followAlong first p.lhs p.rhs) ⟨m, false⟩

theorem map_firstRound (g : Grammar) (m : LookaheadMap) : (g.firstRound m).map = g.firstPass m :=
  (List.foldl_hom Progress.map fun _ _ => rfl).symm

theorem map_followRound (g : Grammar) (first m : LookaheadMap) :
    (g.followRound first m).map = g.followPass first m :=
  (List.foldl_hom Progress.map fun c p => (c.map_followAlong first p.lhs p.rhs).symm).symm

theorem tells_firstRound (hm : Bounded g (g.glimpses ⟨[]⟩) m) :
    Progress.Tells m (g.firstRound m) := by
  refine Progress.tells_foldl ?_ hm
  intro p hp c hc ht
  refine ⟨bounded_grow_firstOf hp hc, ht.grow ?_⟩
  rw [hc.names_eq]
  exact mem_nonterminals.2 ⟨p, hp, rfl⟩

theorem tells_followRound (hm : Bounded g (g.glimpses first) m) :
    Progress.Tells m (g.followRound first m) := by
  refine Progress.tells_foldl ?_ hm
  intro p hp c hc ht
  refine ⟨?_, ht.followAlong ?_⟩
  · rw [Progress.map_followAlong]
    exact bounded_followAlong (u := []) hp rfl hc
  · intro x hx
    rw [hc.names_eq]
    exact mem_nonterminals_of_mem_rhs hp hx

/-- A pass for FIRST only enlarges sets. -/
theorem le_firstPass (g : Grammar) (m : LookaheadMap) : m ≤ g.firstPass m := by
  refine List.foldlRecOn (motive := fun m' => m ≤ m') g.productions _ le_rfl ?_
  intro m' hle p _
  exact hle.trans (m'.le_grow p.lhs _)

/-- A pass for FOLLOW only enlarges sets. -/
theorem le_followPass (g : Grammar) (first m : LookaheadMap) : m ≤ g.followPass first m := by
  refine List.foldlRecOn (motive := fun m' => m ≤ m') g.productions _ le_rfl ?_
  intro m' hle p _ x l hl
  exact mem_getD_followAlong (hle x l hl)

/-! ## The number of passes -/

/-- There are no more glimpses than the terminals and the two marks. -/
theorem size_glimpses_le (g : Grammar) : (g.glimpses ⟨[]⟩).size ≤ g.terminals.length + 2 := by
  refine Nat.le_trans (LookaheadSet.size_ofList_le _) ?_
  simp

/-- The sets of FIRST hold no glimpses of their own. -/
theorem glimpses_firstSets_subset (g : Grammar) : g.glimpses g.firstSets ⊆ g.glimpses ⟨[]⟩ := by
  intro l hl
  rw [glimpses, LookaheadSet.mem_ofList, List.mem_append] at hl
  rcases hl with hl | hl
  · rw [glimpses, LookaheadSet.mem_ofList]
    exact List.mem_append_left _ hl
  · obtain ⟨e, he, hl⟩ := List.mem_flatMap.1 hl
    exact (bounded_firstSets g).within e he l hl

/-- FIRST and FOLLOW are found by loops of passes that go on as long as a pass has made a set
larger.  For every grammar either loop comes to an end, after as many passes at most as there are
nonterminals times terminals and the two marks, and one more.  A pass only ever enlarges the sets,
whatever the map holds.  And the maps in which the loops end are FIRST and FOLLOW, which one more
pass leaves as they are. -/
theorem loops_passes (g : Grammar) :
    (∃ k ≤ g.nonterminals.length * (g.terminals.length + 2) + 1,
      ∀ j m, Loops (Progress.again g.firstRound) j ⟨.ofNames g.nonterminals, true⟩ m ↔
        j = k ∧ m = g.firstSets) ∧
    (∃ k ≤ g.nonterminals.length * (g.terminals.length + 2) + 1,
      ∀ j m, Loops (Progress.again (g.followRound g.firstSets)) j ⟨g.followSeed, true⟩ m ↔
        j = k ∧ m = g.followSets g.firstSets) ∧
    (∀ m, m ≤ (g.firstRound m).map) ∧ (∀ m, m ≤ (g.followRound g.firstSets m).map) ∧
    g.firstRound g.firstSets = ⟨g.firstSets, false⟩ ∧
    g.followRound g.firstSets (g.followSets g.firstSets) = ⟨g.followSets g.firstSets, false⟩ := by
  have hsize := g.size_glimpses_le
  have hsize' :=
    Nat.le_trans (LookaheadSet.size_le_of_subset g.glimpses_firstSets_subset) hsize
  obtain ⟨⟨k, hk, hfirst⟩, hfixed⟩ := Progress.exists_loops_saturate g.map_firstRound
    (fun _ => bounded_firstPass) (fun _ => tells_firstRound) (Bounded.ofNames g _)
    g.firstPass_firstSets
  obtain ⟨⟨k', hk', hfollow⟩, hfixed'⟩ := Progress.exists_loops_saturate
    (g.map_followRound g.firstSets) (fun _ => bounded_followPass) (fun _ => tells_followRound)
    (bounded_followSeed g _) (g.followPass_followSets g.firstSets)
  refine ⟨⟨k, ?_, hfirst⟩, ⟨k', ?_, hfollow⟩, fun m => ?_, fun m => ?_, hfixed, hfixed'⟩
  · exact Nat.le_trans hk (Nat.add_le_add_right (Nat.mul_le_mul_left _ hsize) 1)
  · exact Nat.le_trans hk' (Nat.add_le_add_right (Nat.mul_le_mul_left _ hsize') 1)
  · rw [map_firstRound]
    exact g.le_firstPass m
  · rw [map_followRound]
    exact g.le_followPass g.firstSets m

end Grammar

end ToneScript
