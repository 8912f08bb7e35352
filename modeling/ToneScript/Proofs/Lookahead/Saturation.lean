import Mathlib.Data.List.Perm.Basic
import ToneScript.Lookahead.Analysis

/-!
# Saturation of look-ahead maps

FIRST and FOLLOW are found by passes that only ever enlarge the sets of a map.  A pass
that changes the map adds to its *weight*, the number of all members of all its sets.
The names of the map stay the same and every set stays within a fixed finite set, so the
weight is bounded, and the number of passes that the analysis allows is more than the
bound.  What comes out is therefore a map that one more pass leaves as it is.

## Main definitions

* `LookaheadMap.names`, `LookaheadMap.weight` — the names and the weight of a map.
* `LookaheadMap.Bounded` — the invariant of all passes.

## Main statements

* `saturate_stable` — enough rounds of a bounded, enlarging step reach a fixed point.
* `LookaheadMap.foldl_eq_or_weight_lt` — a pass enlarges the map, or each of its steps
  leaves the map alone.
-/

namespace ToneScript

/-! ## Rounds -/

section Saturate

variable {α : Type} [DecidableEq α] {f : α → α} {P : α → Prop}

/-- What every round preserves holds at the end. -/
theorem saturate_induction (hstep : ∀ a, P a → P (f a)) (n : ℕ) {a : α} (ha : P a) :
    P (saturate f n a) := by
  induction n generalizing a with
  | zero => exact ha
  | succ n ih =>
      rw [saturate]
      split
      · exact ha
      · exact ih (hstep a ha)

/-- If every round that changes something increases a bounded measure, and there are more
rounds than the bound has room for, then the last round changes nothing. -/
theorem saturate_stable {μ : α → ℕ} {b : ℕ} (hstep : ∀ a, P a → P (f a))
    (hgrow : ∀ a, P a → f a = a ∨ μ a < μ (f a)) (hb : ∀ a, P a → μ a ≤ b) {n : ℕ} {a : α}
    (ha : P a) (hn : b < μ a + n) : f (saturate f n a) = saturate f n a := by
  induction n generalizing a with
  | zero =>
      have := hb a ha
      omega
  | succ n ih =>
      rw [saturate]
      split
      · assumption
      · rename_i hne
        have hlt := (hgrow a ha).resolve_left hne
        exact ih (hstep a ha) (by omega)

end Saturate

/-! ## Sizes of sets -/

namespace LookaheadSet

variable {s t : LookaheadSet}

theorem nodup_toList (s : LookaheadSet) : s.toList.Nodup := by
  refine s.increasing.imp ?_
  intro a b hab heq
  subst heq
  exact Lookahead.lt_irrefl a hab

theorem size_le_of_subset (h : s ⊆ t) : s.size ≤ t.size :=
  (List.subperm_of_subset s.nodup_toList h).length_le

/-- A subset that is not smaller is the whole set. -/
theorem eq_of_subset_of_size_le (h : s ⊆ t) (hsize : t.size ≤ s.size) : s = t := by
  have hperm := (List.subperm_of_subset s.nodup_toList h).perm_of_length_le hsize
  ext a
  exact hperm.mem_iff

/-- Members are added, or they were there already. -/
theorem union_eq_or_size_lt (s t : LookaheadSet) : s ∪ t = s ∨ s.size < (s ∪ t).size := by
  have hsub : s ⊆ s ∪ t := fun a ha => mem_union.2 (.inl ha)
  by_cases hsize : (s ∪ t).size ≤ s.size
  · exact .inl (eq_of_subset_of_size_le hsub hsize).symm
  · exact .inr (Nat.lt_of_not_le hsize)

end LookaheadSet

/-! ## Maps -/

namespace LookaheadMap

variable {g : Grammar} {G s : LookaheadSet} {m : LookaheadMap} {x y : String}

/-- The names of a map in order. -/
def names (m : LookaheadMap) : List String := m.entries.map Prod.fst

/-- The number of all members of all sets of some entries. -/
def weightIn : List (String × LookaheadSet) → ℕ
  | [] => 0
  | (_, s) :: l => s.size + weightIn l

/-- The number of all members of all sets of a map. -/
def weight (m : LookaheadMap) : ℕ := weightIn m.entries

@[simp] theorem names_ofNames (l : List String) : (ofNames l).names = l := by
  simp [names, ofNames, Function.comp_def]

@[simp, grind =] theorem getD_grow (m : LookaheadMap) (x y : String) (s : LookaheadSet) :
    (m.grow x s).getD y = if y = x then m.getD x ∪ s else m.getD y := by
  rw [getD, get?_grow]
  split
  · rfl
  · rfl

/-- What is in the set of a name is in the set of some entry. -/
theorem exists_mem_entries {a : Lookahead} (h : a ∈ m.getD x) :
    ∃ s, (x, s) ∈ m.entries ∧ a ∈ s := by
  rw [getD, get?] at h
  cases hs : m.entries.lookup x with
  | none =>
      rw [hs] at h
      exact absurd h (LookaheadSet.not_mem_empty a)
  | some s =>
      rw [hs] at h
      obtain ⟨before, behind, hentries, _⟩ := List.lookup_eq_some_iff.1 hs
      exact ⟨s, by simp [hentries], h⟩

/-- A name that is there has a set. -/
theorem get?_eq_some_getD (h : x ∈ m.names) : m.get? x = some (m.getD x) := by
  rw [getD, get?]
  cases hl : m.entries.lookup x with
  | some t => rfl
  | none =>
      obtain ⟨e, he, rfl⟩ := List.mem_map.1 h
      have hne := List.lookup_eq_none_iff.1 hl e he
      simp at hne

theorem map_fst_growIn {l : List (String × LookaheadSet)} (h : x ∈ l.map Prod.fst) :
    (growIn x s l).map Prod.fst = l.map Prod.fst := by
  induction l with
  | nil => simp at h
  | cons e l ih =>
      obtain ⟨z, t⟩ := e
      simp only [growIn]
      split
      · rfl
      · rename_i hne
        simp only [List.map_cons, List.mem_cons, hne, false_or] at h ⊢
        rw [ih h]

/-- A name that is there stays where it is. -/
theorem names_grow (h : x ∈ m.names) : (m.grow x s).names = m.names := map_fst_growIn h

theorem growIn_eq_or_weightIn_lt {l : List (String × LookaheadSet)} (h : x ∈ l.map Prod.fst) :
    growIn x s l = l ∨ weightIn l < weightIn (growIn x s l) := by
  induction l with
  | nil => simp at h
  | cons e l ih =>
      obtain ⟨z, t⟩ := e
      simp only [growIn]
      split
      · rcases LookaheadSet.union_eq_or_size_lt t s with heq | hlt
        · exact .inl (by rw [heq])
        · refine .inr ?_
          simp only [weightIn]
          omega
      · rename_i hne
        simp only [List.map_cons, List.mem_cons, hne, false_or] at h
        rcases ih h with heq | hlt
        · exact .inl (by rw [heq])
        · refine .inr ?_
          simp only [weightIn]
          omega

theorem weightIn_le {l : List (String × LookaheadSet)} (h : ∀ e ∈ l, e.2 ⊆ G) :
    weightIn l ≤ l.length * G.size := by
  induction l with
  | nil => simp [weightIn]
  | cons e l ih =>
      obtain ⟨z, t⟩ := e
      rw [List.forall_mem_cons] at h
      have hsize : t.size ≤ G.size := LookaheadSet.size_le_of_subset h.1
      have hrest := ih h.2
      rw [weightIn, List.length_cons, Nat.add_mul, Nat.one_mul]
      omega

/-- Enlarging a set adds to the weight, or nothing happens. -/
theorem grow_eq_or_weight_lt (h : x ∈ m.names) :
    m.grow x s = m ∨ m.weight < (m.grow x s).weight := by
  rcases growIn_eq_or_weightIn_lt (s := s) h with heq | hlt
  · exact .inl (congrArg LookaheadMap.mk heq)
  · exact .inr hlt

/-- Where nothing happens, everything was there already. -/
theorem subset_getD_of_grow_eq (h : m.grow x s = m) : s ⊆ m.getD x := by
  intro a ha
  have hget : (m.grow x s).getD x = m.getD x ∪ s := by rw [getD_grow, if_pos rfl]
  rw [h] at hget
  rw [hget]
  exact LookaheadSet.mem_union.2 (.inr ha)

/-- The invariant of the passes: the names are the nonterminals of a grammar, and all
members come from `G`. -/
structure Bounded (g : Grammar) (G : LookaheadSet) (m : LookaheadMap) : Prop where
  /-- No name is added or lost. -/
  names_eq : m.names = g.nonterminals
  /-- Nothing comes from outside. -/
  within : ∀ e ∈ m.entries, e.2 ⊆ G

namespace Bounded

theorem ofNames (g : Grammar) (G : LookaheadSet) : Bounded g G (.ofNames g.nonterminals) where
  names_eq := names_ofNames _
  within := by
    intro e he a ha
    obtain ⟨x, _, rfl⟩ := List.mem_map.1 he
    exact absurd ha (LookaheadSet.not_mem_empty a)

theorem getD_subset (h : Bounded g G m) (x : String) : m.getD x ⊆ G := by
  intro a ha
  obtain ⟨s, hs, ha⟩ := exists_mem_entries ha
  exact h.within (x, s) hs a ha

theorem mem_entries_growIn {l : List (String × LookaheadSet)}
    (hl : ∀ e ∈ l, e.2 ⊆ G) (hs : s ⊆ G) : ∀ e ∈ growIn x s l, e.2 ⊆ G := by
  induction l with
  | nil =>
      intro e he
      rw [growIn, List.mem_singleton] at he
      rw [he]
      exact hs
  | cons d l ih =>
      obtain ⟨z, t⟩ := d
      rw [List.forall_mem_cons] at hl
      rw [growIn]
      split
      · rw [List.forall_mem_cons]
        refine ⟨?_, hl.2⟩
        intro a ha
        rcases LookaheadSet.mem_union.1 ha with ha | ha
        · exact hl.1 a ha
        · exact hs a ha
      · rw [List.forall_mem_cons]
        exact ⟨hl.1, ih hl.2⟩

theorem grow (h : Bounded g G m) (hx : x ∈ g.nonterminals) (hs : s ⊆ G) :
    Bounded g G (m.grow x s) where
  names_eq := by
    rw [← h.names_eq] at hx
    rw [names_grow hx, h.names_eq]
  within := mem_entries_growIn h.within hs

theorem grow_eq_or_weight_lt (h : Bounded g G m) (hx : x ∈ g.nonterminals) :
    m.grow x s = m ∨ m.weight < (m.grow x s).weight := by
  rw [← h.names_eq] at hx
  exact LookaheadMap.grow_eq_or_weight_lt hx

theorem weight_le (h : Bounded g G m) : m.weight ≤ g.nonterminals.length * G.size := by
  have hlen : m.entries.length = g.nonterminals.length := by
    rw [← h.names_eq, names, List.length_map]
  rw [weight, ← hlen]
  exact weightIn_le h.within

/-- More rounds than there are members to add reach a fixed point. -/
theorem saturate_stable {f : LookaheadMap → LookaheadMap} {n : ℕ}
    (hstep : ∀ m, Bounded g G m → Bounded g G (f m))
    (hgrow : ∀ m, Bounded g G m → f m = m ∨ m.weight < (f m).weight)
    (hm : Bounded g G m) (hn : g.nonterminals.length * G.size < n) :
    f (saturate f n m) = saturate f n m :=
  ToneScript.saturate_stable hstep hgrow (fun _ hm => hm.weight_le) hm (by omega)

end Bounded

/-- A pass of steps that each preserve `P` and enlarge the map, if anything: it enlarges
the map, or every single step of it leaves the map alone. -/
theorem foldl_eq_or_weight_lt {β : Type} {P : LookaheadMap → Prop}
    {step : LookaheadMap → β → LookaheadMap} {l : List β}
    (hstep : ∀ b ∈ l, ∀ m, P m → P (step m b))
    (hgrow : ∀ b ∈ l, ∀ m, P m → step m b = m ∨ m.weight < (step m b).weight)
    (hm : P m) :
    (l.foldl step m = m ∧ ∀ b ∈ l, step m b = m) ∨ m.weight < (l.foldl step m).weight := by
  induction l generalizing m with
  | nil => exact .inl ⟨rfl, by simp⟩
  | cons b l ih =>
      rw [List.forall_mem_cons] at hstep hgrow
      rw [List.foldl_cons]
      have hrest := ih hstep.2 hgrow.2 (hstep.1 m hm)
      rcases hgrow.1 m hm with heq | hlt
      · rw [heq] at hrest ⊢
        rcases hrest with ⟨hfold, hall⟩ | hlt
        · exact .inl ⟨hfold, List.forall_mem_cons.2 ⟨heq, hall⟩⟩
        · exact .inr hlt
      · rcases hrest with ⟨hfold, _⟩ | hlt'
        · rw [hfold]
          exact .inr hlt
        · exact .inr (Nat.lt_trans hlt hlt')

end LookaheadMap

end ToneScript
