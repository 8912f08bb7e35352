import ToneScript.Proofs.Grammar.Rewriting
import ToneScript.Proofs.Lookahead.Saturation

/-!
# FIRST is exact

FIRST of a sequence, computed from the saturated map, holds exactly what the sentential
forms of the sequence can begin with, and the mark of the empty sequence exactly if the
sequence can be rewritten to nothing.  The grammar is arbitrary: it may be left-recursive
or cyclic, and its nonterminals need not stand for any word.

One half is an invariant of every pass: what is in the map is justified by a derivation.
The other half only needs that one more pass changes nothing: then the sets are closed
under the productions, and every derivation can be followed inside of them.

## Main definitions

* `Grammar.Shows` — what a sequence shows to a parser, in terms of derivations.
* `Grammar.FirstSound`, `Grammar.FirstClosed` — the two halves, as properties of a map.

## Main statements

* `Grammar.mem_firstOf_firstSets` — FIRST of a sequence holds what the sequence shows.
* `Grammar.firstSets_exact` — the same in terms of rewriting, for sequences and for the
  sets of the nonterminals.
-/

namespace ToneScript

namespace Grammar

variable {g : Grammar} {m : LookaheadMap} {w : List Symbol} {l : Lookahead} {x : String}

/-- What a sequence of symbols can show: a terminal or the end mark that it begins with,
or that it vanishes. -/
def Shows (g : Grammar) (w : List Symbol) : Lookahead → Prop
  | .terminal t => g.Begins (.terminal t) w
  | .endMark => g.Begins .endMark w
  | .empty => g.Derives w []

namespace Shows

theorem skip {x : Symbol} (hx : x.isVisible = false) (h : g.Shows w l) : g.Shows (x :: w) l := by
  cases l with
  | terminal t => exact Begins.skip hx h
  | endMark => exact Begins.skip hx h
  | empty => exact Derives.skip hx h

/-- What the first symbol shows, the sequence shows, unless the symbol vanishes. -/
theorem append_right {x : Symbol} (h : g.Shows [x] l) (hl : l ≠ .empty) (w : List Symbol) :
    g.Shows (x :: w) l := by
  cases l with
  | terminal t => exact Begins.append_right h w
  | endMark => exact Begins.append_right h w
  | empty => exact absurd rfl hl

/-- Behind a symbol that vanishes the rest shows. -/
theorem append_left {x : Symbol} (hx : g.Derives [x] []) (h : g.Shows w l) :
    g.Shows (x :: w) l := by
  cases l with
  | terminal t => exact Begins.append_left hx h
  | endMark => exact Begins.append_left hx h
  | empty => exact Derives.append hx h

theorem of_production {p : Production} (hp : p ∈ g.productions) (h : g.Shows p.rhs l) :
    g.Shows [.nonterminal p.lhs] l := by
  cases l with
  | terminal t => exact Begins.inside hp h
  | endMark => exact Begins.inside hp h
  | empty => exact Derives.of_nonterminal hp h

end Shows

/-! ## What is in the sets is justified -/

/-- Every member of every set is something that the nonterminal shows. -/
def FirstSound (g : Grammar) (m : LookaheadMap) : Prop :=
  ∀ x, ∀ l ∈ m.getD x, g.Shows [.nonterminal x] l

theorem FirstSound.shows_of_mem_firstOf (hm : g.FirstSound m) (h : l ∈ firstOf m w) :
    g.Shows w l := by
  induction w with
  | nil =>
      rw [firstOf, LookaheadSet.mem_singleton] at h
      rw [h]
      exact Derives.nil
  | cons x w ih =>
      cases x with
      | terminal t =>
          rw [firstOf, LookaheadSet.mem_singleton] at h
          rw [h]
          exact Begins.here w
      | endMark =>
          rw [firstOf, LookaheadSet.mem_singleton] at h
          rw [h]
          exact Begins.here w
      | epsilon => exact Shows.skip rfl (ih h)
      | action a => exact Shows.skip rfl (ih h)
      | nonterminal x =>
          rw [firstOf, LookaheadSet.mem_followedBy] at h
          rcases h with ⟨h, hl⟩ | ⟨hx, h⟩
          · exact Shows.append_right (hm x l h) hl w
          · exact Shows.append_left (hm x .empty hx) (ih h)

theorem FirstSound.grow {p : Production} (hm : g.FirstSound m) (hp : p ∈ g.productions) :
    g.FirstSound (m.grow p.lhs (firstOf m p.rhs)) := by
  intro x l hl
  rw [LookaheadMap.getD_grow] at hl
  split at hl
  · rename_i hx
    rcases LookaheadSet.mem_union.1 hl with hl | hl
    · rw [hx]
      exact hm _ l hl
    · rw [hx]
      exact Shows.of_production hp (hm.shows_of_mem_firstOf hl)
  · exact hm x l hl

theorem FirstSound.foldl {ps : List Production} (hm : g.FirstSound m)
    (hps : ∀ p ∈ ps, p ∈ g.productions) :
    g.FirstSound (ps.foldl (fun m p => m.grow p.lhs (firstOf m p.rhs)) m) := by
  induction ps generalizing m with
  | nil => exact hm
  | cons p ps ih =>
      rw [List.forall_mem_cons] at hps
      exact ih (hm.grow hps.1) hps.2

theorem firstSound_firstSets (g : Grammar) : g.FirstSound g.firstSets := by
  refine saturate_induction ?_ _ ?_
  · intro m hm
    exact hm.foldl fun p hp => hp
  · intro x l hl
    have hempty := (LookaheadMap.Bounded.ofNames g ∅).getD_subset x l hl
    exact absurd hempty (LookaheadSet.not_mem_empty l)

/-! ## What is justified is in the sets -/

/-- The set of a nonterminal holds FIRST of each of its productions. -/
def FirstClosed (g : Grammar) (m : LookaheadMap) : Prop :=
  ∀ p ∈ g.productions, firstOf m p.rhs ⊆ m.getD p.lhs

theorem firstOf_cons_of_not_visible {x : Symbol} (hx : x.isVisible = false) :
    firstOf m (x :: w) = firstOf m w := by
  cases x with
  | action a => rfl
  | epsilon => rfl
  | terminal t => simp [Symbol.isVisible] at hx
  | nonterminal y => simp [Symbol.isVisible] at hx
  | endMark => simp [Symbol.isVisible] at hx

/-- Only the visible symbols of a sequence matter. -/
theorem firstOf_visible (m : LookaheadMap) (w : List Symbol) :
    firstOf m (visible w) = firstOf m w := by
  induction w with
  | nil => rfl
  | cons x w ih =>
      by_cases hx : x.isVisible
      · rw [visible_cons_of_visible hx]
        cases x with
        | terminal t => rfl
        | endMark => rfl
        | nonterminal y => rw [firstOf, firstOf, ih]
        | epsilon => cases hx
        | action a => cases hx
      · have hx : x.isVisible = false := by simpa using hx
        rw [visible_cons_of_not_visible hx, firstOf_cons_of_not_visible hx, ih]

namespace FirstClosed

theorem empty_mem_firstOf (hm : g.FirstClosed m) (h : g.Derives w []) :
    .empty ∈ firstOf m w := by
  generalize hz : ([] : List Symbol) = z at h
  induction h with
  | nil => exact LookaheadSet.mem_singleton.2 rfl
  | input _ _ _ => exact absurd hz (by simp)
  | skip hx _ ih =>
      rw [firstOf_cons_of_not_visible hx]
      exact ih hz
  | expand hp _ _ ihr ih =>
      obtain ⟨rfl, rfl⟩ := List.append_eq_nil_iff.1 hz.symm
      exact LookaheadSet.mem_followedBy.2 (.inr ⟨hm _ hp _ (ihr rfl), ih rfl⟩)

theorem mem_firstOf_of_begins {c : Symbol} (hm : g.FirstClosed m)
    (hc : ∀ w, l ∈ firstOf m (c :: w)) (hl : l ≠ .empty) (h : g.Begins c w) :
    l ∈ firstOf m w := by
  induction h with
  | here w => exact hc w
  | skip hx _ ih =>
      rw [firstOf_cons_of_not_visible hx]
      exact ih
  | inside hp _ ih => exact LookaheadSet.mem_followedBy.2 (.inl ⟨hm _ hp _ ih, hl⟩)
  | behind hp hr _ ih =>
      have hempty := hm _ hp _ (hm.empty_mem_firstOf hr)
      exact LookaheadSet.mem_followedBy.2 (.inr ⟨hempty, ih⟩)

theorem mem_firstOf_of_shows (hm : g.FirstClosed m) (h : g.Shows w l) : l ∈ firstOf m w := by
  cases l with
  | terminal t =>
      refine hm.mem_firstOf_of_begins (c := .terminal t) ?_ (by simp) h
      intro w
      rw [firstOf, LookaheadSet.mem_singleton]
  | endMark =>
      refine hm.mem_firstOf_of_begins (c := .endMark) ?_ (by simp) h
      intro w
      rw [firstOf, LookaheadSet.mem_singleton]
  | empty => exact hm.empty_mem_firstOf h

end FirstClosed

/-! ## The passes come to an end -/

/-- All terminals of a grammar, the end mark and the mark of the empty sequence are among
its glimpses. -/
theorem mem_glimpses (first : LookaheadMap) (hl : ∀ t, l = .terminal t → t ∈ g.terminals) :
    l ∈ g.glimpses first := by
  rw [glimpses, LookaheadSet.mem_ofList]
  cases l with
  | terminal t => simp [hl t rfl]
  | endMark => simp
  | empty => simp

theorem mem_terminals {p : Production} {t : String} (hp : p ∈ g.productions)
    (ht : Symbol.terminal t ∈ p.rhs) : t ∈ g.terminals := by
  rw [terminals, List.mem_eraseDups, List.mem_flatMap]
  exact ⟨p, hp, by simpa using ht⟩

/-- FIRST of a piece of a right-hand side holds nothing but glimpses, if that is true of
the sets of the map. -/
theorem firstOf_subset {G : LookaheadSet} (hm : ∀ x, m.getD x ⊆ G)
    (hG : ∀ l, (∀ t, l = .terminal t → t ∈ g.terminals) → l ∈ G)
    (hw : ∀ t, Symbol.terminal t ∈ w → t ∈ g.terminals) : firstOf m w ⊆ G := by
  induction w with
  | nil =>
      intro l hl
      rw [firstOf, LookaheadSet.mem_singleton] at hl
      exact hG l (by simp [hl])
  | cons x w ih =>
      have hrest := ih fun t ht => hw t (List.mem_cons_of_mem x ht)
      intro l hl
      cases x with
      | terminal t =>
          rw [firstOf, LookaheadSet.mem_singleton] at hl
          refine hG l ?_
          intro t' ht'
          rw [hl, Lookahead.terminal.injEq] at ht'
          rw [← ht']
          exact hw t List.mem_cons_self
      | endMark =>
          rw [firstOf, LookaheadSet.mem_singleton] at hl
          exact hG l (by simp [hl])
      | epsilon => exact hrest l hl
      | action a => exact hrest l hl
      | nonterminal x =>
          rw [firstOf, LookaheadSet.mem_followedBy] at hl
          rcases hl with ⟨hl, _⟩ | ⟨_, hl⟩
          · exact hm x l hl
          · exact hrest l hl

theorem bounded_grow_firstOf {p : Production} (hp : p ∈ g.productions)
    (hm : LookaheadMap.Bounded g (g.glimpses ⟨[]⟩) m) :
    LookaheadMap.Bounded g (g.glimpses ⟨[]⟩) (m.grow p.lhs (firstOf m p.rhs)) := by
  refine hm.grow (mem_nonterminals.2 ⟨p, hp, rfl⟩) ?_
  refine firstOf_subset hm.getD_subset (fun l hl => mem_glimpses _ hl) ?_
  intro t ht
  exact mem_terminals hp ht

/-- A pass enlarges the map, or each of its steps leaves the map alone. -/
theorem firstPass_eq_or_weight_lt (hm : LookaheadMap.Bounded g (g.glimpses ⟨[]⟩) m) :
    (g.firstPass m = m ∧ ∀ p ∈ g.productions, m.grow p.lhs (firstOf m p.rhs) = m) ∨
      m.weight < (g.firstPass m).weight := by
  refine LookaheadMap.foldl_eq_or_weight_lt (P := LookaheadMap.Bounded g (g.glimpses ⟨[]⟩)) ?_ ?_ hm
  · intro p hp m hm
    exact bounded_grow_firstOf hp hm
  · intro p hp m hm
    exact hm.grow_eq_or_weight_lt (mem_nonterminals.2 ⟨p, hp, rfl⟩)

theorem bounded_firstPass (hm : LookaheadMap.Bounded g (g.glimpses ⟨[]⟩) m) :
    LookaheadMap.Bounded g (g.glimpses ⟨[]⟩) (g.firstPass m) := by
  refine List.foldlRecOn g.productions _ hm ?_
  intro m hm p hp
  exact bounded_grow_firstOf hp hm

theorem bounded_firstSets (g : Grammar) : LookaheadMap.Bounded g (g.glimpses ⟨[]⟩) g.firstSets := by
  refine saturate_induction ?_ _ (LookaheadMap.Bounded.ofNames g _)
  intro m hm
  exact bounded_firstPass hm

/-- One more pass changes nothing. -/
theorem firstPass_firstSets (g : Grammar) : g.firstPass g.firstSets = g.firstSets := by
  refine LookaheadMap.Bounded.saturate_stable ?_ ?_ (LookaheadMap.Bounded.ofNames g _)
    (Nat.lt_succ_self _)
  · intro m hm
    exact bounded_firstPass hm
  · intro m hm
    exact (firstPass_eq_or_weight_lt hm).imp_left And.left

theorem firstClosed_firstSets (g : Grammar) : g.FirstClosed g.firstSets := by
  intro p hp
  rcases firstPass_eq_or_weight_lt (bounded_firstSets g) with ⟨_, hall⟩ | hlt
  · exact LookaheadMap.subset_getD_of_grow_eq (hall p hp)
  · rw [firstPass_firstSets] at hlt
    exact absurd hlt (Nat.lt_irrefl _)

/-! ## Exactness -/

/-- FIRST of a sequence holds what the sequence shows. -/
theorem mem_firstOf_firstSets : l ∈ firstOf g.firstSets w ↔ g.Shows w l :=
  ⟨(firstSound_firstSets g).shows_of_mem_firstOf, (firstClosed_firstSets g).mem_firstOf_of_shows⟩

/-- What a sequence shows, or what is in `L` if the sequence can vanish. -/
theorem mem_followedBy_firstOf {L : LookaheadSet} :
    l ∈ (firstOf g.firstSets w).followedBy L ↔
      g.Shows w l ∧ l ≠ .empty ∨ g.Derives w [] ∧ l ∈ L := by
  rw [LookaheadSet.mem_followedBy, mem_firstOf_firstSets, mem_firstOf_firstSets]
  rfl

/-- FIRST of a single nonterminal is the set of the nonterminal. -/
theorem firstOf_nonterminal (m : LookaheadMap) (x : String) :
    firstOf m [.nonterminal x] = m.getD x := by
  ext l
  rw [firstOf, LookaheadSet.mem_followedBy, firstOf, LookaheadSet.mem_singleton]
  by_cases hl : l = .empty
  · simp [hl]
  · simp [hl]

/-- FIRST is exact, for every grammar and every sequence of symbols: it holds a terminal
or the end mark if and only if the sequence can be rewritten to begin with it, and the
mark of the empty sequence if and only if the sequence can be rewritten to nothing.  The
set of a declared nonterminal is FIRST of that nonterminal alone. -/
theorem firstSets_exact (g : Grammar) :
    (∀ w : List Symbol,
      (∀ t, Lookahead.terminal t ∈ firstOf g.firstSets w ↔
        ∃ v, g.Rewrites (visible w) (.terminal t :: v)) ∧
      (Lookahead.endMark ∈ firstOf g.firstSets w ↔
        ∃ v, g.Rewrites (visible w) (.endMark :: v)) ∧
      (Lookahead.empty ∈ firstOf g.firstSets w ↔ g.Rewrites (visible w) [])) ∧
    ∀ x ∈ g.nonterminals, g.firstSets.get? x = some (firstOf g.firstSets [.nonterminal x]) := by
  refine ⟨?_, ?_⟩
  · intro w
    refine ⟨?_, ?_, ?_⟩
    · intro t
      rw [mem_firstOf_firstSets, exists_rewrites_cons_iff rfl]
      rfl
    · rw [mem_firstOf_firstSets, exists_rewrites_cons_iff rfl]
      rfl
    · rw [mem_firstOf_firstSets, rewrites_iff_derives (by simp)]
      rfl
  · intro x hx
    rw [← (bounded_firstSets g).names_eq] at hx
    rw [firstOf_nonterminal, LookaheadMap.get?_eq_some_getD hx]

/-- A left-recursive nonterminal whose recursion is hidden behind an action, behind one that
vanishes, and behind one that goes round in circles. -/
def hiddenRecursion : Grammar where
  productions :=
    [⟨"List", [.nonterminal "Gap", .action .add, .nonterminal "List", .terminal ","]⟩,
     ⟨"List", [.nonterminal "Gap", .endMark]⟩,
     ⟨"Gap", [.nonterminal "Gap"]⟩,
     ⟨"Gap", [.epsilon, .action .saveId]⟩,
     ⟨"Void", [.nonterminal "Void", .terminal "x"]⟩]
  productions_ne_nil := by decide
  closed := by decide

/-- With a recursion that is hidden, FIRST is exact as well. -/
theorem firstSets_exact_hiddenRecursion :
    "Gap" ∈ hiddenRecursion.nonterminals ∧
      hiddenRecursion.firstSets.get? "Gap" =
        some (firstOf hiddenRecursion.firstSets [.nonterminal "Gap"]) ∧
      (Lookahead.empty ∈ firstOf hiddenRecursion.firstSets [.nonterminal "Gap"] ↔
        hiddenRecursion.Rewrites [.nonterminal "Gap"] []) := by
  have hx : "Gap" ∈ hiddenRecursion.nonterminals := by decide
  obtain ⟨hw, hsets⟩ := firstSets_exact hiddenRecursion
  exact ⟨hx, hsets "Gap" hx, (hw [.nonterminal "Gap"]).2.2⟩

end Grammar

end ToneScript
