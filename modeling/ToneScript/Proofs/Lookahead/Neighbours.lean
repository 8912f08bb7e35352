import ToneScript.Proofs.Lookahead.Follow
import ToneScript.Proofs.Lookahead.Sequences

/-!
# FOLLOW is exact

FOLLOW of a nonterminal holds exactly the symbols that stand right behind it in the
sentential forms of the grammar, and the end mark also where a form of the start symbol
ends in the nonterminal.  The forms may be those of any declared nonterminal, so nothing
is asked about what the start symbol leads to, nor about nonterminals that stand for no
word.

One half is an invariant of the passes: what is added to a set is justified by a form.
For the other half the closure of FOLLOW under single productions is carried over to
forms of any length: whichever nonterminal is replaced last, an occurrence stands to the
left of it, to the right of it, or in the right-hand side that has been put in.

## Main definitions

* `Lookahead.symbol?` — the symbol that a look-ahead is about.
* `glimpse` — the look-ahead that a word begins with.
* `Grammar.Adjoins`, `Grammar.Closes` — what stands behind a nonterminal in some form.
* `Grammar.Follows` — what FOLLOW ought to hold.

## Main statements

* `Grammar.FollowClosed.subset_of_rewrites` — FOLLOW is closed under whole derivations.
* `Grammar.followSets_exact` — FOLLOW and PREDICT in terms of rewriting.
-/

namespace ToneScript

/-- The symbol that a look-ahead is about.  The mark of the empty sequence is about none. -/
def Lookahead.symbol? : Lookahead → Option Symbol
  | .terminal t => some (.terminal t)
  | .endMark => some .endMark
  | .empty => none

theorem Lookahead.exists_symbol? {l : Lookahead} (hl : l ≠ .empty) : ∃ c, l.symbol? = some c := by
  cases l with
  | terminal t => exact ⟨_, rfl⟩
  | endMark => exact ⟨_, rfl⟩
  | empty => exact absurd rfl hl

theorem Lookahead.ne_empty_of_symbol? {l : Lookahead} {c : Symbol} (h : l.symbol? = some c) :
    l ≠ .empty := by
  rintro rfl
  cases h

theorem Lookahead.isVisible_of_symbol? {l : Lookahead} {c : Symbol} (h : l.symbol? = some c) :
    c.isVisible := by
  cases l with
  | terminal t =>
      cases h
      rfl
  | endMark =>
      cases h
      rfl
  | empty => cases h

/-- What a parser sees of a word: the terminal that it begins with, or else the end of the
program. -/
def glimpse : List Symbol → Lookahead
  | .terminal t :: _ => .terminal t
  | _ => .endMark

theorem symbol?_glimpse_cons {c : Symbol} (hc : c.isInput) (z : List Symbol) :
    (glimpse (c :: z)).symbol? = some c := by
  cases c with
  | terminal t => rfl
  | endMark => rfl
  | nonterminal x => cases hc
  | action a => cases hc
  | epsilon => cases hc

/-- An occurrence among the visible symbols is an occurrence in the sequence. -/
theorem exists_of_visible_eq {w a b : List Symbol} {c : Symbol} (h : visible w = a ++ c :: b) :
    ∃ u v, w = u ++ c :: v ∧ visible u = a ∧ visible v = b := by
  rw [visible, List.filter_eq_append_iff] at h
  obtain ⟨w₁, w₂, rfl, ha, hb⟩ := h
  obtain ⟨u, v, rfl, hu, _, hv⟩ := List.filter_eq_cons_iff.1 hb
  refine ⟨w₁ ++ u, v, by simp, ?_, hv⟩
  rw [visible, List.filter_append, ha, List.filter_eq_nil_iff.2 hu, List.append_nil]

namespace Grammar

variable {g : Grammar} {m follow : LookaheadMap} {p : Production} {u v w z : List Symbol}
  {l : Lookahead} {c : Symbol} {x y : String}

/-! ## What stands behind a nonterminal -/

/-- In a form of some declared nonterminal the symbol stands right behind `x`. -/
def Adjoins (g : Grammar) (x : String) (c : Symbol) : Prop :=
  ∃ y ∈ g.nonterminals, ∃ u v, g.Rewrites [.nonterminal y] (u ++ .nonterminal x :: c :: v)

/-- A form of the start symbol ends in `x`. -/
def Closes (g : Grammar) (x : String) : Prop :=
  ∃ u, g.Rewrites [.nonterminal g.start] (u ++ [.nonterminal x])

/-- What FOLLOW of `x` ought to hold: the neighbours of `x`, and the end mark if nothing
need stand behind `x` at all. -/
def Follows (g : Grammar) (x : String) (l : Lookahead) : Prop :=
  (∃ c, l.symbol? = some c ∧ g.Adjoins x c) ∨ l = .endMark ∧ g.Closes x

theorem shows_iff_begins (h : l.symbol? = some c) : g.Shows w l ↔ g.Begins c w := by
  cases l with
  | terminal t =>
      cases h
      rfl
  | endMark =>
      cases h
      rfl
  | empty => cases h

/-- What a sequence shows, some form of it begins with. -/
theorem shows_iff_exists_rewrites (h : l.symbol? = some c) :
    g.Shows w l ↔ ∃ v, g.Rewrites (visible w) (c :: v) := by
  rw [shows_iff_begins h, exists_rewrites_cons_iff (Lookahead.isVisible_of_symbol? h)]

theorem Shows.of_produces (hs : g.Produces v w) (h : g.Shows w l) : g.Shows v l := by
  cases l with
  | terminal t => exact Begins.of_produces hs h
  | endMark => exact Begins.of_produces hs h
  | empty => exact Derives.of_produces hs h

/-- Where a nonterminal is replaced, an occurrence on the right-hand side becomes one in the
form, and what is behind it on the right-hand side can be rewritten further. -/
theorem Rewrites.occurrence (h : g.Rewrites z (u ++ .nonterminal p.lhs :: v))
    (hp : p ∈ g.productions) {a b : List Symbol} (hw : p.rhs = a ++ .nonterminal x :: b)
    (hb : g.Rewrites (visible b) w) :
    g.Rewrites z ((u ++ visible a) ++ .nonterminal x :: (w ++ v)) := by
  have hrhs : visible p.rhs = visible a ++ .nonterminal x :: visible b := by
    rw [hw, visible_append, visible_nonterminal_cons]
  have hstep : g.Rewrites [.nonterminal p.lhs] (visible a ++ .nonterminal x :: w) := by
    refine (rewrites_nonterminal hp).trans ?_
    rw [hrhs]
    exact Rewrites.append .refl (hb.cons _)
  have hform := hstep.append_both u v
  simp only [List.append_assoc, List.cons_append, List.nil_append] at hform ⊢
  exact h.trans hform

/-! ## What is in the sets is justified -/

/-- Every member of every set is something that stands behind the nonterminal. -/
def FollowSound (g : Grammar) (m : LookaheadMap) : Prop :=
  ∀ x, ∀ l ∈ m.getD x, g.Follows x l

theorem followSound_seed (g : Grammar) : g.FollowSound g.followSeed := by
  intro x l hl
  have hnone : l ∉ (LookaheadMap.ofNames g.nonterminals).getD x := by
    intro h
    exact LookaheadSet.not_mem_empty l ((LookaheadMap.Bounded.ofNames g ∅).getD_subset x l h)
  rw [followSeed, LookaheadMap.getD_grow] at hl
  split at hl
  · rename_i hx
    subst hx
    have hend := (LookaheadSet.mem_union.1 hl).resolve_left hnone
    exact .inr ⟨LookaheadSet.mem_singleton.1 hend, [], .refl⟩
  · exact absurd hl hnone

/-- What follows the left-hand side follows a nonterminal behind which all can vanish. -/
theorem Follows.of_vanishes (hp : p ∈ g.productions) (hw : p.rhs = u ++ .nonterminal x :: w)
    (hd : g.Derives w []) (h : g.Follows p.lhs l) : g.Follows x l := by
  rcases h with ⟨c, hc, y, hy, a, b, hform⟩ | ⟨rfl, a, hform⟩
  · exact .inl ⟨c, hc, y, hy, a ++ visible u, b, hform.occurrence hp hw hd.rewrites⟩
  · exact .inr ⟨rfl, a ++ visible u, hform.occurrence hp hw hd.rewrites⟩

/-- What stands behind an occurrence by one production follows the nonterminal. -/
theorem FollowSound.follows_of_mem (hm : g.FollowSound m) (hp : p ∈ g.productions)
    (hw : p.rhs = u ++ .nonterminal x :: w)
    (h : l ∈ (firstOf g.firstSets w).followedBy (m.getD p.lhs)) : g.Follows x l := by
  rcases mem_followedBy_firstOf.1 h with ⟨hshow, hl⟩ | ⟨hd, hl⟩
  · obtain ⟨c, hc⟩ := Lookahead.exists_symbol? hl
    obtain ⟨v, hv⟩ := (shows_iff_exists_rewrites hc).1 hshow
    have hlhs : p.lhs ∈ g.nonterminals := mem_nonterminals.2 ⟨p, hp, rfl⟩
    have hocc := Rewrites.occurrence (u := []) (v := []) .refl hp hw hv
    rw [List.append_assoc, List.nil_append, List.append_nil] at hocc
    exact .inl ⟨c, hc, p.lhs, hlhs, visible u, v, hocc⟩
  · exact (hm p.lhs l hl).of_vanishes hp hw hd

theorem FollowSound.grow (hm : g.FollowSound m) (hp : p ∈ g.productions)
    (hw : p.rhs = u ++ .nonterminal x :: w) :
    g.FollowSound (m.grow x ((firstOf g.firstSets w).followedBy (m.getD p.lhs))) := by
  intro y l hl
  rw [LookaheadMap.getD_grow] at hl
  split at hl
  · rename_i hy
    subst hy
    rcases LookaheadSet.mem_union.1 hl with hl | hl
    · exact hm _ l hl
    · exact hm.follows_of_mem hp hw hl
  · exact hm y l hl

theorem FollowSound.followAlong (hm : g.FollowSound m) (hp : p ∈ g.productions)
    (hw : p.rhs = u ++ w) : g.FollowSound (followAlong g.firstSets p.lhs w m) := by
  induction w generalizing u m with
  | nil => exact hm
  | cons y w ih =>
      have hrest : p.rhs = (u ++ [y]) ++ w := by rw [hw, List.append_assoc, List.singleton_append]
      cases y with
      | nonterminal x => exact ih (hm.grow hp hw) hrest
      | terminal t => exact ih hm hrest
      | action a => exact ih hm hrest
      | epsilon => exact ih hm hrest
      | endMark => exact ih hm hrest

theorem followSound_followSets (g : Grammar) : g.FollowSound (g.followSets g.firstSets) := by
  refine saturate_induction ?_ _ (followSound_seed g)
  intro m hm
  refine List.foldlRecOn g.productions _ hm ?_
  intro m hm p hp
  exact hm.followAlong (u := []) hp rfl

/-! ## What is justified is in the sets -/

/-- Where a nonterminal in a form comes from: it stood to the left of the nonterminal that
has been replaced, or to the right of it, or it is part of what has been put in. -/
theorem Produces.exists_occurrence (h : g.Produces z (u ++ .nonterminal x :: v)) :
    (∃ v', z = u ++ .nonterminal x :: v' ∧ g.Produces v' v) ∨
      (∃ u', z = u' ++ .nonterminal x :: v) ∨
      ∃ p ∈ g.productions, ∃ a b u' w, z = a ++ .nonterminal p.lhs :: b ∧
        p.rhs = u' ++ .nonterminal x :: w ∧ v = visible w ++ b := by
  generalize hs : u ++ .nonterminal x :: v = s at h
  obtain ⟨a, b, hp⟩ := h
  rename_i p
  rw [List.append_assoc] at hs
  rcases List.append_eq_append_iff.1 hs with ⟨a', rfl, hv⟩ | ⟨a', rfl, hv⟩
  · rcases List.cons_eq_append_iff.1 hv with ⟨rfl, hrhs⟩ | ⟨a'', rfl, rfl⟩
    · -- the occurrence begins where the right-hand side does
      rcases List.append_eq_cons_iff.1 hrhs with ⟨_, rfl⟩ | ⟨c, hc, rfl⟩
      · exact .inr (.inl ⟨u ++ [] ++ [.nonterminal p.lhs], by simp⟩)
      · obtain ⟨u', w, hw, _, rfl⟩ := exists_of_visible_eq (a := []) hc
        exact .inr (.inr ⟨p, hp, _, b, u', w, rfl, hw, rfl⟩)
    · refine .inl ⟨a'' ++ .nonterminal p.lhs :: b, by simp, ?_⟩
      rw [← List.append_assoc]
      exact .intro a'' b hp
  · rcases List.append_eq_append_iff.1 hv with ⟨c, rfl, hb⟩ | ⟨c, hrhs, hc⟩
    · exact .inr (.inl ⟨a ++ .nonterminal p.lhs :: c, by simp [hb]⟩)
    · rcases List.cons_eq_append_iff.1 hc with ⟨rfl, rfl⟩ | ⟨c', rfl, rfl⟩
      · exact .inr (.inl ⟨a ++ [.nonterminal p.lhs], by simp⟩)
      · obtain ⟨u', w, hw, _, rfl⟩ := exists_of_visible_eq hrhs
        exact .inr (.inr ⟨p, hp, a, b, u', w, rfl, hw, rfl⟩)

/-- FOLLOW is closed under whole derivations: behind an occurrence in a form comes what the
rest of the form begins with, or what comes behind the nonterminal that the form stems
from. -/
theorem FollowClosed.subset_of_rewrites (hf : g.FollowClosed g.firstSets follow)
    (h : g.Rewrites [.nonterminal y] (u ++ .nonterminal x :: v)) :
    (firstOf g.firstSets v).followedBy (follow.getD y) ⊆ follow.getD x := by
  generalize hs : u ++ .nonterminal x :: v = s at h
  induction h generalizing u x v with
  | refl =>
      obtain ⟨rfl, hx, rfl⟩ : u = [] ∧ x = y ∧ v = [] := by
        simpa [List.append_eq_singleton_iff] using hs
      intro l hl
      rw [hx]
      simpa [firstOf] using hl
  | tail _ hstep ih =>
      subst hs
      intro l hl
      rcases hstep.exists_occurrence with ⟨v', rfl, hv⟩ | ⟨u', rfl⟩ | ⟨p, hp, a, b, u', w, rfl, hw, rfl⟩
      · have hsub : firstOf g.firstSets v ⊆ firstOf g.firstSets v' := by
          intro k hk
          rw [mem_firstOf_firstSets] at hk ⊢
          exact hk.of_produces hv
        exact ih rfl l (LookaheadSet.followedBy_mono hsub (fun _ hk => hk) l hl)
      · exact ih rfl l hl
      · rw [firstOf_append, firstOf_visible, LookaheadSet.followedBy_assoc] at hl
        exact hf.subset_getD hp hw l
          (LookaheadSet.followedBy_mono (fun _ hk => hk) (ih rfl) l hl)

/-! ## What a parser sees of a word -/

/-- Of a word that a sequence stands for, with more behind it, a parser sees what the sequence
can begin with, or, where the sequence vanishes, what it sees of the rest. -/
theorem Derives.glimpse_mem {L : LookaheadSet} (h : g.Derives w z) {r : List Symbol}
    (hr : glimpse r ∈ L) : glimpse (z ++ r) ∈ (firstOf g.firstSets w).followedBy L := by
  rw [mem_followedBy_firstOf]
  cases z with
  | nil => exact .inr ⟨h, hr⟩
  | cons c z =>
      have hc := symbol?_glimpse_cons (h.forall_isInput c List.mem_cons_self) (z ++ r)
      have hshow := (shows_iff_exists_rewrites hc).2 ⟨z, h.rewrites⟩
      exact .inl ⟨hshow, Lookahead.ne_empty_of_symbol? hc⟩

/-! ## Exactness -/

/-- FOLLOW of a nonterminal holds what stands behind the nonterminal. -/
theorem mem_followSets : l ∈ (g.followSets g.firstSets).getD x ↔ g.Follows x l := by
  have hf := followClosed_followSets g g.firstSets
  refine ⟨followSound_followSets g x l, ?_⟩
  rintro (⟨c, hc, y, _, u, v, h⟩ | ⟨rfl, u, h⟩)
  · refine hf.subset_of_rewrites h l (mem_followedBy_firstOf.2 (.inl ⟨?_, ?_⟩))
    · exact (shows_iff_begins hc).2 (.here v)
    · exact Lookahead.ne_empty_of_symbol? hc
  · exact hf.subset_of_rewrites h _ (mem_followedBy_firstOf.2 (.inr ⟨.nil, hf.endMark_mem⟩))

theorem empty_notMem_followSets : .empty ∉ (g.followSets g.firstSets).getD x := by
  rw [mem_followSets]
  rintro (⟨c, hc, _⟩ | ⟨h, _⟩)
  · cases hc
  · cases h

/-- PREDICT of a production holds what the right-hand side shows, and what follows the
left-hand side if the right-hand side can vanish. -/
theorem mem_predict {follow : LookaheadMap} (h : l.symbol? = some c) :
    l ∈ ToneScript.predict g.firstSets follow p ↔
      (∃ v, g.Rewrites (visible p.rhs) (c :: v)) ∨
        g.Rewrites (visible p.rhs) [] ∧ l ∈ follow.getD p.lhs := by
  have hl := Lookahead.ne_empty_of_symbol? h
  rw [predict, mem_followedBy_firstOf, shows_iff_exists_rewrites h,
    rewrites_iff_derives (by simp)]
  simp [hl]

/-- FOLLOW is exact, for every grammar: the set of a declared nonterminal holds a terminal
if and only if the terminal stands right behind the nonterminal in some form of a declared
nonterminal, and the end mark if and only if that does, or a form of the start symbol ends
in the nonterminal.  So PREDICT of a production holds exactly what its right-hand side can
begin with, and what follows its left-hand side if the right-hand side can vanish.  The mark
of the empty sequence is in none of these sets. -/
theorem followSets_exact (g : Grammar) :
    (∀ x ∈ g.nonterminals, ∃ follow, (g.followSets g.firstSets).get? x = some follow ∧
      (∀ t, .terminal t ∈ follow ↔ ∃ y ∈ g.nonterminals, ∃ u v,
        g.Rewrites [.nonterminal y] (u ++ .nonterminal x :: .terminal t :: v)) ∧
      (.endMark ∈ follow ↔
        (∃ y ∈ g.nonterminals, ∃ u v,
          g.Rewrites [.nonterminal y] (u ++ .nonterminal x :: .endMark :: v)) ∨
        ∃ u, g.Rewrites [.nonterminal g.start] (u ++ [.nonterminal x])) ∧
      .empty ∉ follow) ∧
    ∀ p : Production,
      (∀ t, .terminal t ∈ ToneScript.predict g.firstSets (g.followSets g.firstSets) p ↔
        (∃ v, g.Rewrites (visible p.rhs) (.terminal t :: v)) ∨
          g.Rewrites (visible p.rhs) [] ∧
            .terminal t ∈ (g.followSets g.firstSets).getD p.lhs) ∧
      (.endMark ∈ ToneScript.predict g.firstSets (g.followSets g.firstSets) p ↔
        (∃ v, g.Rewrites (visible p.rhs) (.endMark :: v)) ∨
          g.Rewrites (visible p.rhs) [] ∧
            .endMark ∈ (g.followSets g.firstSets).getD p.lhs) ∧
      .empty ∉ ToneScript.predict g.firstSets (g.followSets g.firstSets) p := by
  refine ⟨?_, ?_⟩
  · intro x hx
    rw [← (bounded_followSets g g.firstSets).names_eq] at hx
    refine ⟨_, LookaheadMap.get?_eq_some_getD hx, ?_, ?_, empty_notMem_followSets⟩
    · intro t
      rw [mem_followSets]
      simp [Follows, Adjoins, Lookahead.symbol?]
    · rw [mem_followSets]
      simp [Follows, Adjoins, Closes, Lookahead.symbol?]
  · intro p
    refine ⟨fun t => mem_predict rfl, mem_predict rfl, ?_⟩
    rw [predict, mem_followedBy_firstOf]
    rintro (⟨_, h⟩ | ⟨_, h⟩)
    · exact h rfl
    · exact empty_notMem_followSets h

/-- What follows a nonterminal whose occurrences lie behind a hidden recursion. -/
theorem followSets_exact_hiddenRecursion :
    "List" ∈ hiddenRecursion.nonterminals ∧
      ∃ follow, (hiddenRecursion.followSets hiddenRecursion.firstSets).get? "List" = some follow ∧
        (∀ t, .terminal t ∈ follow ↔ ∃ y ∈ hiddenRecursion.nonterminals, ∃ u v,
          hiddenRecursion.Rewrites [.nonterminal y]
            (u ++ .nonterminal "List" :: .terminal t :: v)) ∧
        .empty ∉ follow := by
  have hx : "List" ∈ hiddenRecursion.nonterminals := by decide
  obtain ⟨follow, hget, hterminal, _, hempty⟩ := (followSets_exact hiddenRecursion).1 "List" hx
  exact ⟨hx, follow, hget, hterminal, hempty⟩

end Grammar

end ToneScript
