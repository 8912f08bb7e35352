import ToneScript.Proofs.Parse.Recognition
import ToneScript.Proofs.Table.Rearrangement

/-!
# Parsing by a rearranged grammar

The tables of two grammars that differ in the order of their productions have other numbers
for the nonterminals and other lists of alternatives.  But the state of a parse holds nothing
of a table.  So the two parsers need not be related state by state: step for step they are in
the same state, and only the steps that are still to be taken are spelled with other numbers.

## Main statements

* `Parse.Selects.rearrange` — selecting from two entries that select the same productions.
* `Parse.Runs.rearrange` — what runs by the one table runs by the other.
* `Parse.run_rearranged` — neither analysis nor parser depend on the order of productions.
-/

namespace ToneScript.Parse

variable {g g' : Grammar} {e e' : Entry} {y : Symbol} {w : List Symbol} {s s' : State}
  {steps : List Step} {r : Flow × State} {names names' : List String}

/-- A step that derives no nonterminal is the same under all numberings. -/
theorem Acts.renumber (h : Acts (Table.step names y) s r) : Acts (Table.step names' y) s r := by
  cases y with
  | nonterminal x => cases h
  | terminal t => exact h
  | action a => exact h
  | epsilon => exact h
  | endMark => exact h

/-- Two entries of one name, with the same set behind it, that select corresponding
alternatives: the search goes the same way in both. -/
theorem Selects.rearrange {f : Alternative → Alternative} {q : Except Flow Alternative × State}
    (hname : e'.name = e.name) (hfollow : e'.follow = e.follow)
    (hselect : ∀ l, e'.select? l = (e.select? l).map f) (h : Selects e s q) :
    Selects e' s (q.1.map f, q.2) := by
  have hnone : ∀ {s : State}, e.select? s.lookahead = none → e'.select? s.lookahead = none := by
    intro s hs
    rw [hselect, hs, Option.map_none]
  induction h with
  | chosen ha =>
      refine .chosen ?_
      rw [hselect, ha, Option.map_some]
  | missing hs hf =>
      rw [← hfollow] at hf
      rw [← hname]
      exact .missing (hnone hs) hf
  | ended hs hf hc =>
      rw [← hfollow] at hf
      exact .ended (hnone hs) hf hc
  | cut hs hf hc ha =>
      rw [← hfollow] at hf
      exact .cut (hnone hs) hf hc ha
  | skip hs hf hc ha _ ih =>
      rw [← hfollow] at hf
      exact .skip (hnone hs) hf hc ha ih

section Rearranges

variable (h : g.Rearranges g') (hg : g.Predictive) (hg' : g'.Predictive)

include h hg hg'

/-- The entries of a nonterminal select alternatives of one production from the same state,
and leave the same state behind. -/
theorem select_rearrange (x : String) (s : State) :
    s.select (Table.entryOf g' x) =
      ((s.select (Table.entryOf g x)).1.map fun a => Table.alternativeOf g' a.production,
        (s.select (Table.entryOf g x)).2) := by
  have hname : (Table.entryOf g' x).name = (Table.entryOf g x).name := rfl
  have hfollow : (Table.entryOf g' x).follow = (Table.entryOf g x).follow := (h.follow_eq x).symm
  have hselects := selects_select (Table.entryOf g x) s
  exact (hselects.rearrange hname hfollow (h.select?_entryOf hg hg' x)).eq

/-- What runs by the table of the one grammar runs by the table of the other, from the same
state and to the same state. -/
theorem Runs.rearrange (hr : Runs (.compute g) steps s r)
    (hw : steps = w.map (Table.step g.nonterminals))
    (hx : ∀ x, .nonterminal x ∈ w → x ∈ g.nonterminals) :
    Runs (.compute g') (w.map (Table.step g'.nonterminals)) s r := by
  induction hr generalizing w with
  | nil s =>
      cases List.map_eq_nil_iff.1 hw.symm
      exact .nil s
  | cons _ _ ih ihr =>
      obtain ⟨y, w, rfl, rfl, rfl⟩ := List.map_eq_cons_iff.1 hw.symm
      have hstep := ih (w := [y]) rfl fun x hm => hx x (by simp_all)
      have hrest := ihr rfl fun x hm => hx x (List.mem_cons_of_mem y hm)
      exact .cons hstep hrest
  | halt _ _ ih =>
      obtain ⟨y, w, rfl, rfl, rfl⟩ := List.map_eq_cons_iff.1 hw.symm
      have hstep := ih (w := [y]) rfl fun x hm => hx x (by simp_all)
      exact .halt _ hstep
  | act hact =>
      obtain ⟨y, rfl, rfl⟩ := List.map_eq_singleton_iff.1 hw.symm
      exact .act hact.renumber
  | @astray id e s s' flow he hsel =>
      obtain ⟨x, hmem, rfl, rfl⟩ := Table.exists_entryOf hw hx he
      have he' := Table.getElem?_entries_compute (h.mem_nonterminals_iff.1 hmem)
      have hsel' := select_rearrange h hg hg' x s
      rw [hsel] at hsel'
      exact .astray he' hsel'
  | @chosen id e a s s' r he hsel _ ih =>
      obtain ⟨x, hmem, rfl, rfl⟩ := Table.exists_entryOf hw hx he
      have he' := Table.getElem?_entries_compute (h.mem_nonterminals_iff.1 hmem)
      have hsel' := select_rearrange h hg hg' x s
      rw [hsel] at hsel'
      obtain ⟨p, hp, -, -, rfl⟩ :=
        Table.exists_of_select?_entryOf (selects_of_select_eq hsel).select?_eq
      have hbody := ih rfl fun y hm => Grammar.mem_nonterminals_of_mem_rhs hp hm
      exact .chosen he' hsel' hbody

theorem finalState_rearrange (hs : finalState (.compute g) s = some s') :
    finalState (.compute g') s = some s' := by
  rcases runs_of_finalState hs with ha | ⟨s₁, flow, ha, hr⟩
  · rw [finalState, ha]
  · have hstart : ∀ x, .nonterminal x ∈ [Symbol.nonterminal g.start] → x ∈ g.nonterminals := by
      intro x hm
      cases List.mem_singleton.1 hm
      exact g.start_mem_nonterminals
    have hr' := hr.rearrange h hg hg' (w := [.nonterminal g.start]) rfl hstart
    rw [h.start_eq] at hr'
    exact finalState_of_runs ha hr'

end Rearranges

/-- Two grammars with the same productions in different orders, and with the same start
symbol: FIRST, FOLLOW and PREDICT are the same for both, both have a table or none has, and the
tables parse every program with the same outcome, or both do not come to an end with it. -/
theorem run_rearranged (hp : g.productions.Perm g'.productions) (hs : g.start = g'.start) :
    (∀ x, g.firstSets.get? x = g'.firstSets.get? x) ∧
      (∀ x, (g.followSets g.firstSets).get? x = (g'.followSets g'.firstSets).get? x) ∧
      (∀ p, predict g.firstSets (g.followSets g.firstSets) p =
        predict g'.firstSets (g'.followSets g'.firstSets) p) ∧
      ((∃ t, Table.build g = .ok t) ↔ ∃ t', Table.build g' = .ok t') ∧
      ∀ t t', Table.build g = .ok t → Table.build g' = .ok t' →
        ∀ source, run t source = run t' source := by
  have h : g.Rearranges g' := ⟨hp, hs⟩
  refine ⟨h.get?_firstSets, h.get?_followSets, h.predict_eq, h.exists_build, ?_⟩
  intro t t' ht ht' source
  obtain ⟨rfl, hg⟩ := Table.build_eq_ok ht
  obtain ⟨rfl, hg'⟩ := Table.build_eq_ok ht'
  have heq : finalState (.compute g) (.ofSource source) =
      finalState (.compute g') (.ofSource source) := by
    ext s
    exact ⟨finalState_rearrange h hg hg', finalState_rearrange h.symm hg' hg⟩
  rw [run, run, heq]

/-- The tone grammar with the productions behind the first one in reverse. -/
def toneReversed : Grammar where
  productions :=
    ⟨"Program", [.nonterminal "ProgramBody", .action .printFinalResult, .endMark]⟩ ::
      Grammar.toneProductions.tail.reverse
  productions_ne_nil := List.cons_ne_nil _ _
  closed := by decide

/-- Tone programs can be parsed with the reversed grammar as well. -/
theorem run_rearranged_tone :
    Grammar.tone.productions.Perm toneReversed.productions ∧
      Grammar.tone.start = toneReversed.start ∧
      ∃ t', Table.build toneReversed = .ok t' ∧ ∀ source, run .tone source = run t' source := by
  have hp : Grammar.tone.productions.Perm toneReversed.productions :=
    (List.reverse_perm Grammar.toneProductions.tail).symm.cons _
  have hs : Grammar.tone.start = toneReversed.start := rfl
  obtain ⟨-, -, -, hbuild, hrun⟩ := run_rearranged hp hs
  obtain ⟨t', ht'⟩ := hbuild.1 ⟨.tone, Table.build_tone⟩
  exact ⟨hp, hs, t', ht', hrun .tone t' Table.build_tone ht'⟩

end ToneScript.Parse
