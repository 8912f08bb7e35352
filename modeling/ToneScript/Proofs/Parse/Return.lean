import ToneScript.Proofs.Parse.Depth
import ToneScript.Proofs.Parse.Termination
import ToneScript.Compile

/-!
# Grammars by which every program is compiled

A parse that is given up is one that would go on for ever: if there is no outcome, then no
depth of descent leads to one.  By a conclusive grammar that happens to no program.  The
condition is on the grammar alone, and it cannot be dropped: nothing in the reading of
grammars keeps symbols from standing behind the end mark, and a start symbol that comes up
again there is derived over and over at the end of the program.

## Main statements

* `Parse.run_eq_none_iff` — there is no outcome just if no depth suffices.
* `exists_compile` — by a conclusive grammar every program is compiled.
-/

namespace ToneScript

variable {g : Grammar} {t : Table} {source text : String}

namespace Parse

/-- A parse without an outcome has none at any depth. -/
theorem run_eq_none_iff :
    run t source = none ↔ ∃ s, (State.ofSource source).advance = (.proceed, s) ∧
      ∀ depth, expand t depth t.start s = none := by
  rw [run, Option.map_eq_none_iff]
  constructor
  · intro h
    rcases ha : (State.ofSource source).advance with ⟨flow | flow, s⟩
    · refine ⟨s, rfl, ?_⟩
      intro depth
      rw [Option.eq_none_iff_forall_ne_some]
      intro r hr
      rw [expand_eq_descend] at hr
      rw [finalState_of_runs ha (runs_of_descend hr)] at h
      cases h
    · rw [finalState, ha] at h
      cases h
  · rintro ⟨s, ha, h⟩
    rw [finalState, ha]
    simp only [h, Option.map_none]

/-- By a conclusive grammar every parse has an outcome. -/
theorem exists_run (ht : Table.build g = .ok t) (hg : g.Conclusive) (source : String) :
    ∃ o, run t source = some o := by
  obtain ⟨rfl, hpred⟩ := Table.build_eq_ok ht
  rcases ha : (State.ofSource source).advance with ⟨flow | flow, s⟩
  · obtain ⟨r, hr⟩ := exists_runs_nonterminal hpred hg g.start_mem_nonterminals s
    rw [← Table.start_compute] at hr
    rw [run, finalState_of_runs ha hr]
    exact ⟨_, rfl⟩
  · rw [run, finalState, ha]
    exact ⟨_, rfl⟩

end Parse

/-- A text is accepted if it is a grammar, and the table of the grammar can be built. -/
theorem Table.build_of_ofText (hg : Grammar.ofText text = .ok g) (ht : ofText text = .ok t) :
    build g = .ok t := by
  rw [ofText, hg] at ht
  dsimp only at ht
  split at ht
  · cases ht
  · cases ht
    assumption

/-- By a grammar in which no nonterminal comes up again behind an end mark that it begins
with, every program is compiled. -/
theorem exists_compile (hg : Grammar.ofText text = .ok g) (ht : Table.ofText text = .ok t)
    (hc : g.Conclusive) (source : String) : ∃ c, compile t source = some c := by
  obtain ⟨o, ho⟩ := Parse.exists_run (Table.build_of_ofText hg ht) hc source
  exact ⟨.ofOutcome o, by rw [compile, ho]; rfl⟩

/-- Numbers in a row, with a sum wherever one is wanted. -/
def Grammar.tally : Grammar where
  productions :=
    [⟨"Tally", [.nonterminal "Sum", .endMark]⟩,
     ⟨"Sum", [.terminal "NUMBER", .nonterminal "Sum"]⟩,
     ⟨"Sum", [.epsilon]⟩]
  productions_ne_nil := by decide
  closed := by decide

theorem exists_compile_tally :
    Grammar.ofText "Tally -> Sum $\nSum -> /NUMBER Sum | EPSILON" = .ok .tally ∧
      Table.ofText "Tally -> Sum $\nSum -> /NUMBER Sum | EPSILON" = .ok (.compute .tally) ∧
      Grammar.tally.Conclusive ∧ ∃ c, compile (.compute .tally) "1 +; 2" = some c := by
  have hg : Grammar.ofText "Tally -> Sum $\nSum -> /NUMBER Sum | EPSILON" = .ok .tally := by
    decide +kernel
  have ht : Table.ofText "Tally -> Sum $\nSum -> /NUMBER Sum | EPSILON" = .ok (.compute .tally) := by
    decide +kernel
  have hc : Grammar.tally.Conclusive := by
    refine Grammar.Anchored.conclusive ?_
    constructor <;> decide
  exact ⟨hg, ht, hc, exists_compile hg ht hc _⟩

/-- A start symbol that comes up again behind the end mark: the grammar is accepted, and even
the empty program is never compiled, however deep the descent goes. -/
theorem compile_eq_none_of_restart :
    ∃ t, Table.ofText "S -> $ S $" = .ok t ∧ compile t "" = none ∧
      ∃ s, (Parse.State.ofSource "").advance = (.proceed, s) ∧
        ∀ depth, Parse.expand t depth t.start s = none := by
  let g : Grammar :=
    ⟨[⟨"S", [.endMark, .nonterminal "S", .endMark]⟩], by decide, by decide⟩
  have hrun : Parse.run (.compute g) "" = none := by
    rw [← Option.isNone_iff_eq_none]
    decide +kernel
  refine ⟨.compute g, by decide +kernel, ?_, Parse.run_eq_none_iff.1 hrun⟩
  rw [compile, hrun, Option.map_none]

end ToneScript
