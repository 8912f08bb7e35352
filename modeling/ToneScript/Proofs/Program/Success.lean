import ToneScript.Proofs.Parse.Account
import ToneScript.Proofs.Parse.Calls

/-!
# A result or an error

The compiler gives out the text of a program only if nothing at all has been reported.  That it
then has a text to give out is not decided there: the action that takes the result off the stack
must have been reached, and it must have found a text.  The first holds because a parse with
nothing out of place goes through all steps of its right-hand sides, unless the program is cut
short, and that is reported.  The second holds because the action reports it if there is none.

## Main statements

* `Machine.output_isSome_performAll` — a final action that does not fail leaves a text.
* `Parse.Logs.exists_performed` — a parse that goes on has performed the actions in its way.
* `compile_success_iff` — there is a result if and only if there is no error.
-/

namespace ToneScript

/-! ## The final action -/

namespace Machine

variable {m : Machine} {cs : List Call} {c : Call}

/-- The text of the program is never taken back. -/
theorem output_isSome_perform (h : m.output.isSome) (a : Action) (x : String) :
    (m.perform a x).1.output.isSome := by
  have hconclude (m' : Machine) (v : Except Value.Fault Value) (h : m'.output.isSome) :
      (m'.conclude v).1.output.isSome := by
    cases v <;> exact h
  cases a with
  | printFinalResult =>
      rw [perform]
      split
      · rfl
      · exact h
  | saveId => exact h
  | pushNumber => exact hconclude _ _ h
  | pushString => exact h
  | add => exact hconclude _ _ h
  | multiply => exact hconclude _ _ h
  | lookupAndPushValue => exact hconclude _ _ h
  | lookupSavedId =>
      rw [perform]
      split
      · exact hconclude _ _ h
      · exact h
  | assign =>
      rw [perform]
      split
      · exact h
      · exact h
      · exact h

theorem output_isSome_of_performAll (h : m.output.isSome) (cs : List Call) :
    (m.performAll cs).1.output.isSome := by
  induction cs generalizing m with
  | nil => exact h
  | cons c cs ih => exact ih (output_isSome_perform h c.action c.lexeme)

/-- The final action finds a text, or it fails. -/
theorem output_isSome_printFinalResult {x : String}
    (h : (m.perform .printFinalResult x).2 = none) :
    (m.perform .printFinalResult x).1.output.isSome := by
  rw [perform] at h ⊢
  split
  · rfl
  · rename_i hstack
    split at h
    · rename_i hs
      exact absurd hs (hstack _ _)
    · cases h

/-- If no action fails and one of them is the final one, there is a text. -/
theorem output_isSome_performAll (h : (m.performAll cs).2 = []) (hc : c ∈ cs)
    (ha : c.action = .printFinalResult) : (m.performAll cs).1.output.isSome := by
  induction cs generalizing m with
  | nil => cases hc
  | cons c' cs ih =>
      simp only [performAll, List.append_eq_nil_iff] at h
      rcases List.mem_cons.1 hc with rfl | hc
      · have hfault : (m.perform c.action c.lexeme).2 = none := by
          simpa [Option.toList_eq_nil_iff] using h.1
        rw [ha] at hfault
        refine output_isSome_of_performAll ?_ cs
        rw [ha]
        exact output_isSome_printFinalResult hfault
      · exact ih h.2 hc

end Machine

namespace Parse

variable {g : Grammar} {t : Table} {steps : List Step} {s : State} {r : Flow × State}
  {E : List Event} {source : String} {o : Outcome}

/-- A parse that goes on has performed every action among its steps. -/
theorem Logs.exists_performed {a : Action} (h : Logs t steps s E r) (hr : r.1 = .proceed)
    (ha : .fire a ∈ steps) : ∃ c ∈ callsOf E, c.action = a := by
  induction h with
  | nil s => cases ha
  | cons _ _ ih ihr =>
      rw [callsOf_append]
      rcases List.mem_cons.1 ha with rfl | ha
      · obtain ⟨c, hc, hca⟩ := ih rfl List.mem_cons_self
        exact ⟨c, List.mem_append_left _ hc, hca⟩
      · obtain ⟨c, hc, hca⟩ := ihr hr ha
        exact ⟨c, List.mem_append_right _ hc, hca⟩
  | halt _ _ _ => cases hr
  | @act _ s _ h =>
      cases List.mem_singleton.1 ha
      rw [callsOf_append]
      exact ⟨⟨a, s.lexeme, s.line⟩, List.mem_append_left _ List.mem_cons_self, rfl⟩
  | astray _ _ => cases List.mem_singleton.1 ha
  | chosen _ _ _ _ => cases List.mem_singleton.1 ha

/-- Where nothing is reported and no lexeme is cut short, a parse goes on. -/
theorem Logs.proceeds (h : Logs t steps s E r) (hs : s.Ordered) (hE : reportOf E = [])
    (hcut : ¬ Scan.IsCut s.pending) : Clean E ∧ r.1 = .proceed := by
  have hc : Clean E := by
    intro d hd
    rw [← mem_reportOf, hE] at hd
    cases hd
  refine ⟨hc, ?_⟩
  cases hr : r.1 with
  | proceed => rfl
  | halt => exact absurd ((h.takes hs hc).of_halt hr).2 hcut

/-- If nothing is reported of a program that is not cut short, and every right-hand side of the
start symbol ends in the final action, then there is a text. -/
theorem History.output_isSome
    (hstart : ∀ p ∈ g.productions, p.lhs = g.start → .action .printFinalResult ∈ p.rhs)
    (h : History (.compute g) source E o) (hreport : o.report.toList = [])
    (hcut : ¬ Scan.IsCut (Scan.ofSource source)) : o.output.isSome := by
  have htakes := State.takes_ofSource source
  obtain ⟨houtput, hlogical⟩ := h.performAll_eq
  rw [hreport, List.filter_nil] at hlogical
  rw [h.report_eq] at hreport
  cases h with
  | cut ha =>
      rw [ha] at htakes
      exact absurd (htakes.of_halt rfl).2 hcut
  | @parsed s E r ha hlogs =>
      rw [ha] at htakes
      rw [reportOf_append, List.append_eq_nil_iff] at hreport
      obtain ⟨hc, hflow⟩ := hlogs.proceeds htakes.ordered hreport.2
        (fun h => hcut ((htakes.isCut_iff rfl).1 h))
      rw [Table.start_compute] at hlogs
      rcases hlogs.of_singleton with ⟨hact, _⟩ | ⟨_, e, hid, he, hcase⟩
      · cases hact
      · cases hid
        rw [Table.getElem?_entries_compute g.start_mem_nonterminals] at he
        cases he
        rcases hcase with ⟨flow, s', hsel, rfl, rfl⟩ | ⟨a, s', E, r, hsel, hbody, rfl, rfl⟩
        · obtain ⟨a, heq⟩ := (selects_of_select_eq hsel).of_clean hc
          cases heq
        · obtain ⟨p, hp, hlhs, _, rfl⟩ := exists_production_of_select hsel
          obtain ⟨c, hcall, hca⟩ := hbody.exists_performed hflow
            (List.mem_map_of_mem (f := Table.step g.nonterminals) (hstart p hp hlhs))
          rw [houtput]
          refine Machine.output_isSome_performAll hlogical.symm ?_ hca
          rw [callsOf_append, callsOf_append]
          exact List.mem_append_right _ (List.mem_append_right _ hcall)

end Parse

/-- The compiler never fails without an error and never succeeds with one: there is a result if
and only if nothing is wrong with the program, and this is what it calls a success. -/
theorem compile_success_iff (source : String) :
    ∃ c, compile .tone source = some c ∧
      (c.diagnostics = [] ↔ ∃ x, c.finalResult = some x) ∧
      (c.isSuccess ↔ c.diagnostics = []) := by
  obtain ⟨o, hrun⟩ :=
    Parse.exists_run Table.build_tone Grammar.anchored_tone.conclusive source
  refine ⟨.ofOutcome o, by rw [compile, hrun, Option.map_some], ?_⟩
  have hempty := o.report.isEmpty_iff
  have hresult : o.report.toList = [] → (Compilation.ofOutcome o).finalResult.isSome := by
    intro hreport
    obtain ⟨E, hist⟩ := Parse.exists_history hrun
    obtain ⟨_, _, _, _, hlexical⟩ :=
      hist.parts_tokens Grammar.closing_tone (by decide) (by decide)
    have hcut : ¬ Scan.IsCut (Scan.ofSource source) := by
      rintro ⟨x, n, hmem⟩
      have hd : (⟨n, .lexeme .truncation x⟩ : Diagnostic) ∈ (tokenize source).diagnostics :=
        List.mem_filterMap.2 ⟨_, hmem, rfl⟩
      rw [← hlexical, hreport] at hd
      cases hd
    have hsome := hist.output_isSome (by decide) hreport hcut
    rwa [Compilation.ofOutcome, if_pos (hempty.2 hreport)]
  have hreport (x : String) (hx : (Compilation.ofOutcome o).finalResult = some x) :
      o.report.toList = [] := by
    rw [← hempty]
    by_contra h
    rw [Compilation.ofOutcome, if_neg h] at hx
    cases hx
  refine ⟨⟨fun h => Option.isSome_iff_exists.1 (hresult h), ?_⟩, ?_⟩
  · rintro ⟨x, hx⟩
    exact hreport x hx
  · rw [Compilation.isSuccess, Bool.and_eq_true, List.isEmpty_iff]
    exact ⟨And.left, fun h => ⟨h, hresult h⟩⟩

end ToneScript
