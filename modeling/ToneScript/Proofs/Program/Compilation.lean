import ToneScript.Proofs.Program.Expression
import ToneScript.Proofs.Parse.Recognition

/-!
# Compiling a program gives its meaning

A program of the tone language is given as a tree.  When the tokens of a text spell the tree,
compiling the text gives the text that the tree stands for; and where it stands for none, the
compiler reports so, with faults of actions only.

A statement that begins with a name goes through the grammar on a path of its own, since it
may be an assignment.  What a statement leaves on the stack stays there, out of the way of
the statements behind it.

## Main definitions

* `Parse.executed` — the evaluator after a statement.

## Main statements

* `Parse.carries_value`, `Parse.carries_assign`, `Parse.carries_statements` — walks along
  statements.
* `compile_eq_result` — the compiler and the language agree.
-/

namespace ToneScript

namespace Parse

open Program (mark Env)

variable {ks : List Program.Word} {A B : Option Machine} {s : State}

/-! ## Statements -/

/-- At the beginning of a statement a factor is evaluated as elsewhere, unless it is a
variable. -/
theorem carries_factorNoId {f : Program.Factor} (hf : ∀ x, f ≠ .var x) (A : Option Machine) :
    Carries .tone [.nonterminal "FactorNoId"] f.spelling A (pushed A f.eval) := by
  cases f with
  | literal s => exact carries_literal (by decide) s A
  | number d => exact carries_number (by decide) d A
  | var x => exact absurd rfl (hf x)
  | group e => exact carries_group (by decide) (carries_expr e) A

/-- A name that has been saved is looked up like any other. -/
theorem pushed_lookupSavedId (A : Option Machine) (x : Program.Name) (lexeme : String) :
    ((A.bind fun m => m.step? .saveId x.text).bind fun m => m.step? .lookupSavedId lexeme) =
      pushed A (Program.Factor.var x).eval := by
  simp only [Machine.step?_saveId, Option.bind_assoc, Option.bind_some,
    Machine.step?_lookupSavedId]
  rfl

/-- A statement that is an expression. -/
theorem carries_value (e : Program.Expr)
    (h : Carries .tone [.nonterminal "ProgramRest"] ks (pushed A e.eval) B) :
    Carries .tone [.nonterminal "ProgramBody"] (e.spelling ++ mark ";" :: ks) A B := by
  obtain ⟨⟨f, fs⟩, ts⟩ := e
  have hrest : Carries .tone
      [.nonterminal "TermPrime", .nonterminal "ExprPrime", .terminal ";",
        .nonterminal "ProgramRest"]
      (Program.Term.spellingRest fs ++ (Program.Expr.spellingRest ts ++ mark ";" :: ks))
      (pushed A f.eval) B :=
    (carries_factors fs A f.eval).cons ((carries_terms ts A _).cons
      ((Carries.terminal rfl _).cons h))
  have hspell : Program.Expr.spelling (.sum (.product f fs) ts) ++ mark ";" :: ks =
      f.spelling ++ (Program.Term.spellingRest fs ++
        (Program.Expr.spellingRest ts ++ mark ";" :: ks)) := by
    rw [Program.Expr.spelling, Program.Term.spelling, List.append_assoc, List.append_assoc]
  rw [hspell]
  by_cases hf : ∃ x, f = .var x
  · obtain ⟨x, rfl⟩ := hf
    have hsave := Carries.fire (g := .tone) (a := .saveId) (t := "ID")
      (k := (.identifier, x.text)) rfl A
    have hstart := Carries.nonterminal (g := .tone) (p := ⟨"StartRule", [.action .lookupSavedId,
        .nonterminal "TermPrime", .nonterminal "ExprPrime", .terminal ";",
        .nonterminal "ProgramRest"]⟩) (by decide)
      ((Carries.action (pushed_lookupSavedId A x)).cons hrest)
    exact .nonterminal (p := ⟨"ProgramBody", [.action .saveId, .terminal "ID",
      .nonterminal "StartRule"]⟩) (by decide) (hsave.append hstart)
  · exact .nonterminal (p := ⟨"ProgramBody", [.nonterminal "FactorNoId", .nonterminal "TermPrime",
      .nonterminal "ExprPrime", .terminal ";", .nonterminal "ProgramRest"]⟩) (by decide)
      ((carries_factorNoId (not_exists.1 hf) A).cons hrest)

/-- A value is stored under a name that has been saved. -/
theorem pushed_assign (A : Option Machine) (x : Program.Name) (eval : Env → Option Value)
    (lexeme : String) :
    ((pushed (A.bind fun m => m.step? .saveId x.text) eval).bind fun m =>
      m.step? .assign lexeme) = A.bind fun m => (eval m.env).map (m.assign x.text) := by
  cases A with
  | none => rfl
  | some m =>
      simp only [pushed, Option.bind_some, Machine.step?_saveId, Machine.env_push]
      cases eval m.env with
      | none => rfl
      | some v => exact Machine.step?_assign m x.text v lexeme

/-- An assignment. -/
theorem carries_assign (x : Program.Name) (e : Program.Expr)
    (h : Carries .tone [.nonterminal "ProgramBody"] ks
      (A.bind fun m => (e.eval m.env).map (m.assign x.text)) B) :
    Carries .tone [.nonterminal "ProgramBody"]
      ((.identifier, x.text) :: mark "=" :: (e.spelling ++ mark ";" :: ks)) A B := by
  have hsave := Carries.fire (g := .tone) (a := .saveId) (t := "ID")
    (k := (.identifier, x.text)) rfl A
  have hexpr := carries_expr e (A.bind fun m => m.step? .saveId x.text)
  have hassign := Carries.action (g := .tone) (pushed_assign A x e.eval)
  have hstart := Carries.nonterminal (g := .tone) (p := ⟨"StartRule", [.terminal "=",
      .nonterminal "Expr", .action .assign, .terminal ";", .nonterminal "ProgramBody"]⟩)
    (by decide) ((Carries.terminal (k := mark "=") rfl _).cons
      (hexpr.cons (hassign.cons ((Carries.terminal (k := mark ";") rfl _).cons h))))
  exact .nonterminal (p := ⟨"ProgramBody", [.action .saveId, .terminal "ID",
    .nonterminal "StartRule"]⟩) (by decide) (hsave.append hstart)

/-! ## Programs -/

/-- The evaluator after a statement. -/
def executed (A : Option Machine) : Program.Statement → Option Machine
  | .assign x e => A.bind fun m => (e.eval m.env).map (m.assign x.text)
  | .value e => pushed A e.eval

theorem carries_statements (cs : List Program.Statement) (e : Program.Expr) (A : Option Machine) :
    Carries .tone [.nonterminal "ProgramBody"]
      (cs.flatMap Program.Statement.spelling ++ e.spelling ++ [mark ";"]) A
      (pushed (cs.foldl executed A) e.eval) := by
  induction cs generalizing A with
  | nil =>
      exact carries_value e
        (.nonterminal (p := ⟨"ProgramRest", [.epsilon]⟩) (by decide) (Carries.epsilon _))
  | cons c cs ih =>
      have hbody := ih (executed A c)
      rw [List.flatMap_cons, List.append_assoc, List.append_assoc, List.foldl_cons]
      rw [List.append_assoc] at hbody
      cases c with
      | assign x e' =>
          have h := carries_assign x e' hbody
          rw [Program.Statement.spelling]
          simpa only [List.append_assoc, List.cons_append, List.nil_append] using h
      | value e' =>
          have h := carries_value e' (.nonterminal
            (p := ⟨"ProgramRest", [.nonterminal "ProgramBody"]⟩) (by decide) hbody)
          rw [Program.Statement.spelling]
          simpa only [List.append_assoc, List.cons_append, List.nil_append] using h

theorem map_env_executed (c : Program.Statement) (A : Option Machine) :
    (executed A c).map Machine.env = (A.map Machine.env).bind fun env => c.run env := by
  cases A with
  | none => cases c <;> rfl
  | some m =>
      cases c with
      | assign x e =>
          simp only [executed, Program.Statement.run, Option.bind_some, Option.map_some,
            Option.map_map]
          congr 1
          funext v
          exact Machine.env_assign m x.text v
      | value e =>
          simp only [executed, pushed, Program.Statement.run, Option.bind_some, Option.map_some,
            Option.map_map]
          rfl

/-- The variables after some statements are those that the language says. -/
theorem map_env_foldl_executed (cs : List Program.Statement) (A : Option Machine) :
    (cs.foldl executed A).map Machine.env =
      (A.map Machine.env).bind fun env => Program.runAll env cs := by
  induction cs generalizing A with
  | nil => simp only [List.foldl_nil, Program.runAll, Option.bind_fun_some]
  | cons c cs ih =>
      simp only [List.foldl_cons, ih, map_env_executed, Program.runAll, Option.bind_assoc]

/-- The last action takes the text of the last value for the result. -/
theorem map_output_printFinalResult (A : Option Machine) (eval : Env → Option Value)
    (lexeme : String) :
    ((pushed A eval).bind fun m => m.step? .printFinalResult lexeme).map Machine.output =
      (((A.map Machine.env).bind eval).bind Program.text?).map some := by
  cases A with
  | none => rfl
  | some m =>
      simp only [pushed, Option.bind_some, Option.map_some]
      rcases eval m.env with _ | ⟨n | s⟩ <;> rfl

/-- The whole of a program is walked along.  At the end the evaluator holds the result, if
there is one, and has failed otherwise. -/
theorem exists_walks_program (p : Program) (hs : s.Ready)
    (ha : s.ahead.map Token.word = p.spelling) (hm : s.machine? = some {}) :
    ∃ s', Walks .tone [.nonterminal Grammar.tone.start] s s' ∧ s'.current = none ∧
      s'.machine?.map Machine.output = p.result.map some := by
  obtain ⟨s₁, hwalk, hs₁, ha₁, hm₁⟩ := carries_statements p.statements p.last (some {})
    (s.enter "Program") [] ((s.samePlace_enter _).ready hs) (by rw [List.append_nil]; exact ha) hm
  have hc₁ : s₁.current = none :=
    State.current_eq_none_of_ahead (List.map_eq_nil_iff.1 ha₁)
  have hplace := State.samePlace_fire s₁ .printFinalResult
  have hc₂ : (s₁.fire .printFinalResult).current = none := hplace.2.trans hc₁
  have hplace' := State.samePlace_expectEnd (s₁.fire .printFinalResult)
  have hbody := hwalk.append (.action .printFinalResult (.endMark hc₂ (.nil _)))
  refine ⟨_, .nonterminal (p := ⟨"Program", [.nonterminal "ProgramBody", .action .printFinalResult,
    .endMark]⟩) (by decide) hbody (.nil _), hplace'.2.trans hc₂, ?_⟩
  have hmachine : ((s₁.fire .printFinalResult).expectEnd.leaveAll 1).machine? =
      (s₁.fire .printFinalResult).machine? := by
    rw [State.expectEnd, hc₂]
    rfl
  rw [hmachine, State.machine?_fire, hm₁, map_output_printFinalResult, map_env_foldl_executed]
  rfl

/-- What is compiled follows from the evaluator at the end. -/
theorem finalResult_eq {r : Option String} (h : s.machine?.map Machine.output = r.map some) :
    (Compilation.ofOutcome s.outcome).finalResult = r ∧
      ((Compilation.ofOutcome s.outcome).diagnostics = [] ↔ r.isSome) := by
  have hfinal : (Compilation.ofOutcome s.outcome).finalResult =
      if s.report.isEmpty then s.machine.output else none := rfl
  have hdiag : (Compilation.ofOutcome s.outcome).diagnostics = s.report.toList := rfl
  rw [hfinal, hdiag]
  by_cases hrep : s.report.toList = []
  · rw [if_pos ((Report.isEmpty_iff _).2 hrep)]
    rw [State.machine?, if_pos hrep, Option.map_some] at h
    obtain ⟨v, rfl, hv⟩ := Option.map_eq_some_iff.1 h.symm
    exact ⟨hv.symm, by simp [hrep]⟩
  · rw [if_neg (fun hempty => hrep ((Report.isEmpty_iff _).1 hempty))]
    rw [State.machine?, if_neg hrep, Option.map_none] at h
    cases Option.map_eq_none_iff.1 h.symm
    exact ⟨rfl, by simp [hrep]⟩

end Parse

/-! ## Compiling -/

/-- Where nothing is reported, every scan is a token. -/
theorem Scan.diagnostic?_eq_none_of_tokenize {source : String}
    (h : (tokenize source).diagnostics = []) :
    (Scan.ofSource source).filterMap Scan.diagnostic? = [] ∧
      ∀ c ∈ Scan.ofSource source, c.isPlain := by
  refine ⟨h, Scan.isPlain_of_mem_ofSource ?_⟩
  intro x n hc
  exact absurd (List.filterMap_eq_nil_iff.1 h _ hc) (by simp [Scan.diagnostic?])

/-- A text without lexical faults whose tokens spell a program is parsed to the end, which finds
the evaluator with the text that the program stands for, or with an action that has failed; and
nothing else is reported. -/
theorem Parse.exists_run_program (p : Program) {source : String}
    (hd : (tokenize source).diagnostics = [])
    (hp : (tokenize source).significant.map (fun k => (k.category, k.text)) = p.spelling) :
    ∃ s : State, run .tone source = some s.outcome ∧
      s.machine?.map Machine.output = p.result.map some ∧
      ∀ d ∈ s.report.toList, d.kind = .logical := by
  obtain ⟨hdiag, hplain⟩ := Scan.diagnostic?_eq_none_of_tokenize hd
  obtain ⟨s, hadv, h⟩ := Parse.State.exists_advance (s := .ofSource source) hplain
  obtain ⟨hs, hm⟩ := h.machine?_eq hdiag
  have hahead : s.ahead.map Token.word = p.spelling := by
    rw [h.ahead_eq]
    exact hp
  obtain ⟨s', hwalk, hc, hout⟩ := Parse.exists_walks_program p hs hahead hm
  have hrun : Parse.run .tone source = some s'.outcome := by
    rw [Parse.run, Table.tone,
      Parse.finalState_of_runs hadv (hwalk.runs_start Grammar.predictive_tone hc)]
    rfl
  have hreport : s.lexicalReport = [] := by
    rw [h.report_eq]
    exact hdiag
  refine ⟨s', hrun, hout, ?_⟩
  intro d hmem
  obtain ⟨_, hall⟩ := hwalk.mem_lexicalReport hs.settled
  rcases hall d (List.mem_append_left _ hmem) with hd | hd
  · rw [hreport] at hd
    exact absurd hd List.not_mem_nil
  · exact hd

/-- Take any program of the language, and any text without lexical faults whose tokens spell
it.  The compiler gives the text that the program stands for, and reports nothing if and only
if there is one.  All that it ever reports of such a text is that an action has failed. -/
theorem compile_eq_result (p : Program) {source : String}
    (hd : (tokenize source).diagnostics = [])
    (hp : (tokenize source).significant.map (fun k => (k.category, k.text)) = p.spelling) :
    ∃ c, compile .tone source = some c ∧ c.finalResult = p.result ∧
      (c.diagnostics = [] ↔ p.result.isSome) ∧ ∀ d ∈ c.diagnostics, d.kind = .logical := by
  obtain ⟨s, hrun, hout, hreport⟩ := Parse.exists_run_program p hd hp
  have hcompile : compile .tone source = some (.ofOutcome s.outcome) := by
    rw [compile, hrun]
    rfl
  obtain ⟨hfinal, hclean⟩ := Parse.finalResult_eq hout
  exact ⟨.ofOutcome s.outcome, hcompile, hfinal, hclean, hreport⟩

namespace Program

/-- A text is repeated as often as a variable says, which is a sum. -/
def refrain : Program where
  statements := [.assign ⟨"n", by decide, by decide, by decide⟩
    (.sum (.product (.number ⟨"1", by decide, by decide⟩) [])
      [.product (.number ⟨"2", by decide, by decide⟩) []])]
  last := .sum (.product (.var ⟨"n", by decide, by decide, by decide⟩)
    [.literal ⟨"oe", by decide⟩]) []

/-- A program that assigns the name that the refrain uses, and leaves a number on the stack. -/
def opening : Program where
  statements := [.assign ⟨"n", by decide, by decide, by decide⟩
      (.sum (.product (.number ⟨"2", by decide, by decide⟩) []) []),
    .value (.sum (.product (.number ⟨"3", by decide, by decide⟩) []) [])]
  last := .sum (.product (.literal ⟨"oa", by decide⟩)
    [.var ⟨"n", by decide, by decide, by decide⟩]) []

/-- The refrain, on two lines. -/
def refrainText : String := "n=1+2;\nn*\"oe\";"

theorem scans_refrainText :
    Scan.ofSource refrainText =
      [.token ⟨.identifier, "n", 1⟩, .token ⟨.symbol, "=", 1⟩, .token ⟨.number, "1", 1⟩,
        .token ⟨.symbol, "+", 1⟩, .token ⟨.number, "2", 1⟩, .token ⟨.symbol, ";", 1⟩,
        .token ⟨.blank, "\n", 1⟩, .token ⟨.identifier, "n", 2⟩, .token ⟨.symbol, "*", 2⟩,
        .token ⟨.literal, "\"oe\"", 2⟩, .token ⟨.symbol, ";", 2⟩] := by
  decide +kernel

end Program

/-- The refrain is compiled. -/
theorem compile_refrain :
    (tokenize Program.refrainText).diagnostics = [] ∧
      (tokenize Program.refrainText).significant.map (fun k => (k.category, k.text)) =
        Program.refrain.spelling ∧
      ∃ c, compile .tone Program.refrainText = some c ∧ c.finalResult = some "oeoeoe" ∧
        c.diagnostics = [] := by
  have hd : (tokenize Program.refrainText).diagnostics = [] := by
    rw [tokenize, Program.scans_refrainText]
    rfl
  have hp : (tokenize Program.refrainText).significant.map (fun k => (k.category, k.text)) =
      Program.refrain.spelling := by
    rw [tokenize, Program.scans_refrainText]
    rfl
  have hr : Program.refrain.result = some "oeoeoe" := by decide +kernel
  obtain ⟨c, hc, hfinal, hclean, _⟩ := compile_eq_result Program.refrain hd hp
  exact ⟨hd, hp, c, hc, hfinal.trans hr, hclean.2 (by rw [hr]; rfl)⟩

end ToneScript
