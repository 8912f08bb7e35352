import ToneScript.Proofs.Parse.Account
import ToneScript.Proofs.Program.Compilation
import ToneScript.Proofs.Program.Reading
import ToneScript.Proofs.Token.Seam

/-!
# A program behind another one

Two texts that are compiled without fault are put one behind the other, with a line end in
between.  Together they spell a program again: the last expression of the first becomes a
statement like those before it.  The second program comes upon the variables of the first, but as
it does without them, it assigns every variable before it looks it up, and so it goes on as it
would by itself.

## Main definitions

* `Program.Extends` — all variables of a store have the same values in another one.
* `Program.append` — a program behind another one.

## Main statements

* `Program.Extends.runAll` — with further variables statements do what they did.
* `Program.result_append` — the result of a program behind another one.
* `exists_program_of_isSuccess` — what is compiled without fault spells a program.
* `compile_append` — two texts that are compiled without fault, one behind the other.
-/

namespace ToneScript

namespace Program

variable {env env' : Env} {v : Value}

/-! ## Further variables -/

/-- All variables that have been assigned in the first store have the same values in the
second. -/
def Extends (env env' : Env) : Prop := ∀ x v, env x = some v → env' x = some v

theorem extends_none (env : Env) : Extends (fun _ => none) env := fun _ _ h => nomatch h

theorem Extends.update (h : Extends env env') (x : String) (v : Value) :
    Extends (Function.update env x (some v)) (Function.update env' x (some v)) := by
  intro y w hy
  by_cases hyx : y = x
  · subst hyx
    rwa [Function.update_self] at hy ⊢
  · rw [Function.update_of_ne hyx] at hy ⊢
    exact h y w hy

mutual

theorem Factor.eval_of_extends (h : Extends env env') :
    ∀ (f : Factor) {v : Value}, f.eval env = some v → f.eval env' = some v
  | .literal s, v, hv => by rwa [Factor.eval] at hv ⊢
  | .number d, v, hv => by rwa [Factor.eval] at hv ⊢
  | .var x, v, hv => by
      rw [Factor.eval] at hv ⊢
      exact h _ _ hv
  | .group e, v, hv => by
      rw [Factor.eval] at hv ⊢
      exact Expr.eval_of_extends h e hv

theorem Term.eval_of_extends (h : Extends env env') :
    ∀ (t : Term) {v : Value}, t.eval env = some v → t.eval env' = some v
  | .product f fs, v, hv => by
      rw [Term.eval, Option.bind_eq_some_iff] at hv ⊢
      obtain ⟨u, hu, hv⟩ := hv
      exact ⟨u, Factor.eval_of_extends h f hu, Term.evalRest_of_extends h fs hv⟩

theorem Term.evalRest_of_extends (h : Extends env env') :
    ∀ (fs : List Factor) {u v : Value},
      Term.evalRest env fs u = some v → Term.evalRest env' fs u = some v
  | [], u, v, hv => by rwa [Term.evalRest] at hv ⊢
  | f :: fs, u, v, hv => by
      simp only [Term.evalRest, Option.bind_eq_some_iff] at hv ⊢
      obtain ⟨w, ⟨a, ha, hw⟩, hv⟩ := hv
      exact ⟨w, ⟨a, Factor.eval_of_extends h f ha, hw⟩, Term.evalRest_of_extends h fs hv⟩

theorem Expr.eval_of_extends (h : Extends env env') :
    ∀ (e : Expr) {v : Value}, e.eval env = some v → e.eval env' = some v
  | .sum t ts, v, hv => by
      rw [Expr.eval, Option.bind_eq_some_iff] at hv ⊢
      obtain ⟨u, hu, hv⟩ := hv
      exact ⟨u, Term.eval_of_extends h t hu, Expr.evalRest_of_extends h ts hv⟩

theorem Expr.evalRest_of_extends (h : Extends env env') :
    ∀ (ts : List Term) {u v : Value},
      Expr.evalRest env ts u = some v → Expr.evalRest env' ts u = some v
  | [], u, v, hv => by rwa [Expr.evalRest] at hv ⊢
  | t :: ts, u, v, hv => by
      simp only [Expr.evalRest, Option.bind_eq_some_iff] at hv ⊢
      obtain ⟨w, ⟨a, ha, hw⟩, hv⟩ := hv
      exact ⟨w, ⟨a, Term.eval_of_extends h t ha, hw⟩, Expr.evalRest_of_extends h ts hv⟩

end

/-- A statement that has a value has the same with further variables, and leaves these behind. -/
theorem Extends.run (h : Extends env env') {c : Statement} {env₁ : Env}
    (hc : c.run env = some env₁) : ∃ env₂, c.run env' = some env₂ ∧ Extends env₁ env₂ := by
  cases c with
  | assign x e =>
      obtain ⟨v, hv, rfl⟩ := Option.map_eq_some_iff.1 hc
      exact ⟨_, by rw [Statement.run, Expr.eval_of_extends h e hv]; rfl, h.update x.text v⟩
  | value e =>
      obtain ⟨v, hv, rfl⟩ := Option.map_eq_some_iff.1 hc
      exact ⟨env', by rw [Statement.run, Expr.eval_of_extends h e hv]; rfl, h⟩

/-- So do any statements. -/
theorem Extends.runAll (h : Extends env env') {cs : List Statement} {env₁ : Env}
    (hcs : runAll env cs = some env₁) :
    ∃ env₂, Program.runAll env' cs = some env₂ ∧ Extends env₁ env₂ := by
  induction cs generalizing env env' with
  | nil =>
      cases hcs
      exact ⟨env', rfl, h⟩
  | cons c cs ih =>
      obtain ⟨m, hm, hcs⟩ := Option.bind_eq_some_iff.1 hcs
      obtain ⟨m', hm', hext⟩ := h.run hm
      obtain ⟨env₂, henv₂, hext'⟩ := ih hext hcs
      exact ⟨env₂, by rw [Program.runAll, hm']; exact henv₂, hext'⟩

/-! ## One program behind another -/

/-- A program behind another one, whose last expression becomes a statement. -/
def append (p q : Program) : Program :=
  ⟨p.statements ++ .value p.last :: q.statements, q.last⟩

theorem spelling_append (p q : Program) : (p.append q).spelling = p.spelling ++ q.spelling := by
  simp [append, spelling, Statement.spelling]

theorem runAll_append (env : Env) (cs ds : List Statement) :
    runAll env (cs ++ ds) = (runAll env cs).bind fun env => runAll env ds := by
  induction cs generalizing env with
  | nil => rfl
  | cons c cs ih =>
      rw [List.cons_append, runAll, runAll, Option.bind_assoc]
      exact congrArg _ (funext ih)

/-- Behind a program with a result, a program with a result keeps it. -/
theorem result_append {p q : Program} {a b : String} (hp : p.result = some a)
    (hq : q.result = some b) : (p.append q).result = some b := by
  obtain ⟨w, hw, hb⟩ := Option.bind_eq_some_iff.1 hq
  obtain ⟨env₂, hqs, hqlast⟩ := Option.bind_eq_some_iff.1 hw
  obtain ⟨v, hv, _⟩ := Option.bind_eq_some_iff.1 hp
  obtain ⟨env₁, hps, hplast⟩ := Option.bind_eq_some_iff.1 hv
  obtain ⟨env₃, hstatements, hext⟩ := (extends_none env₁).runAll hqs
  have hvalue : (Statement.value p.last).run env₁ = some env₁ := by
    rw [Statement.run, hplast]
    rfl
  have hall : runAll (fun _ => none) (p.append q).statements = some env₃ := by
    rw [append, runAll_append, hps, Option.bind_some, runAll, hvalue]
    exact hstatements
  rw [result, hall]
  exact (congrArg (Option.bind · text?) (Expr.eval_of_extends hext q.last hqlast)).trans hb

end Program

/-! ## What is compiled without fault -/

variable {source : String} {p q : String} {c c' : Compilation}

/-- A text that spells a program with a result is compiled to it. -/
theorem exists_compile_of_result (P : Program) {x : String}
    (hd : (tokenize source).diagnostics = [])
    (hp : (tokenize source).significant.map Token.word = P.spelling) (hr : P.result = some x) :
    ∃ c, compile .tone source = some c ∧ c.isSuccess ∧ c.finalResult = some x := by
  obtain ⟨s, hrun, hout, _⟩ := Parse.exists_run_program P hd hp
  obtain ⟨hfinal, hclean⟩ := Parse.finalResult_eq hout
  rw [hr] at hfinal hclean
  refine ⟨.ofOutcome s.outcome, by rw [compile, hrun, Option.map_some], ?_, hfinal⟩
  rw [Compilation.isSuccess, Bool.and_eq_true, List.isEmpty_iff, hfinal]
  exact ⟨hclean.2 rfl, rfl⟩

/-- A text that is compiled without fault spells a program, which has the result that comes of
it. -/
theorem exists_program_of_isSuccess (h : compile .tone source = some c) (hc : c.isSuccess) :
    (tokenize source).diagnostics = [] ∧ ∃ P : Program,
      (tokenize source).significant.map Token.word = P.spelling ∧
        ∃ x, P.result = some x ∧ c.finalResult = some x := by
  obtain ⟨o, hrun, rfl⟩ := Option.map_eq_some_iff.1 h
  rw [Compilation.isSuccess, Bool.and_eq_true, List.isEmpty_iff, Option.isSome_iff_exists] at hc
  obtain ⟨hreport, x, hx⟩ := hc
  replace hreport : o.report.toList = [] := hreport
  have hd : (tokenize source).diagnostics = [] := by
    obtain ⟨E, hist⟩ := Parse.exists_history hrun
    obtain ⟨_, _, _, _, hlexical⟩ :=
      hist.parts_tokens Grammar.closing_tone (by decide) (by decide)
    rw [← hlexical, hreport, List.filter_nil]
  obtain ⟨P, hP⟩ : ∃ P : Program, P.spelling = (tokenize source).significant.map Token.word := by
    obtain ⟨_, hplain⟩ := Scan.diagnostic?_eq_none_of_tokenize hd
    obtain ⟨s, ha, hadv⟩ := Parse.State.exists_advance (s := .ofSource source) hplain
    obtain ⟨s', hfinal, rfl⟩ := Option.map_eq_some_iff.1 hrun
    have hfaultless : s'.Faultless := by
      intro d hmem
      have hnone : s'.report.toList = [] := hreport
      rw [hnone] at hmem
      cases hmem
    have hderives : Grammar.tone.Derives [.nonterminal "Program"] (Parse.word s.ahead) := by
      rcases Parse.runs_of_finalState hfinal with hhalt | ⟨s₁, flow, ha₁, hruns⟩
      · rw [ha] at hhalt
        cases hhalt
      · rw [ha] at ha₁
        cases ha₁
        exact Parse.derives_of_runs Grammar.anchored_tone hadv.settled hruns hfaultless
    have hahead : s.ahead = (tokenize source).significant := hadv.ahead_eq
    refine Program.exists_spelling_of_derives ?_ ?_
    · intro word hword
      obtain ⟨k, hk, rfl⟩ := List.mem_map.1 hword
      obtain ⟨found, hfound, htoken⟩ := List.mem_filterMap.1 (List.mem_filter.1 hk).1
      cases found <;> cases htoken
      exact Program.isLexeme_word (Token.WellFormed.of_mem_ofSource hfound)
    · rw [Parse.word, hahead] at hderives
      rw [List.map_map]
      exact hderives
  obtain ⟨s, hrun', hout, _⟩ := Parse.exists_run_program P hd hP.symm
  rw [hrun] at hrun'
  cases hrun'
  have hfinal := (Parse.finalResult_eq hout).1
  exact ⟨hd, P, hP.symm, x, hfinal.symm.trans hx, hx⟩

/-! ## Two texts -/

/-- The tokens of both texts are those of the one and those of the other. -/
theorem map_word_significant_append (hcut : ¬ Scan.IsCut (Scan.ofSource p)) (q : String) :
    (tokenize (p ++ "\n" ++ q)).significant.map Token.word =
      (tokenize p).significant.map Token.word ++ (tokenize q).significant.map Token.word := by
  have hword (source : String) : (tokenize source).significant.map Token.word = _ :=
    map_significant_eq source
  rw [hword, hword, hword]
  exact Scan.filterMap_ofSource_append (fun _ => Scan.word?_of_isTrivia)
    (fun c _ => c.word?_reline _) hcut q

/-- Where each text has no lexical fault, there is none in both together. -/
theorem diagnostics_append (hp : (tokenize p).diagnostics = [])
    (hq : (tokenize q).diagnostics = []) : (tokenize (p ++ "\n" ++ q)).diagnostics = [] := by
  have hmessages := Scan.filterMap_ofSource_append (fun _ => Scan.message?_of_isTrivia)
    (fun c _ => c.message?_reline _) (Scan.not_isCut_of_tokenize hp) q
  rw [← map_message_diagnostics_eq, ← map_message_diagnostics_eq, ← map_message_diagnostics_eq,
    hp, hq] at hmessages
  exact List.map_eq_nil_iff.1 hmessages

/-- Of two texts that are compiled without fault, one put behind the other on a line of its own,
the second gives the result: no statement of the first, no variable that it has assigned, and
nothing that it has left on the stack is in its way. -/
theorem compile_append (hp : compile .tone p = some c) (hc : c.isSuccess)
    (hq : compile .tone q = some c') (hc' : c'.isSuccess) :
    ∃ d, compile .tone (p ++ "\n" ++ q) = some d ∧ d.isSuccess ∧
      d.finalResult = c'.finalResult := by
  obtain ⟨hpd, P, hP, x, hPr, _⟩ := exists_program_of_isSuccess hp hc
  obtain ⟨hqd, Q, hQ, y, hQr, hy⟩ := exists_program_of_isSuccess hq hc'
  have hspelling : (tokenize (p ++ "\n" ++ q)).significant.map Token.word =
      (P.append Q).spelling := by
    rw [map_word_significant_append (Scan.not_isCut_of_tokenize hpd), hP, hQ,
      Program.spelling_append]
  rw [hy]
  exact exists_compile_of_result (P.append Q) (diagnostics_append hpd hqd) hspelling
    (Program.result_append hPr hQr)

/-- The refrain behind a program that ends in a comment. -/
theorem compile_append_refrain :
    ∃ c c' d, compile .tone "n = 2; 3; \"oa\" * n; // opening" = some c ∧ c.isSuccess ∧
      compile .tone Program.refrainText = some c' ∧ c'.isSuccess ∧
      compile .tone ("n = 2; 3; \"oa\" * n; // opening" ++ "\n" ++ Program.refrainText) = some d ∧
      c.finalResult = some "oaoa" ∧ d.isSuccess ∧ d.finalResult = some "oeoeoe" := by
  have hopening : (tokenize "n = 2; 3; \"oa\" * n; // opening").significant.map Token.word =
      Program.opening.spelling := by
    decide +kernel
  have hrefrain : (tokenize Program.refrainText).significant.map Token.word =
      Program.refrain.spelling := by
    decide +kernel
  obtain ⟨c, hp, hc, hx⟩ := exists_compile_of_result Program.opening (x := "oaoa")
    (by decide +kernel) hopening (by decide +kernel)
  obtain ⟨c', hq, hc', hy⟩ := exists_compile_of_result Program.refrain (x := "oeoeoe")
    (by decide +kernel) hrefrain (by decide +kernel)
  obtain ⟨d, hd, hsuccess, hresult⟩ := compile_append hp hc hq hc'
  exact ⟨c, c', d, hp, hc, hq, hc', hd, hx, hsuccess, hresult.trans hy⟩

end ToneScript
