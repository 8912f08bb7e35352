import ToneScript.Proofs.Program.Carries
import ToneScript.Grammar.Tone

/-!
# Expressions are evaluated on the stack

Along the symbols of an expression a walk pushes the value of the expression.  The grammar
knows sums and products only from the right: what comes behind the first term is a sequence
of its own, and so is what comes behind the first factor.  Along such a rest, a walk
replaces the value on top of the stack by what it amounts to together with the rest; that is
why sums and products are taken from the left.

## Main definitions

* `Parse.pushed` — the evaluator with one more value.

## Main statements

* `Parse.carries_factor`, `Parse.carries_term`, `Parse.carries_expr` — a value is pushed.
* `Parse.carries_operand` — the value on top is replaced, by way of one more operand.
* `Parse.carries_factors`, `Parse.carries_terms` — the same for a whole rest.
-/

namespace ToneScript.Parse

open Program (mark Env)

variable {ks : List Program.Word} {A B : Option Machine} {eval : Env → Option Value}

/-- The evaluator with one more value, which is computed from the variables. -/
def pushed (A : Option Machine) (eval : Env → Option Value) : Option Machine :=
  A.bind fun m => (eval m.env).map m.pushValue

/-! ## Actions on pushed values -/

theorem pushed_pushString (A : Option Machine) (s : Program.Tones) :
    (A.bind fun m => m.step? .pushString ("\"" ++ s.text ++ "\"")) =
      pushed A (Program.Factor.literal s).eval := by
  simp only [Machine.step?_pushString]
  rfl

theorem pushed_pushNumber (A : Option Machine) (d : Program.Digits) :
    (A.bind fun m => m.step? .pushNumber d.text) = pushed A (Program.Factor.number d).eval := by
  simp only [Machine.step?_pushNumber]
  rfl

theorem pushed_lookupAndPushValue (A : Option Machine) (x : Program.Name) :
    (A.bind fun m => m.step? .lookupAndPushValue x.text) =
      pushed A (Program.Factor.var x).eval := by
  simp only [Machine.step?_lookupAndPushValue]
  rfl

/-- Two values are replaced by one. -/
theorem pushed_step? {a : Action} {f : Value → Value → Option Value}
    (ha : ∀ m v w lexeme, ((Machine.pushValue m v).pushValue w).step? a lexeme =
      (f v w).map m.pushValue) (A : Option Machine) (eval eval' : Env → Option Value)
    (lexeme : String) :
    ((pushed (pushed A eval) eval').bind fun m => m.step? a lexeme) =
      pushed A fun env => (eval env).bind fun v => (eval' env).bind (f v) := by
  cases A with
  | none => rfl
  | some m =>
      simp only [pushed, Option.bind_some]
      cases eval m.env with
      | none => rfl
      | some v =>
          simp only [Option.map_some, Option.bind_some, Machine.env_pushValue]
          cases eval' m.env with
          | none => rfl
          | some w => exact ha m v w lexeme

/-! ## Factors

There are two nonterminals for factors; the one for the beginning of a statement knows no
variables. -/

theorem carries_literal {x : String}
    (hp : ⟨x, [.action .pushString, .terminal "STATIC_STRING"]⟩ ∈ Grammar.tone.productions)
    (s : Program.Tones) (A : Option Machine) :
    Carries .tone [.nonterminal x] (Program.Factor.literal s).spelling A
      (pushed A (Program.Factor.literal s).eval) :=
  .nonterminal hp ((Carries.fire rfl A).of_eq (pushed_pushString A s))

theorem carries_number {x : String}
    (hp : ⟨x, [.action .pushNumber, .terminal "NUMBER"]⟩ ∈ Grammar.tone.productions)
    (d : Program.Digits) (A : Option Machine) :
    Carries .tone [.nonterminal x] (Program.Factor.number d).spelling A
      (pushed A (Program.Factor.number d).eval) :=
  .nonterminal hp ((Carries.fire rfl A).of_eq (pushed_pushNumber A d))

theorem carries_group {x : String} {e : Program.Expr}
    (hp : ⟨x, [.terminal "(", .nonterminal "Expr", .terminal ")"]⟩ ∈ Grammar.tone.productions)
    (he : ∀ A, Carries .tone [.nonterminal "Expr"] e.spelling A (pushed A e.eval))
    (A : Option Machine) :
    Carries .tone [.nonterminal x] (Program.Factor.group e).spelling A
      (pushed A (Program.Factor.group e).eval) := by
  have hopen := Carries.terminal (g := .tone) (t := "(") (k := mark "(") rfl A
  have hclose := Carries.terminal (g := .tone) (t := ")") (k := mark ")") rfl (pushed A e.eval)
  exact .nonterminal hp (hopen.cons ((he A).cons hclose))

/-! ## Operands

The rests of a sum and of a product are spelled alike: an operator, an operand, the action of
the operator, and the rest of the rest.  Nothing is left, or one more operand is there. -/

theorem carries_noOperand {rest : String} (hp : ⟨rest, [.epsilon]⟩ ∈ Grammar.tone.productions)
    (A : Option Machine) (eval : Env → Option Value) :
    Carries .tone [.nonterminal rest] [] (pushed A eval)
      (pushed A fun env => (eval env).bind some) := by
  simp only [Option.bind_fun_some]
  exact .nonterminal hp (Carries.epsilon _)

theorem carries_operand {t x rest : String} {a : Action} {js : List Program.Word}
    {f : Value → Value → Option Value} {operand : Env → Option Value}
    {evalRest : Env → Value → Option Value}
    (hp : ⟨rest, [.terminal t, .nonterminal x, .action a, .nonterminal rest]⟩ ∈
      Grammar.tone.productions)
    (ht : Program.terminal (mark t) = t)
    (ha : ∀ m v w lexeme, ((Machine.pushValue m v).pushValue w).step? a lexeme =
      (f v w).map m.pushValue)
    (hx : ∀ A, Carries .tone [.nonterminal x] js A (pushed A operand))
    (hrest : ∀ eval, Carries .tone [.nonterminal rest] ks (pushed A eval)
      (pushed A fun env => (eval env).bind (evalRest env)))
    (eval : Env → Option Value) :
    Carries .tone [.nonterminal rest] (mark t :: (js ++ ks)) (pushed A eval)
      (pushed A fun env => (eval env).bind fun v =>
        ((operand env).bind (f v)).bind (evalRest env)) := by
  have hmark := Carries.terminal (g := .tone) ht (pushed A eval)
  have hop := Carries.action (g := .tone) (pushed_step? ha A eval operand)
  have hbehind := hrest fun env => (eval env).bind fun v => (operand env).bind (f v)
  simp only [Option.bind_assoc] at hbehind ⊢
  exact .nonterminal hp (hmark.cons ((hx (pushed A eval)).cons (hop.cons hbehind)))

/-! ## Symbol by symbol -/

mutual

theorem carries_factor : ∀ (f : Program.Factor) (A : Option Machine),
    Carries .tone [.nonterminal "Factor"] f.spelling A (pushed A f.eval)
  | .literal s, A => carries_literal (by decide) s A
  | .number d, A => carries_number (by decide) d A
  | .var x, A =>
      .nonterminal (p := ⟨"Factor", [.action .lookupAndPushValue, .terminal "ID"]⟩) (by decide)
        ((Carries.fire rfl A).of_eq (pushed_lookupAndPushValue A x))
  | .group e, A => carries_group (by decide) (carries_expr e) A

theorem carries_term : ∀ (t : Program.Term) (A : Option Machine),
    Carries .tone [.nonterminal "Term"] t.spelling A (pushed A t.eval)
  | .product f fs, A =>
      .nonterminal (p := ⟨"Term", [.nonterminal "Factor", .nonterminal "TermPrime"]⟩) (by decide)
        ((carries_factor f A).cons (carries_factors fs A f.eval))

theorem carries_factors : ∀ (fs : List Program.Factor) (A : Option Machine)
    (eval : Env → Option Value),
    Carries .tone [.nonterminal "TermPrime"] (Program.Term.spellingRest fs) (pushed A eval)
      (pushed A fun env => (eval env).bind (Program.Term.evalRest env fs))
  | [], A, eval => carries_noOperand (by decide) A eval
  | f :: fs, A, eval =>
      carries_operand (by decide) rfl Machine.step?_multiply (carries_factor f)
        (carries_factors fs A) eval

theorem carries_expr : ∀ (e : Program.Expr) (A : Option Machine),
    Carries .tone [.nonterminal "Expr"] e.spelling A (pushed A e.eval)
  | .sum t ts, A =>
      .nonterminal (p := ⟨"Expr", [.nonterminal "Term", .nonterminal "ExprPrime"]⟩) (by decide)
        ((carries_term t A).cons (carries_terms ts A t.eval))

theorem carries_terms : ∀ (ts : List Program.Term) (A : Option Machine)
    (eval : Env → Option Value),
    Carries .tone [.nonterminal "ExprPrime"] (Program.Expr.spellingRest ts) (pushed A eval)
      (pushed A fun env => (eval env).bind (Program.Expr.evalRest env ts))
  | [], A, eval => carries_noOperand (by decide) A eval
  | t :: ts, A, eval =>
      carries_operand (by decide) rfl Machine.step?_add (carries_term t) (carries_terms ts A) eval

end

end ToneScript.Parse
