import ToneScript.Grammar.Basic

/-!
# The tone grammar

The grammar of tone programs.  A program is a sequence of statements, each an
assignment or an expression, and the last one is an expression, whose text is the
result.  A statement that begins with an identifier may be either, so the name is
saved first; whether it is assigned or looked up is decided by the token behind it.

## Main definitions

* `Grammar.tone` — the grammar.
-/

namespace ToneScript.Grammar

/-- The productions of the tone grammar. -/
def toneProductions : List Production :=
  let n := Symbol.nonterminal
  let t := Symbol.terminal
  let a := Symbol.action
  [⟨"Program", [n "ProgramBody", a .printFinalResult, .endMark]⟩,
   -- statements
   ⟨"ProgramBody", [a .saveId, t "ID", n "StartRule"]⟩,
   ⟨"ProgramBody", [n "FactorNoId", n "TermPrime", n "ExprPrime", t ";", n "ProgramRest"]⟩,
   ⟨"StartRule", [t "=", n "Expr", a .assign, t ";", n "ProgramBody"]⟩,
   ⟨"StartRule", [a .lookupSavedId, n "TermPrime", n "ExprPrime", t ";", n "ProgramRest"]⟩,
   ⟨"ProgramRest", [n "ProgramBody"]⟩,
   ⟨"ProgramRest", [.epsilon]⟩,
   -- the first factor of a statement, where an identifier is no factor
   ⟨"FactorNoId", [a .pushNumber, t "NUMBER"]⟩,
   ⟨"FactorNoId", [a .pushString, t "STATIC_STRING"]⟩,
   ⟨"FactorNoId", [t "(", n "Expr", t ")"]⟩,
   -- expressions
   ⟨"Expr", [n "Term", n "ExprPrime"]⟩,
   ⟨"ExprPrime", [t "+", n "Term", a .add, n "ExprPrime"]⟩,
   ⟨"ExprPrime", [.epsilon]⟩,
   ⟨"Term", [n "Factor", n "TermPrime"]⟩,
   ⟨"TermPrime", [t "*", n "Factor", a .multiply, n "TermPrime"]⟩,
   ⟨"TermPrime", [.epsilon]⟩,
   ⟨"Factor", [a .pushString, t "STATIC_STRING"]⟩,
   ⟨"Factor", [a .pushNumber, t "NUMBER"]⟩,
   ⟨"Factor", [a .lookupAndPushValue, t "ID"]⟩,
   ⟨"Factor", [t "(", n "Expr", t ")"]⟩]

/-- The grammar of tone programs. -/
def tone : Grammar := ⟨toneProductions, by decide, by decide⟩

@[simp] theorem productions_tone : tone.productions = toneProductions := rfl

@[simp] theorem start_tone : tone.start = "Program" := rfl

end ToneScript.Grammar
