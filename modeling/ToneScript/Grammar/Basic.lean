import ToneScript.Machine.Action

/-!
# Grammars

A grammar is a list of productions.  Its order is part of it: the first production
names the start symbol, and a parser tries the alternatives of a nonterminal in the
order in which they were declared.  Semantic actions stand among the symbols of a
right-hand side; they match nothing.

## Main definitions

* `Symbol`, `Production` — the parts of a grammar.
* `Grammar` — a non-empty list of productions in which every nonterminal that is
  referred to is declared.
* `Grammar.start`, `Grammar.nonterminals`, `Grammar.terminals` — its vocabulary.
-/

namespace ToneScript

/-- A symbol on the right-hand side of a production. -/
inductive Symbol where
  /-- A token, named by its text or its category. -/
  | terminal (text : String)
  /-- A nonterminal. -/
  | nonterminal (name : String)
  /-- An action to perform. -/
  | action (a : Action)
  /-- The empty sequence. -/
  | epsilon
  /-- The end of the program. -/
  | endMark
deriving DecidableEq, Repr

namespace Symbol

/-- How the empty sequence is written. -/
def epsilonText : String := "EPSILON"

/-- How the end of the program is written. -/
def endText : String := "$"

/-- The written form of a symbol: a slash marks a terminal. -/
instance : ToString Symbol where
  toString
    | terminal t => "/" ++ t
    | nonterminal x => x
    | action a => toString a
    | epsilon => epsilonText
    | endMark => endText

/-- The text of a terminal. -/
def terminal? : Symbol → Option String
  | terminal t => some t
  | _ => none

/-- The name of a nonterminal. -/
def nonterminal? : Symbol → Option String
  | nonterminal x => some x
  | _ => none

@[simp] theorem terminal?_eq_some_iff {s : Symbol} {t : String} :
    s.terminal? = some t ↔ s = terminal t := by
  cases s <;> simp [terminal?]

@[simp] theorem nonterminal?_eq_some_iff {s : Symbol} {x : String} :
    s.nonterminal? = some x ↔ s = nonterminal x := by
  cases s <;> simp [nonterminal?]

end Symbol

/-- A rule that lets a nonterminal stand for a sequence of symbols. -/
structure Production where
  /-- The nonterminal. -/
  lhs : String
  /-- The sequence it may stand for. -/
  rhs : List Symbol
deriving DecidableEq, Repr

namespace Production

/-- The written form of a production. -/
instance : ToString Production where
  toString p := p.rhs.foldl (fun s x => s ++ " " ++ toString x) (p.lhs ++ " ->")

/-- The nonterminals on the right-hand side, in order. -/
def references (p : Production) : List String := p.rhs.filterMap Symbol.nonterminal?

theorem mem_references {p : Production} {x : String} :
    x ∈ p.references ↔ Symbol.nonterminal x ∈ p.rhs := by
  simp [references]

end Production

/-- The productions refer to no nonterminal without a production. -/
def Closed (ps : List Production) : Prop :=
  ∀ p ∈ ps, ∀ x ∈ p.references, x ∈ ps.map Production.lhs

instance (ps : List Production) : Decidable (Closed ps) :=
  inferInstanceAs (Decidable (∀ p ∈ ps, ∀ x ∈ p.references, x ∈ ps.map Production.lhs))

/-- A list of productions that can be read on its own: there is a first one, and no
reference leads outside. -/
structure Grammar where
  /-- The productions, in the order of their declaration. -/
  productions : List Production
  /-- There is a start symbol. -/
  productions_ne_nil : productions ≠ []
  /-- Every nonterminal that occurs has a production. -/
  closed : Closed productions
deriving DecidableEq, Repr

namespace Grammar

variable {g : Grammar}

/-- The start symbol: what the first production is about. -/
def start (g : Grammar) : String := (g.productions.head g.productions_ne_nil).lhs

/-- The nonterminals, in the order of their first production. -/
def nonterminals (g : Grammar) : List String := (g.productions.map Production.lhs).eraseDups

/-- The distinct terminals on the right-hand sides. -/
def terminals (g : Grammar) : List String :=
  (g.productions.flatMap fun p => p.rhs.filterMap Symbol.terminal?).eraseDups

/-- The productions of a nonterminal, in order. -/
def alternatives (g : Grammar) (x : String) : List Production :=
  g.productions.filter (·.lhs == x)

theorem mem_nonterminals {x : String} :
    x ∈ g.nonterminals ↔ ∃ p ∈ g.productions, p.lhs = x := by
  simp [nonterminals]

theorem mem_alternatives {x : String} {p : Production} :
    p ∈ g.alternatives x ↔ p ∈ g.productions ∧ p.lhs = x := by
  simp [alternatives]

theorem start_mem_nonterminals (g : Grammar) : g.start ∈ g.nonterminals :=
  mem_nonterminals.2 ⟨_, List.head_mem _, rfl⟩

/-- A nonterminal on a right-hand side is declared. -/
theorem mem_nonterminals_of_mem_rhs {p : Production} {x : String} (hp : p ∈ g.productions)
    (hx : Symbol.nonterminal x ∈ p.rhs) : x ∈ g.nonterminals := by
  have h := g.closed p hp x (Production.mem_references.2 hx)
  rw [List.mem_map] at h
  exact mem_nonterminals.2 h

end Grammar

end ToneScript
