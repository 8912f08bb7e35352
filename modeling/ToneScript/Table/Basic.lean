import ToneScript.Lookahead.Analysis

/-!
# Parse tables

A parse table holds, for every nonterminal, its alternatives with what the parser has
to see to choose them, and each alternative as a list of steps.  Nonterminals are
numbered in the order of their declaration.

A grammar is fit for this kind of parser only if no two alternatives of a nonterminal
can be chosen on the same look-ahead.

## Main definitions

* `Step`, `Alternative`, `Entry`, `Table` — the table and its parts.
* `Table.compute` — the table of a grammar.
* `Table.Conflict`, `Table.conflict?` — two alternatives with a look-ahead in common.
* `Table.build` — the table, or the first conflict in it.
-/

namespace ToneScript

/-- What a parser does for one symbol of a right-hand side. -/
inductive Step where
  /-- Match a token of this terminal. -/
  | consume (terminal : String)
  /-- Match the end of the program. -/
  | expectEnd
  /-- Derive the nonterminal of this number. -/
  | expand (id : Nat)
  /-- Derive the empty sequence. -/
  | empty
  /-- Perform an action. -/
  | fire (a : Action)
deriving DecidableEq, Repr

/-- One way to derive a nonterminal. -/
structure Alternative where
  /-- The production it stems from. -/
  production : Production
  /-- What the parser has to see. -/
  predict : LookaheadSet
  /-- What the parser does, symbol by symbol. -/
  steps : List Step
deriving DecidableEq, Repr

/-- All about one nonterminal. -/
structure Entry where
  /-- Its name. -/
  name : String
  /-- What it can begin with. -/
  first : LookaheadSet
  /-- What can stand behind it. -/
  follow : LookaheadSet
  /-- The ways to derive it, in the order in which they are tried. -/
  alternatives : List Alternative
deriving DecidableEq, Repr

/-- A parse table. -/
structure Table where
  /-- The nonterminals by number. -/
  entries : Array Entry
  /-- The number of the start symbol. -/
  start : Nat
deriving DecidableEq, Repr

/-- The alternative that is chosen on a look-ahead: the first that allows it. -/
def Entry.select? (e : Entry) (l : Lookahead) : Option Alternative :=
  e.alternatives.find? fun a => l ∈ a.predict

namespace Table

/-- The nonterminal of a given name. -/
def find? (t : Table) (x : String) : Option Entry := t.entries.find? (·.name == x)

/-- The step for a symbol, where the names are numbered by their positions. -/
def step (names : List String) : Symbol → Step
  | .terminal t => .consume t
  | .endMark => .expectEnd
  | .nonterminal x => .expand (names.idxOf x)
  | .epsilon => .empty
  | .action a => .fire a

/-- The table of a grammar, whether or not it has conflicts. -/
def compute (g : Grammar) : Table :=
  let names := g.nonterminals
  let first := g.firstSets
  let follow := g.followSets first
  let alternative (p : Production) : Alternative :=
    ⟨p, ToneScript.predict first follow p, p.rhs.map (step names)⟩
  let entry (x : String) : Entry :=
    ⟨x, first.getD x, follow.getD x, (g.alternatives x).map alternative⟩
  ⟨(names.map entry).toArray, names.idxOf g.start⟩

/-- Two alternatives of a nonterminal that are chosen on the same look-ahead. -/
structure Conflict where
  /-- The nonterminal. -/
  nonterminal : String
  /-- The least look-ahead they share. -/
  lookahead : Lookahead
  /-- The position of the one. -/
  first : Nat
  /-- The position of the other. -/
  second : Nat
deriving DecidableEq, Repr

/-- The wording of a conflict. -/
def Conflict.message (c : Conflict) : String :=
  c.nonterminal ++ ": alternatives " ++ toString c.first ++ " and " ++ toString c.second ++
    " both predict " ++ toString c.lookahead

end Table

/-- The first conflict between alternatives of one nonterminal, by the position of the
one and then of the other. -/
def Entry.conflict? (e : Entry) : Option Table.Conflict :=
  e.alternatives.zipIdx.findSome? fun (a, i) =>
    (e.alternatives.zipIdx.drop (i + 1)).findSome? fun (b, j) =>
      (a.predict ∩ b.predict).toList.head?.map fun l => ⟨e.name, l, i, j⟩

namespace Table

/-- The first conflict in a table. -/
def conflict? (t : Table) : Option Conflict := t.entries.toList.findSome? Entry.conflict?

/-- The table of a grammar without conflicts. -/
def build (g : Grammar) : Except Conflict Table :=
  match (compute g).conflict? with
  | some c => .error c
  | none => .ok (compute g)

/-! ## Listing -/

/-- One line for an alternative. -/
def listAlternative (a : Alternative) : String :=
  "  PREDICT: \x7b" ++ toString a.predict ++ "\x7d  " ++ toString a.production ++ "\n"

/-- The lines for a nonterminal. -/
def listEntry (e : Entry) : String :=
  e.name ++ "\n" ++
  "  FIRST:   " ++ toString e.first ++ "\n" ++
  "  FOLLOW:  " ++ toString e.follow ++ "\n" ++
  String.join (e.alternatives.map listAlternative)

/-- A table is listed nonterminal by nonterminal. -/
instance : ToString Table where
  toString t := String.join (t.entries.toList.map listEntry)

end Table

end ToneScript
