import ToneScript.Parse.State

/-!
# Predictive descent

A nonterminal is derived by selecting an alternative and going through its steps.  The
last step of an alternative is very often a nonterminal again: that is how statements
and operands are strung together.  Such a nonterminal is derived in the same loop, in
place of a nested call, and the nodes that were entered on the way are left together at
the end.

Recovery never goes back, but it need not go forward either, and a grammar may send the
parser round in circles: when a nonterminal comes up again inside itself at the same
place of the program, it will do so forever.  The answer is then `none`.  The depth of a
derivation that comes to an end is bounded by the number of nonterminals times the number
of places, so a search to that depth decides the matter.

## Main definitions

* `Parse.derive` — the steps of an alternative.
* `Parse.expand` — a nonterminal.
* `Parse.run` — a whole program.
-/

namespace ToneScript.Parse

/-- How the steps of an alternative come to an end. -/
inductive Derived where
  /-- All of them are done, or the parse is over. -/
  | done (flow : Flow)
  /-- All but the last one are done, and that is to derive this nonterminal. -/
  | tail (id : Nat)
deriving DecidableEq, Repr

/-- Takes one step; nonterminals are derived by `expand`. -/
def takeStep (expand : Nat → State → Option (Flow × State)) (x : Step) (s : State) :
    Option (Flow × State) :=
  match x with
  | .consume t => some (s.consume t)
  | .expectEnd => some (.proceed, s.expectEnd)
  | .empty => some (.proceed, s.deriveEmpty)
  | .fire a => some (.proceed, s.fire a)
  | .expand id => expand id s

/-- Goes through the steps of an alternative and stops before a nonterminal that is the
last of them. -/
def derive (expand : Nat → State → Option (Flow × State)) :
    List Step → State → Option (Derived × State)
  | [], s => some (.done .proceed, s)
  | [.expand id], s => some (.tail id, s)
  | x :: rest, s =>
    match takeStep expand x s with
    | none => none
    | some (.halt, s') => some (.done .halt, s')
    | some (.proceed, s') => derive expand rest s'

/-- Derives the nonterminal `id` inside of `entered` nodes that are to be left with it.
No more than `depth` nonterminals are derived inside one another. -/
def expandInside (t : Table) : (depth : Nat) → (id entered : Nat) → State →
    Option (Flow × State)
  | 0, _, _, _ => none
  | depth + 1, id, entered, s =>
    match t.entries[id]? with
    | none => none
    | some e =>
      match s.select e with
      | (.error flow, s') => some (flow, s'.leaveAll entered)
      | (.ok a, s') =>
        match derive (fun id s => expandInside t depth id 0 s) a.steps (s'.enter e.name) with
        | none => none
        | some (.tail next, s'') => expandInside t depth next (entered + 1) s''
        | some (.done flow, s'') => some (flow, s''.leaveAll (entered + 1))

/-- Derives a nonterminal to the given depth. -/
def expand (t : Table) (depth id : Nat) (s : State) : Option (Flow × State) :=
  expandInside t depth id 0 s

/-- The depth beyond which some nonterminal is bound to come up again at the same place. -/
def maxDepth (t : Table) (s : State) : Nat := t.entries.size * (s.pending.length + 2) + 1

/-- What a parse leaves behind. -/
structure Outcome where
  /-- The text of the program, even if something was found wrong. -/
  output : Option String
  /-- Everything that was found wrong. -/
  report : Report
  /-- The derivation tree, unless the start symbol was not derived at all. -/
  tree : Option Tree

/-- What a state amounts to when the parse is over. -/
def State.outcome (s : State) : Outcome where
  output := s.machine.output
  report := s.report
  tree := s.tree.finish

/-- The state at the end of a parse. -/
def finalState (t : Table) (s : State) : Option State :=
  match s.advance with
  | (.halt, s') => some s'
  | (.proceed, s') => (expand t (maxDepth t s) t.start s').map Prod.snd

/-- Parses a program. -/
def run (t : Table) (source : String) : Option Outcome :=
  (finalState t (.ofSource source)).map State.outcome

end ToneScript.Parse
