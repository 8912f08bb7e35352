import ToneScript.Grammar.Basic
import ToneScript.Lookahead.Basic

/-!
# What can begin, and what can follow

FIRST of a sequence of symbols holds what a derivation of the sequence can begin
with, and the mark of the empty sequence if it can vanish.  FOLLOW of a nonterminal
holds what can stand right behind it.  Both are least solutions of inclusions, one
for each production or occurrence, and are found by passing over the productions
until a pass changes nothing.  PREDICT of a production is what the parser has to see
to choose it.

## Main definitions

* `LookaheadSet.followedBy` — what can begin two sequences, one behind the other.
* `firstOf`, `Grammar.firstSets` — FIRST.
* `Grammar.followSets` — FOLLOW, from any given FIRST.
* `predict` — PREDICT, from any given FIRST and FOLLOW.
-/

namespace ToneScript

/-- What a sequence can begin with if its first part can begin with `s` and the rest
with `t`: the rest shows only where the first part vanishes. -/
def LookaheadSet.followedBy (s t : LookaheadSet) : LookaheadSet :=
  if .empty ∈ s then s.erase .empty ∪ t else s

@[simp, grind =] theorem LookaheadSet.mem_followedBy {s t : LookaheadSet} {a : Lookahead} :
    a ∈ s.followedBy t ↔ (a ∈ s ∧ a ≠ .empty) ∨ (.empty ∈ s ∧ a ∈ t) := by
  unfold followedBy
  grind

/-- What a sequence of symbols can begin with, given FIRST of the nonterminals.  An
action matches nothing, so it is passed over; a nonterminal without a set begins with
nothing at all. -/
def firstOf (first : LookaheadMap) : List Symbol → LookaheadSet
  | [] => .singleton .empty
  | .terminal t :: _ => .singleton (.terminal t)
  | .endMark :: _ => .singleton .endMark
  | .epsilon :: w | .action _ :: w => firstOf first w
  | .nonterminal x :: w => (first.getD x).followedBy (firstOf first w)

/-- What the parser has to see in order to choose a production. -/
def predict (first follow : LookaheadMap) (p : Production) : LookaheadSet :=
  (firstOf first p.rhs).followedBy (follow.getD p.lhs)

/-- Applies `f` over and over until that changes nothing, but at most `rounds` times. -/
def saturate {α : Type} [DecidableEq α] (f : α → α) : (rounds : Nat) → α → α
  | 0, a => a
  | n + 1, a => if f a = a then a else saturate f n (f a)

namespace Grammar

/-- Everything that a set of `g` can come to hold, given the sets in `m`. -/
def glimpses (g : Grammar) (m : LookaheadMap) : LookaheadSet :=
  .ofList (.endMark :: .empty :: g.terminals.map .terminal ++ m.entries.flatMap (·.2.toList))

/-- A number of passes that suffices: each pass but the last adds something to the set
of some nonterminal. -/
def maxPasses (g : Grammar) (m : LookaheadMap) : Nat :=
  g.nonterminals.length * (g.glimpses m).size + 1

/-- One pass over the productions: what each can begin with is added to the set of its
nonterminal, and counts for the productions behind it in the same pass. -/
def firstPass (g : Grammar) (first : LookaheadMap) : LookaheadMap :=
  g.productions.foldl (fun m p => m.grow p.lhs (firstOf m p.rhs)) first

/-- FIRST of every nonterminal. -/
def firstSets (g : Grammar) : LookaheadMap :=
  saturate g.firstPass (g.maxPasses ⟨[]⟩) (.ofNames g.nonterminals)

/-- Adds to the set of each nonterminal in a piece of a right-hand side of `lhs` what can
stand behind it there. -/
def followAlong (first : LookaheadMap) (lhs : String) :
    List Symbol → LookaheadMap → LookaheadMap
  | [], m => m
  | .nonterminal x :: w, m =>
    followAlong first lhs w (m.grow x ((firstOf first w).followedBy (m.getD lhs)))
  | _ :: w, m => followAlong first lhs w m

/-- One pass over the productions for FOLLOW. -/
def followPass (g : Grammar) (first follow : LookaheadMap) : LookaheadMap :=
  g.productions.foldl (fun m p => followAlong first p.lhs p.rhs m) follow

/-- FOLLOW of every nonterminal.  Behind the start symbol comes the end of the program. -/
def followSets (g : Grammar) (first : LookaheadMap) : LookaheadMap :=
  saturate (g.followPass first) (g.maxPasses first)
    ((LookaheadMap.ofNames g.nonterminals).grow g.start (.singleton .endMark))

end Grammar

end ToneScript
