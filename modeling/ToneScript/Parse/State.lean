import ToneScript.Token.Listing
import ToneScript.Machine.Basic
import ToneScript.Tree.Basic
import ToneScript.Table.Basic

/-!
# The state of a parse

A parse works on the scans that are still to come, one current token, and three things
that it builds up: the report, the evaluator and the derivation tree.  Only the scans
and the current token decide what it does next.

## Main definitions

* `Parse.State` — the state.
* `Parse.State.advance` — goes to the next token that is not trivia.
* `Parse.State.select` — finds an alternative, skipping tokens that are out of place.
* `Parse.State.consume`, `Parse.State.expectEnd`, `Parse.State.fire` — single steps.
-/

namespace ToneScript.Parse

/-- Whether a parse goes on. -/
inductive Flow where
  /-- It goes on. -/
  | proceed
  /-- Something fatal has happened, and nothing more is done. -/
  | halt
deriving DecidableEq, Repr

/-- The state of a parse. -/
structure State where
  /-- The scans not yet looked at. -/
  pending : List Scan
  /-- The token to be matched next; at the end of the program there is none. -/
  current : Option Token := none
  /-- The line on which the program ends.  It is asked for where there is no token to be matched
  and the scanner has gone through the program. -/
  lastLine : Nat
  /-- What has been found wrong so far. -/
  report : Report := {}
  /-- The evaluator. -/
  machine : Machine := {}
  /-- The derivation tree so far. -/
  tree : Tree.Builder := {}

namespace State

/-- The state before the first token of a program has been looked at.  The last line is the one on
which the scanner stands behind the last scan (`Cursor.after_of_length_le`). -/
def ofSource (source : String) : State where
  pending := Scan.ofSource source
  lastLine := endLine source

/-- What the grammar calls the current token. -/
def lookahead (s : State) : Lookahead :=
  match s.current with
  | some t => .terminal t.terminal
  | none => .endMark

/-- The line of the current token. -/
def line (s : State) : Nat :=
  match s.current with
  | some t => t.line
  | none => s.lastLine

/-- The text of the current token, empty at the end of the program. -/
def lexeme (s : State) : String :=
  match s.current with
  | some t => t.text
  | none => ""

/-- How much is left to match: the scans to come, and the current token. -/
def remaining (s : State) : Nat := s.pending.length + s.current.isSome.toNat

/-- Looks through the given scans for the next token that is not trivia.  Faults on the
way are reported; a lexeme cut short is fatal. -/
def advanceOver (s : State) : (scans : List Scan) → Flow × State
  | [] | .done :: _ => (.proceed, { s with pending := [], current := none })
  | .token t :: rest =>
    if t.isTrivia then s.advanceOver rest
    else (.proceed, { s with pending := rest, current := some t })
  | .invalid fault text n :: rest =>
    { s with report := s.report.push ⟨n, .lexeme fault text⟩ }.advanceOver rest
  | .truncated text n :: rest =>
    (.halt, { s with
      pending := rest
      current := none
      report := s.report.push ⟨n, .lexeme .truncation text⟩ })

/-- Goes to the next token that is not trivia. -/
def advance (s : State) : Flow × State := s.advanceOver s.pending

theorem remaining_advanceOver_le (s : State) (scans : List Scan) :
    (s.advanceOver scans).2.remaining ≤ scans.length := by
  fun_induction advanceOver s scans <;> simp_all [remaining] <;> omega

theorem remaining_advance_lt {s : State} {t : Token} (h : s.current = some t) :
    s.advance.2.remaining < s.remaining := by
  have := remaining_advanceOver_le s s.pending
  have hr : s.remaining = s.pending.length + 1 := by simp [remaining, h]
  rw [advance, hr]
  exact Nat.lt_succ_of_le this

/-- Finds the alternative of a nonterminal that the current token calls for.  If there is
none, but the token may follow the nonterminal, the nonterminal is taken as read; any
other token is out of place and skipped, and at the end of the program all is over.  The
result is the alternative, or how the parse goes on without one. -/
def select (e : Entry) (s : State) : Except Flow Alternative × State :=
  match e.select? s.lookahead with
  | some a => (.ok a, s)
  | none =>
    if s.lookahead ∈ e.follow then
      (.error .proceed, { s with report := s.report.missing e.name s.line })
    else
      match _h : s.current with
      | none => (.error .halt, { s with report := s.report.unexpectedEnd s.line })
      | some t =>
        match _ha : { s with report := s.report.illegal t.terminal s.line }.advance with
        | (.halt, s') => (.error .halt, s')
        | (.proceed, s') => select e s'
termination_by s.remaining
decreasing_by
  have := remaining_advance_lt (s := { s with report := s.report.illegal t.terminal s.line }) _h
  rwa [_ha] at this

/-- Matches a terminal.  A token of another kind is left where it is, and the terminal is
taken as read. -/
def consume (s : State) (terminal : String) : Flow × State :=
  match s.current with
  | some t =>
    if t.terminal = terminal then
      { s with tree := s.tree.addLeaf (toString t) }.advance
    else (.proceed, { s with report := s.report.missing terminal t.line })
  | none => (.proceed, { s with report := s.report.missing terminal s.lastLine })

/-- Matches the end of the program. -/
def expectEnd (s : State) : State :=
  match s.current with
  | none => { s with tree := s.tree.addLeaf "$" }
  | some t => { s with report := s.report.missing "$" t.line }

/-- Matches the empty sequence. -/
def deriveEmpty (s : State) : State := { s with tree := s.tree.addLeaf "epsilon" }

/-- Performs an action on the current token. -/
def fire (s : State) (a : Action) : State :=
  match s.machine.perform a s.lexeme with
  | (m, none) => { s with machine := m }
  | (m, some e) => { s with machine := m, report := s.report.push ⟨s.line, .action e⟩ }

/-- Enters the node of a nonterminal. -/
def enter (s : State) (label : String) : State := { s with tree := s.tree.enter label }

/-- Leaves the `n` innermost nodes. -/
def leaveAll (s : State) (n : Nat) : State := { s with tree := s.tree.leaveAll n }

end State

end ToneScript.Parse
