import ToneScript.Grammar.Basic
import ToneScript.Text.Words

/-!
# Reading grammars

A grammar is written line by line.  A line holds a nonterminal, an arrow, and one or
more alternatives with bars between them; an alternative is a sequence of words.  A
slash marks a terminal, `EPSILON` is the empty sequence, `$` the end of the program,
and a word made of `Action` and the name of an action is that action.  Every other
word is a nonterminal.  Empty lines and lines that begin with `#` are passed over.

Productions of one nonterminal may stand on several lines; they are alternatives in
the order in which they are met.

## Main definitions

* `Grammar.Fault` — why a text is no grammar.
* `Grammar.ofText` — the reader.
* `Grammar.text` — the written form, one production a line.
-/

namespace ToneScript.Grammar

/-- Why a text is no grammar. -/
inductive Fault where
  /-- There is no production in it. -/
  | noProductions
  /-- This line has no arrow, or nothing on one side of it. -/
  | malformed (line : Nat) (text : String)
  /-- This word looks like an action, but names neither an action nor a nonterminal. -/
  | unknownAction (line : Nat) (word : String)
  /-- This nonterminal has no production. -/
  | undefined (name : String)
deriving DecidableEq, Repr

/-- The wording of a fault. -/
def Fault.message : Fault → String
  | noProductions => "grammar has no productions"
  | malformed line text => "line " ++ toString line ++ ": malformed production: " ++ text
  | unknownAction line word => "line " ++ toString line ++ ": unknown semantic action: " ++ word
  | undefined name => "nonterminal " ++ name ++ " has no productions"

/-- The word that marks an action. -/
def actionMark : List Char := "Action".toList

/-- Whether a word begins like an action. -/
def looksLikeAction (word : List Char) : Bool := actionMark.isPrefixOf word

/-- The action that a word stands for. -/
def readAction? (word : List Char) : Option Action :=
  if looksLikeAction word then Action.ofName? (String.ofList (word.drop actionMark.length))
  else none

/-- The symbol that a word stands for. -/
def readSymbol (word : List Char) : Symbol :=
  match word with
  | '/' :: t => .terminal (String.ofList t)
  | _ =>
    let s := String.ofList word
    if s = Symbol.epsilonText then .epsilon
    else if s = Symbol.endText then .endMark
    else match readAction? word with
      | some a => .action a
      | none => .nonterminal s

/-- The productions on a line, unless the line is malformed: there has to be an arrow,
exactly one word before it, and at least one word in every alternative behind it. -/
def readLine? (line : List Char) : Option (List Production) :=
  match Text.splitAtArrow? line with
  | none => none
  | some (left, right) =>
    match Text.words left with
    | [name] =>
      let alternatives := (right.splitOn '|').map Text.words
      if [] ∈ alternatives then none
      else some (alternatives.map fun ws => ⟨String.ofList name, ws.map readSymbol⟩)
    | _ => none

/-- The lines that count, trimmed and with their numbers. -/
def countedLines (text : String) : List (List Char × Nat) :=
  (((text.toList.splitOn '\n').map Text.trim).zipIdx 1).filter fun l =>
    !l.1.isEmpty && l.1.head? != some '#'

/-- The productions on a list of numbered lines, each with the number of its line, or
the first malformed line. -/
def readLines : List (List Char × Nat) → Except Fault (List (Production × Nat))
  | [] => .ok []
  | (line, n) :: lines =>
    match readLine? line with
    | none => .error (.malformed n (String.ofList line))
    | some ps => match readLines lines with
      | .error e => .error e
      | .ok rest => .ok (ps.map (·, n) ++ rest)

/-- The references of numbered productions to nonterminals that have none, in reading
order. -/
def danglingReferences (ps : List (Production × Nat)) : List (String × Nat) :=
  (ps.flatMap fun p => p.1.references.map (·, p.2)).filter fun r =>
    r.1 ∉ (ps.map Prod.fst).map Production.lhs

theorem closed_of_danglingReferences_eq_nil {ps : List (Production × Nat)}
    (h : danglingReferences ps = []) : Closed (ps.map Prod.fst) := by
  intro p hp x hx
  obtain ⟨⟨q, n⟩, hq, rfl⟩ := List.mem_map.1 hp
  simp only [danglingReferences, List.filter_eq_nil_iff, List.mem_flatMap] at h
  have := h (x, n) ⟨(q, n), hq, List.mem_map.2 ⟨x, hx, rfl⟩⟩
  simpa using this

/-- The grammar of the productions read, unless there are none or some reference leads
nowhere.  A word that looks like an action is reported before any other reference. -/
def ofProductions (ps : List (Production × Nat)) : Except Fault Grammar :=
  if hne : ps.map Prod.fst = [] then .error .noProductions
  else
    match (danglingReferences ps).find? fun r => looksLikeAction r.1.toList with
    | some (word, n) => .error (.unknownAction n word)
    | none =>
      match hd : danglingReferences ps with
      | (name, _) :: _ => .error (.undefined name)
      | [] => .ok ⟨ps.map Prod.fst, hne, closed_of_danglingReferences_eq_nil hd⟩

/-- Reads a grammar. -/
def ofText (text : String) : Except Fault Grammar :=
  match readLines (countedLines text) with
  | .error e => .error e
  | .ok ps => ofProductions ps

/-- The written form of a grammar: one production a line. -/
def text (g : Grammar) : String := "\n".intercalate (g.productions.map toString)

end ToneScript.Grammar
