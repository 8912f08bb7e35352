import ToneScript.Token.Automaton

/-!
# Scanning

A `Cursor` is a place in a program: what is left to read, and the line it starts
on.  One scan runs the automaton from the cursor to the first final state and
returns what it found together with the cursor behind it.  A lexeme is the
longest piece of text the automaton accepts; a character that breaks off a lexeme
and could start another one is left for the next scan.

## Main definitions

* `Scan` — a token, a piece of text that is none, a lexeme cut short, or nothing.
* `Cursor.next` — one scan.
* `Cursor.trace` — all scans up to the end of the text.

## Main statements

* `Cursor.length_rest_next` — every scan but the last consumes some text, which is
  why scanning ends.
-/

namespace ToneScript

/-- What one scan finds. -/
inductive Scan where
  /-- A token. -/
  | token (t : Token)
  /-- Text that is no token, with the line it starts on.  Scanning can go on behind it. -/
  | invalid (fault : Scan.Fault) (text : String) (line : Nat)
  /-- The text ended inside this lexeme. -/
  | truncated (text : String) (line : Nat)
  /-- Nothing is left to scan. -/
  | done
deriving DecidableEq, Repr

/-- A place in a program text. -/
structure Cursor where
  /-- The text not yet read. -/
  rest : List Char
  /-- The line on which it starts, counted from one. -/
  line : Nat
deriving DecidableEq, Repr

/-- What a verdict on a piece of text amounts to. -/
def Scan.Verdict.scan (text : String) (line : Nat) : Verdict → Scan
  | token k => .token ⟨k, text, line⟩
  | reject f => .invalid f text line

namespace Cursor

/-- The beginning of a program text. -/
def ofString (s : String) : Cursor := ⟨s.toList, 1⟩

/-- The line behind a character that stands on line `n`. -/
def lineAfter (c : Char) (n : Nat) : Nat := if c = '\n' then n + 1 else n

/-- Runs the automaton from state `s` over the text `rest`, where `taken` holds the
characters of the lexeme so far, the last one first, and `origin` is the line the
lexeme started on. -/
def munch (origin : Nat) (s : Scan.State) (taken : List Char) (line : Nat) :
    (rest : List Char) → Scan × Cursor
  | [] =>
    let text := String.ofList taken.reverse
    let found := match s.step .eof with
      | .sink => .truncated text origin
      | t => match t.verdict with
        | some v => v.scan text origin
        | none => .truncated text origin
    (found, ⟨[], line⟩)
  | c :: rest =>
    let kept : Cursor := ⟨c :: rest, line⟩
    let passed : Cursor := ⟨rest, lineAfter c line⟩
    match s.step (.char c) with
    | .sink =>
      -- A known character starts the next lexeme, unless it is all there is of this one.
      if Alphabet.isKnown c ∧ taken ≠ [] then
        (.invalid .input (String.ofList taken.reverse) origin, kept)
      else
        (.invalid .input (String.ofList (c :: taken).reverse) origin, passed)
    | t =>
      match t.verdict with
      | none => munch origin t (c :: taken) passed.line rest
      | some v =>
        if t.retracts then (v.scan (String.ofList taken.reverse) origin, kept)
        else (v.scan (String.ofList (c :: taken).reverse) origin, passed)

/-- One scan, and the place behind it.  At the end of the text there is nothing to
find and nowhere to go. -/
def next (k : Cursor) : Scan × Cursor :=
  match k.rest with
  | [] => (.done, k)
  | _ :: _ => munch k.line .start [] k.line k.rest

@[simp] theorem next_nil (n : Nat) : next ⟨[], n⟩ = (.done, ⟨[], n⟩) := rfl

theorem next_cons (c : Char) (r : List Char) (n : Nat) :
    next ⟨c :: r, n⟩ = munch n .start [] n (c :: r) := rfl

theorem length_rest_munch_le (origin : Nat) (s : Scan.State) (taken : List Char) (line : Nat)
    (rest : List Char) : (munch origin s taken line rest).2.rest.length ≤ rest.length := by
  induction rest generalizing s taken line with
  | nil => simp [munch]
  | cons c rest ih =>
    simp only [munch, List.length_cons]
    split
    · split <;> simp
    · split
      · exact Nat.le_succ_of_le (ih ..)
      · split <;> simp

/-- A scan that finds anything at all consumes some text. -/
theorem length_rest_next {k : Cursor} (h : k.rest ≠ []) :
    k.next.2.rest.length < k.rest.length := by
  obtain ⟨rest, line⟩ := k
  cases rest with
  | nil => contradiction
  | cons c rest =>
    rw [next_cons]
    simp only [munch, List.length_cons]
    split
    · simp
    · split
      · exact Nat.lt_succ_of_le (length_rest_munch_le ..)
      · rw [Scan.State.not_retracts_step_start]
        simp

/-- Adds the scans from `k` on, each with the place behind it, to those in `seen`,
which holds the latest first. -/
def traceInto (seen : List (Scan × Cursor)) (k : Cursor) : List (Scan × Cursor) :=
  if _h : k.rest = [] then seen.reverse else traceInto (k.next :: seen) k.next.2
termination_by k.rest.length
decreasing_by exact length_rest_next ‹_›

/-- All scans from a place to the end of the text, each with the place behind it. -/
def trace (k : Cursor) : List (Scan × Cursor) := traceInto [] k

theorem traceInto_eq (seen : List (Scan × Cursor)) (k : Cursor) :
    traceInto seen k = seen.reverse ++ trace k := by
  rw [trace]
  by_cases h : k.rest = []
  · simp [traceInto, h]
  · have hlt := length_rest_next h
    rw [traceInto, dif_neg h, traceInto_eq (k.next :: seen) k.next.2]
    rw [traceInto, dif_neg h, traceInto_eq [k.next] k.next.2]
    simp
termination_by k.rest.length

theorem trace_of_rest_eq_nil {k : Cursor} (h : k.rest = []) : trace k = [] := by
  rw [trace, traceInto, dif_pos h, List.reverse_nil]

theorem trace_of_rest_ne_nil {k : Cursor} (h : k.rest ≠ []) :
    trace k = k.next :: trace k.next.2 := by
  rw [trace, traceInto, dif_neg h, traceInto_eq]
  rfl

/-- What the scans from a place to the end of the text find. -/
def scans (k : Cursor) : List Scan := k.trace.map Prod.fst

end Cursor

end ToneScript
