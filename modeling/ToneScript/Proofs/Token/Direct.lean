import Mathlib.Data.List.Basic
import ToneScript.Diagnostic

/-!
# Scanning without an automaton

A scan can be described without states and transitions: look at the first character,
take the longest run of the characters that may follow it, and decide by the character
behind the run.  This module writes that description down as a scanner of its own and
shows that the automaton computes nothing else, whatever the text and wherever in it the
scan begins.

The automaton is followed in two moves.  In a state that loops on a class of characters
it takes the whole run of them at once; every other character takes it to a final state,
which either keeps the character or hands it back.

## Main definitions

* `Finding` — what a scan shows: a token, or the line and the wording of a fault.
* `Cursor.direct` — the scanner without an automaton.

## Main statements

* `Cursor.munch_takeWhile` — a looping state takes the longest run of its class.
* `Cursor.next_eq_direct` — a scan of the automaton is a direct scan.
-/

namespace ToneScript

/-- What a scan shows to the outside. -/
inductive Finding where
  /-- A token. -/
  | token (t : Token)
  /-- A fault: its line, its kind and its wording.  Scanning can go on behind it. -/
  | fault (line : ℕ) (kind : Diagnostic.Kind) (message : String)
  /-- A lexeme cut short by the end of the text. -/
  | truncated (line : ℕ) (kind : Diagnostic.Kind) (message : String)
  /-- Nothing is left. -/
  | done
deriving DecidableEq, Repr

/-- What a scan shows: faults are told by the diagnostics made of them. -/
def Scan.finding (s : Scan) : Finding :=
  match s, s.diagnostic? with
  | .token t, _ => .token t
  | .invalid .., some d => .fault d.line d.kind d.message
  | .truncated .., some d => .truncated d.line d.kind d.message
  | _, _ => .done

namespace Cursor

/-! ## The direct scanner -/

variable (n : ℕ)

/-- A token is found, and scanning goes on behind it. -/
def found (category : Token.Category) (text rest : List Char) : Finding × Cursor :=
  (.token ⟨category, String.ofList text, n⟩, ⟨rest, n + text.count '\n'⟩)

/-- A piece of text is refused, and scanning goes on behind it. -/
def refused (wording : String) (text rest : List Char) : Finding × Cursor :=
  (.fault n .lexical (wording ++ ": " ++ String.ofList text), ⟨rest, n + text.count '\n'⟩)

/-- The text ends inside of a lexeme. -/
def cutShort (text : List Char) : Finding × Cursor :=
  (.truncated n .lexical ("Unexpected end of input" ++ ": " ++ String.ofList text),
    ⟨[], n + text.count '\n'⟩)

/-- A run of digits, by what stands behind it. -/
def directNumber (run : List Char) : List Char → Finding × Cursor
  | [] => found n .number run []
  | c :: rest =>
    if c.isAlpha then refused n "Invalid number" (run ++ [c]) rest
    else if Alphabet.isKnown c then found n .number run (c :: rest)
    else refused n "Invalid input" (run ++ [c]) rest

/-- A run of letters and digits, by what stands behind it. -/
def directName (run : List Char) : List Char → Finding × Cursor
  | [] => found n .identifier run []
  | c :: rest =>
    if Alphabet.isKnown c then found n .identifier run (c :: rest)
    else refused n "Invalid input" (run ++ [c]) rest

/-- A quote and a run of tone letters, by what stands behind them. -/
def directLiteral (run : List Char) : List Char → Finding × Cursor
  | [] => cutShort n run
  | c :: rest =>
    if c = '"' then found n .literal (run ++ [c]) rest
    else if Alphabet.isKnown c then refused n "Invalid string literal" (run ++ [c]) rest
    else refused n "Invalid input" (run ++ [c]) rest

/-- Two slashes and the rest of their line, with the line end if there is one. -/
def directRemark (run : List Char) : List Char → Finding × Cursor
  | [] => found n .comment run []
  | c :: rest => found n .comment (run ++ [c]) rest

/-- A slash, by what stands behind it. -/
def directSlash : List Char → Finding × Cursor
  | [] => cutShort n ['/']
  | c :: rest =>
    if c = '/' then
      directRemark n ('/' :: '/' :: rest.takeWhile (· != '\n')) (rest.dropWhile (· != '\n'))
    else if Alphabet.isKnown c then refused n "Invalid input" ['/'] (c :: rest)
    else refused n "Invalid input" ['/', c] rest

/-- One scan, decided by the first character and the longest run behind it. -/
def direct (k : Cursor) : Finding × Cursor :=
  match k.rest with
  | [] => (.done, k)
  | c :: rest =>
    if c.isDigit then
      directNumber k.line (c :: rest.takeWhile Char.isDigit) (rest.dropWhile Char.isDigit)
    else if c.isAlpha then
      directName k.line (c :: rest.takeWhile Char.isAlphanum) (rest.dropWhile Char.isAlphanum)
    else if c = '"' then
      directLiteral k.line (c :: rest.takeWhile Alphabet.isTone) (rest.dropWhile Alphabet.isTone)
    else if c = '/' then directSlash k.line rest
    else if Alphabet.isSymbol c then found k.line .symbol [c] rest
    else if Alphabet.isBlank c then found k.line .blank [c] rest
    else refused k.line "Invalid input" [c] rest

/-! ## The automaton, from a run -/

/-- What is found from state `s` behind the text `run` of a lexeme that began on line `n`. -/
def resume (s : Scan.State) (run rest : List Char) : Finding × Cursor :=
  let result := munch n s run.reverse (n + run.count '\n') rest
  (result.1.finding, result.2)

variable {n} {s t : Scan.State} {c : Char} {run rest : List Char} {v : Scan.Verdict}

theorem lineAfter_count (n : ℕ) (run : List Char) (c : Char) :
    lineAfter c (n + run.count '\n') = n + (run ++ [c]).count '\n' := by
  rw [lineAfter, List.count_append, List.count_singleton]
  by_cases hc : c = '\n'
  · simp [hc, Nat.add_assoc]
  · simp [hc]

/-- One character away from the sink: the state reached reads on, or it is final. -/
theorem munch_cons_of_ne_sink {taken : List Char} {line : ℕ} (ht : s.step (.char c) = t)
    (hsink : t ≠ .sink) :
    munch n s taken line (c :: rest) =
      match t.verdict with
      | none => munch n t (c :: taken) (lineAfter c line) rest
      | some v =>
        if t.retracts then (v.scan (String.ofList taken.reverse) n, ⟨c :: rest, line⟩)
        else (v.scan (String.ofList (c :: taken).reverse) n, ⟨rest, lineAfter c line⟩) := by
  rw [munch, ht]
  cases t with
  | sink => exact absurd rfl hsink
  | _ => rfl

/-- A state that is not final takes the character and reads on. -/
theorem resume_of_verdict_eq_none (ht : s.step (.char c) = t) (hv : t.verdict = none) :
    resume n s run (c :: rest) = resume n t (run ++ [c]) rest := by
  have hsink : t ≠ .sink := by
    intro h
    rw [h] at hv
    exact absurd hv (by decide)
  rw [resume, munch_cons_of_ne_sink ht hsink, hv, resume, lineAfter_count,
    List.reverse_append, List.reverse_singleton, List.singleton_append]

/-- A final state produces something, and keeps the character or hands it back. -/
theorem resume_of_verdict_eq_some (ht : s.step (.char c) = t) (hv : t.verdict = some v)
    (hsink : t ≠ .sink) :
    resume n s run (c :: rest) =
      if t.retracts then
        ((v.scan (String.ofList run) n).finding, ⟨c :: rest, n + run.count '\n'⟩)
      else
        ((v.scan (String.ofList (run ++ [c])) n).finding,
          ⟨rest, n + (run ++ [c]).count '\n'⟩) := by
  rw [resume, munch_cons_of_ne_sink ht hsink, hv, lineAfter_count, List.reverse_cons,
    List.reverse_reverse]
  by_cases hr : t.retracts
  · simp only [hr, if_true]
  · simp only [hr, if_false, Bool.false_eq_true]

/-- The sink hands a known character back unless it is all there is. -/
theorem resume_of_sink (ht : s.step (.char c) = .sink) :
    resume n s run (c :: rest) =
      if Alphabet.isKnown c ∧ run ≠ [] then refused n "Invalid input" run (c :: rest)
      else refused n "Invalid input" (run ++ [c]) rest := by
  simp only [resume, munch, ht, lineAfter_count, List.reverse_cons, List.reverse_reverse,
    ne_eq, List.reverse_eq_nil_iff]
  split
  · rfl
  · rfl

/-- A state that loops on a class of characters takes the longest run of them. -/
theorem munch_takeWhile {p : Char → Bool} (hs : ∀ c, p c → s.step (.char c) = s)
    (hv : s.verdict = none) (run rest : List Char) :
    resume n s run rest = resume n s (run ++ rest.takeWhile p) (rest.dropWhile p) := by
  induction rest generalizing run with
  | nil => rw [List.takeWhile_nil, List.dropWhile_nil, List.append_nil]
  | cons c rest ih =>
      by_cases hc : p c
      · rw [List.takeWhile_cons_of_pos hc, List.dropWhile_cons_of_pos hc,
          resume_of_verdict_eq_none (hs c hc) hv, ih, List.append_assoc, List.singleton_append]
      · rw [List.takeWhile_cons_of_neg hc, List.dropWhile_cons_of_neg hc, List.append_nil]

/-- Behind the longest run of a class stands no character of the class. -/
theorem not_of_dropWhile_eq_cons {p : Char → Bool} {text : List Char}
    (h : text.dropWhile p = c :: rest) : ¬ p c := by
  have hhead := List.head?_dropWhile_not p text
  rw [h] at hhead
  simpa using hhead

/-! ## Run by run -/

theorem resume_digits (run rest : List Char) :
    resume n .digits run rest =
      directNumber n (run ++ rest.takeWhile Char.isDigit) (rest.dropWhile Char.isDigit) := by
  have hloop : ∀ c : Char, c.isDigit → Scan.State.digits.step (.char c) = .digits := by
    intro c hc
    rw [Scan.State.step_digits_char, if_pos hc]
  rw [munch_takeWhile hloop rfl]
  generalize run ++ rest.takeWhile Char.isDigit = run
  cases hrest : rest.dropWhile Char.isDigit with
  | nil => rw [resume, munch, List.reverse_reverse]; rfl
  | cons c rest =>
      have hstep := Scan.State.step_digits_char c
      rw [if_neg (not_of_dropWhile_eq_cons hrest)] at hstep
      rw [directNumber]
      by_cases ha : c.isAlpha
      · rw [if_pos ha] at hstep ⊢
        rw [resume_of_verdict_eq_some hstep rfl (by decide)]
        rfl
      · rw [if_neg ha] at hstep ⊢
        by_cases hk : Alphabet.isKnown c
        · rw [if_pos hk] at hstep ⊢
          rw [resume_of_verdict_eq_some hstep rfl (by decide)]
          rfl
        · rw [if_neg hk] at hstep ⊢
          rw [resume_of_sink hstep, if_neg (fun h => hk h.1)]

theorem resume_name (run rest : List Char) :
    resume n .name run rest =
      directName n (run ++ rest.takeWhile Char.isAlphanum) (rest.dropWhile Char.isAlphanum) := by
  have hloop : ∀ c : Char, c.isAlphanum → Scan.State.name.step (.char c) = .name := by
    intro c hc
    rw [Scan.State.step_name_char, if_pos hc]
  rw [munch_takeWhile hloop rfl]
  generalize run ++ rest.takeWhile Char.isAlphanum = run
  cases hrest : rest.dropWhile Char.isAlphanum with
  | nil => rw [resume, munch, List.reverse_reverse]; rfl
  | cons c rest =>
      have hstep := Scan.State.step_name_char c
      rw [if_neg (not_of_dropWhile_eq_cons hrest)] at hstep
      rw [directName]
      by_cases hk : Alphabet.isKnown c
      · rw [if_pos hk] at hstep ⊢
        rw [resume_of_verdict_eq_some hstep rfl (by decide)]
        rfl
      · rw [if_neg hk] at hstep ⊢
        rw [resume_of_sink hstep, if_neg (fun h => hk h.1)]

theorem resume_quoted (run rest : List Char) :
    resume n .quoted run rest =
      directLiteral n (run ++ rest.takeWhile Alphabet.isTone)
        (rest.dropWhile Alphabet.isTone) := by
  have hloop : ∀ c : Char, Alphabet.isTone c → Scan.State.quoted.step (.char c) = .quoted := by
    intro c hc
    rw [Scan.State.step_quoted_char, if_pos hc]
  rw [munch_takeWhile hloop rfl]
  generalize run ++ rest.takeWhile Alphabet.isTone = run
  cases hrest : rest.dropWhile Alphabet.isTone with
  | nil => rw [resume, munch, List.reverse_reverse]; rfl
  | cons c rest =>
      have hstep := Scan.State.step_quoted_char c
      rw [if_neg (not_of_dropWhile_eq_cons hrest)] at hstep
      simp only [beq_iff_eq] at hstep
      rw [directLiteral]
      by_cases hq : c = '"'
      · rw [if_pos hq] at hstep ⊢
        rw [resume_of_verdict_eq_some hstep rfl (by decide)]
        rfl
      · rw [if_neg hq] at hstep ⊢
        by_cases hk : Alphabet.isKnown c
        · rw [if_pos hk] at hstep ⊢
          rw [resume_of_verdict_eq_some hstep rfl (by decide)]
          rfl
        · rw [if_neg hk] at hstep ⊢
          rw [resume_of_sink hstep, if_neg (fun h => hk h.1)]

theorem resume_remark (run rest : List Char) :
    resume n .remark run rest =
      directRemark n (run ++ rest.takeWhile (· != '\n')) (rest.dropWhile (· != '\n')) := by
  have hloop : ∀ c : Char, (c != '\n') → Scan.State.remark.step (.char c) = .remark := by
    intro c hc
    rw [Scan.State.step_remark_char, if_neg (by simpa using hc)]
  rw [munch_takeWhile hloop rfl]
  generalize run ++ rest.takeWhile (· != '\n') = run
  cases hrest : rest.dropWhile (· != '\n') with
  | nil => rw [resume, munch, List.reverse_reverse]; rfl
  | cons c rest =>
      have hstep := Scan.State.step_remark_char c
      rw [if_pos (by simpa using not_of_dropWhile_eq_cons hrest)] at hstep
      rw [resume_of_verdict_eq_some hstep rfl (by decide)]
      rfl

theorem resume_slash (rest : List Char) : resume n .slash ['/'] rest = directSlash n rest := by
  cases rest with
  | nil => rfl
  | cons c rest =>
      have hstep := Scan.State.step_slash_char c
      simp only [beq_iff_eq] at hstep
      rw [directSlash]
      by_cases hc : c = '/'
      · rw [if_pos hc] at hstep ⊢
        rw [resume_of_verdict_eq_none hstep rfl, resume_remark, hc]
        rfl
      · rw [if_neg hc] at hstep ⊢
        rw [resume_of_sink hstep]
        by_cases hk : Alphabet.isKnown c
        · rw [if_pos hk, if_pos ⟨hk, by simp⟩]
        · rw [if_neg hk, if_neg (fun h => hk h.1)]
          rfl

/-- The automaton and the direct scanner agree on every text, from every place in it:
they find the same, word for word, and stop at the same place on the same line. -/
theorem next_eq_direct (k : Cursor) : (k.next.1.finding, k.next.2) = k.direct := by
  obtain ⟨rest, n⟩ := k
  cases rest with
  | nil => rfl
  | cons c rest =>
      have hnext : ((next ⟨c :: rest, n⟩).1.finding, (next ⟨c :: rest, n⟩).2) =
          resume n .start [] (c :: rest) := by
        rw [next_cons, resume, List.reverse_nil, List.count_nil, Nat.add_zero]
      rw [hnext]
      simp only [direct]
      have hstep := Scan.State.step_start_char c
      simp only [beq_iff_eq] at hstep
      by_cases hd : c.isDigit
      · rw [if_pos hd] at hstep ⊢
        rw [resume_of_verdict_eq_none hstep rfl, resume_digits]
        rfl
      rw [if_neg hd] at hstep ⊢
      by_cases ha : c.isAlpha
      · have hq : c ≠ '"' := by
          rintro rfl
          exact absurd ha (by decide)
        rw [if_neg hq, if_pos ha] at hstep
        rw [if_pos ha, resume_of_verdict_eq_none hstep rfl, resume_name]
        rfl
      rw [if_neg ha] at hstep ⊢
      by_cases hq : c = '"'
      · rw [if_pos hq] at hstep ⊢
        rw [resume_of_verdict_eq_none hstep rfl, resume_quoted]
        rfl
      rw [if_neg hq] at hstep ⊢
      by_cases hs : c = '/'
      · have hy : ¬ Alphabet.isSymbol c := by
          rw [hs]
          decide
        rw [if_neg hy, if_pos hs] at hstep
        rw [if_pos hs, resume_of_verdict_eq_none hstep rfl, hs]
        exact resume_slash rest
      rw [if_neg hs] at hstep ⊢
      by_cases hy : Alphabet.isSymbol c
      · rw [if_pos hy] at hstep ⊢
        rw [resume_of_verdict_eq_some hstep rfl (by decide)]
        rfl
      rw [if_neg hy] at hstep ⊢
      by_cases hb : Alphabet.isBlank c
      · rw [if_pos hb] at hstep ⊢
        rw [resume_of_verdict_eq_some hstep rfl (by decide)]
        rfl
      rw [if_neg hb] at hstep ⊢
      rw [resume_of_sink hstep, if_neg (fun h => h.2 rfl)]
      rfl

end Cursor

end ToneScript
