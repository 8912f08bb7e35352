import Mathlib.Logic.Function.Iterate
import ToneScript.Proofs.Token.Direct
import ToneScript.Token.Listing

/-!
# Scans cut a program into slices

Every scan but the last takes a slice of the text that is not empty, and what it shows is that
slice: the text of a token is the slice, and the message of a fault ends in it.  Slice stands
behind slice, so together they are the whole program, and the line of each is told by the line
ends before it.

Whether a character is handed back is decided in three places, and so is the number of the line.
For one scan all of them are dealt with together, following the automaton from a run that it has
already taken; a scan cannot hand back all it has taken, since what it reads first is kept.

## Main definitions

* `Finding.Tells` — what a scan shows is a slice that begins on a line.
* `Scan.reline` — the same scan on another line.
* `Cursor.after` — the place behind a number of scans, be there anything left for them or not.

## Main statements

* `Cursor.exists_slice` — one scan takes a slice.
* `Cursor.next_add` — what a scan finds does not depend on the line.
* `Cursor.exists_slices` — all scans from a place together take all that is left.
* `Cursor.after_of_length_le` — behind the last scan the scanner stands on the last line.
-/

namespace ToneScript

/-- What is shown is the text `x`, which begins on line `n`: as a token, or behind the wording of
a fault. -/
inductive Finding.Tells (x : List Char) (n : ℕ) : Finding → Prop
  /-- The text is a token. -/
  | token (category : Token.Category) : Tells x n (.token ⟨category, String.ofList x, n⟩)
  /-- The text is none, and scanning can go on behind it. -/
  | fault (f : Scan.Fault) :
      Tells x n (.fault n .lexical (f.message ++ ": " ++ String.ofList x))
  /-- The text is the beginning of a lexeme that is cut short. -/
  | truncated :
      Tells x n (.truncated n .lexical (Scan.Fault.truncation.message ++ ": " ++ String.ofList x))

/-- The token, on the line that `f` makes of its own. -/
def Token.reline (f : ℕ → ℕ) (k : Token) : Token := { k with line := f k.line }

/-- The scan, on the line that `f` makes of its own. -/
def Scan.reline (f : ℕ → ℕ) : Scan → Scan
  | token k => token (k.reline f)
  | invalid fault text n => invalid fault text (f n)
  | truncated text n => truncated text (f n)
  | done => done

theorem Scan.Verdict.reline_scan (f : ℕ → ℕ) (v : Verdict) (text : String) (n : ℕ) :
    (v.scan text n).reline f = v.scan text (f n) := by
  cases v with
  | token category => rfl
  | reject fault => rfl

theorem Scan.Verdict.tells_scan (v : Verdict) (x : List Char) (n : ℕ) :
    (v.scan (String.ofList x) n).finding.Tells x n := by
  cases v with
  | token category => exact .token category
  | reject f => exact .fault f

namespace Cursor

variable {n : ℕ} {q : Scan.State} {run rest : List Char}

/-! ## One scan -/

/-- A scan that has taken `run` so far ends with a slice that is not empty, be there anything
in the run or behind it. -/
theorem exists_slice_resume (hrun : run = [] → q = .start) (hne : run ++ rest ≠ []) :
    ∃ x, x ≠ [] ∧ run ++ rest = x ++ (resume n q run rest).2.rest ∧
      (resume n q run rest).2.line = n + x.count '\n' ∧ (resume n q run rest).1.Tells x n := by
  induction rest generalizing q run with
  | nil =>
      rw [List.append_nil] at hne
      refine ⟨run, hne, rfl, rfl, ?_⟩
      rw [resume, munch, List.reverse_reverse]
      dsimp only
      split
      · exact .truncated
      · split
        · exact Scan.Verdict.tells_scan _ run n
        · exact .truncated
  | cons c rest ih =>
      have hkept : run ++ c :: rest = (run ++ [c]) ++ rest := by simp
      have hone : run ++ [c] ≠ [] := by simp
      by_cases hsink : q.step (.char c) = .sink
      · rw [resume_of_sink hsink]
        split
        · rename_i h
          exact ⟨run, h.2, rfl, rfl, .fault .input⟩
        · exact ⟨run ++ [c], hone, hkept, rfl, .fault .input⟩
      · cases hv : (q.step (.char c)).verdict with
        | none =>
            rw [resume_of_verdict_eq_none rfl hv, hkept]
            exact ih (fun h => absurd h hone) (by simp)
        | some v =>
            rw [resume_of_verdict_eq_some rfl hv hsink]
            split
            · rename_i hretracts
              refine ⟨run, ?_, rfl, rfl, v.tells_scan run n⟩
              -- the first character of a lexeme is never handed back
              intro h
              rw [hrun h, Scan.State.not_retracts_step_start] at hretracts
              cases hretracts
            · exact ⟨run ++ [c], hone, hkept, rfl, v.tells_scan _ n⟩

/-- One scan takes a slice that begins where the cursor stands, and shows it. -/
theorem exists_slice {k : Cursor} (h : k.rest ≠ []) :
    ∃ x, x ≠ [] ∧ k.rest = x ++ k.next.2.rest ∧ k.next.2.line = k.line + x.count '\n' ∧
      k.next.1.finding.Tells x k.line := by
  obtain ⟨_ | ⟨c, rest⟩, n⟩ := k
  · exact absurd rfl h
  · rw [next_cons]
    have hstart : ([] : List Char) = [] → Scan.State.start = .start := fun _ => rfl
    exact exists_slice_resume hstart h

theorem next_of_rest_eq_nil {k : Cursor} (h : k.rest = []) : k.next = (.done, k) := by
  obtain ⟨rest, n⟩ := k
  cases h
  rfl

/-- A scan leaves a rest of what was left. -/
theorem exists_rest_eq (k : Cursor) : ∃ x, k.rest = x ++ k.next.2.rest := by
  by_cases h : k.rest = []
  · exact ⟨[], by rw [next_of_rest_eq_nil h, List.nil_append]⟩
  · obtain ⟨x, _, hx, _⟩ := exists_slice h
    exact ⟨x, hx⟩

/-- Only at the end of the text nothing is found. -/
theorem rest_eq_nil_of_done {k : Cursor} (h : k.next.1 = .done) : k.rest = [] := by
  by_contra hne
  obtain ⟨x, _, _, _, htells⟩ := exists_slice hne
  rw [h] at htells
  cases htells

/-- Behind a lexeme that is cut short there is no text. -/
theorem rest_munch_of_truncated {origin line n : Nat} {q : Scan.State} {taken rest : List Char}
    {x : String} (h : (munch origin q taken line rest).1 = .truncated x n) :
    (munch origin q taken line rest).2.rest = [] := by
  have hverdict (v : Scan.Verdict) (y : String) (m : Nat) : v.scan y m ≠ .truncated x n := by
    cases v <;> simp [Scan.Verdict.scan]
  induction rest generalizing q taken line with
  | nil => rfl
  | cons c rest ih =>
      simp only [munch] at h ⊢
      split at h
      · split at h <;> cases h
      · split at h
        · exact ih h
        · rename_i v _
          split at h
          · exact absurd h (hverdict v _ _)
          · exact absurd h (hverdict v _ _)

theorem rest_next_of_truncated {k : Cursor} {x : String} (h : k.next.1 = .truncated x n) :
    k.next.2.rest = [] := by
  obtain ⟨_ | ⟨c, rest⟩, m⟩ := k
  · cases h
  · rw [next_cons] at h ⊢
    exact rest_munch_of_truncated h

/-! ## Further down -/

theorem lineAfter_add (c : Char) (n d : ℕ) : lineAfter c (n + d) = lineAfter c n + d := by
  rw [lineAfter, lineAfter]
  split
  · exact Nat.add_right_comm n d 1
  · rfl

/-- On a later line the same is found, and only its line is later. -/
theorem munch_add (taken : List Char) (line d : ℕ) :
    munch (n + d) q taken (line + d) rest =
      ((munch n q taken line rest).1.reline (· + d),
        ⟨(munch n q taken line rest).2.rest, (munch n q taken line rest).2.line + d⟩) := by
  induction rest generalizing q taken line with
  | nil =>
      simp only [munch]
      split
      · rfl
      · split
        · rw [Scan.Verdict.reline_scan]
        · rfl
  | cons c rest ih =>
      by_cases hsink : q.step (.char c) = .sink
      · simp only [munch, hsink, lineAfter_add]
        split
        · rfl
        · rfl
      · rw [munch_cons_of_ne_sink rfl hsink, munch_cons_of_ne_sink rfl hsink, lineAfter_add]
        cases (q.step (.char c)).verdict with
        | none => exact ih _ _
        | some v =>
            dsimp only
            split
            · rw [Scan.Verdict.reline_scan]
            · rw [Scan.Verdict.reline_scan]

theorem next_add (rest : List Char) (d : ℕ) :
    next ⟨rest, n + d⟩ = ((next ⟨rest, n⟩).1.reline (· + d),
      ⟨(next ⟨rest, n⟩).2.rest, (next ⟨rest, n⟩).2.line + d⟩) := by
  cases rest with
  | nil => rfl
  | cons c rest =>
      rw [next_cons, next_cons]
      exact munch_add [] n d

/-! ## Scan after scan -/

/-- The place behind the first `i` scans. -/
def after (i : ℕ) (k : Cursor) : Cursor := (fun k => k.next.2)^[i] k

theorem after_succ (i : ℕ) (k : Cursor) : after (i + 1) k = after i k.next.2 :=
  Function.iterate_succ_apply ..

theorem after_succ' (i : ℕ) (k : Cursor) : after (i + 1) k = (after i k).next.2 :=
  Function.iterate_succ_apply' ..

theorem after_of_rest_eq_nil {k : Cursor} (h : k.rest = []) (i : ℕ) : after i k = k :=
  Function.iterate_fixed (congrArg Prod.snd (next_of_rest_eq_nil h)) i

/-- Some scans leave a rest of what was left. -/
theorem exists_rest_after (i : ℕ) (k : Cursor) : ∃ y, k.rest = y ++ (after i k).rest := by
  induction i with
  | zero => exact ⟨[], rfl⟩
  | succ i ih =>
      obtain ⟨y, hy⟩ := ih
      obtain ⟨x, hx⟩ := (after i k).exists_rest_eq
      rw [after_succ']
      exact ⟨y ++ x, by rw [hy, hx, List.append_assoc]⟩

theorem scans_of_rest_eq_nil {k : Cursor} (h : k.rest = []) : k.scans = [] := by
  rw [scans, trace_of_rest_eq_nil h, List.map_nil]

theorem scans_of_rest_ne_nil {k : Cursor} (h : k.rest ≠ []) :
    k.scans = k.next.1 :: k.next.2.scans := by
  rw [scans, trace_of_rest_ne_nil h, List.map_cons, scans]

/-- The scans from a place take slices that make up what is left there.  Behind some of the
slices stands the cursor after as many scans, and what a scan shows is its slice. -/
theorem exists_slices (k : Cursor) : ∃ xs : List (List Char), xs.flatten = k.rest ∧
    k.scans = (List.range xs.length).map (fun i => (after i k).next.1) ∧
    (∀ i, after i k = ⟨(xs.drop i).flatten, k.line + (xs.take i).flatten.count '\n'⟩) ∧
    ∀ i x, xs[i]? = some x → x ≠ [] ∧
      (after i k).next.1.finding.Tells x (k.line + (xs.take i).flatten.count '\n') := by
  by_cases h : k.rest = []
  · refine ⟨[], by simp [h], by simp [scans_of_rest_eq_nil h], ?_, by simp⟩
    intro i
    rw [after_of_rest_eq_nil h]
    obtain ⟨rest, n⟩ := k
    simpa using h
  · obtain ⟨x, hx, hrest, hline, htells⟩ := exists_slice h
    have hlt := length_rest_next h
    obtain ⟨xs, hflatten, hscans, hplaces, hslices⟩ := exists_slices k.next.2
    refine ⟨x :: xs, by rw [List.flatten_cons, hflatten, hrest], ?_, ?_, ?_⟩
    · rw [scans_of_rest_ne_nil h, hscans, List.length_cons, List.range_succ_eq_map, List.map_cons,
        List.map_map]
      simp [Function.comp_def, after]
    · intro i
      cases i with
      | zero => simp [after, hflatten, ← hrest]
      | succ i =>
          rw [after_succ, hplaces, hline]
          simp [Nat.add_assoc]
    · intro i y hy
      cases i with
      | zero =>
          cases hy
          exact ⟨hx, by simpa [after] using htells⟩
      | succ i =>
          obtain ⟨hne, hi⟩ := hslices i y hy
          rw [hline] at hi
          rw [after_succ]
          exact ⟨hne, by simpa [Nat.add_assoc] using hi⟩
termination_by k.rest.length

/-- Behind the last scan of a program nothing is left, and the scanner, which has counted the line
ends on its way, stands on the line on which the program ends. -/
theorem after_of_length_le {source : String} {i : ℕ} (h : (Scan.ofSource source).length ≤ i) :
    after i (ofString source) = ⟨[], endLine source⟩ := by
  obtain ⟨xs, hflatten, hscans, hplaces, _⟩ := (ofString source).exists_slices
  have hlength : xs.length ≤ i := by simpa [Scan.ofSource, hscans] using h
  have hrest : xs.flatten = source.toList := hflatten
  rw [hplaces, List.drop_of_length_le hlength, List.take_of_length_le hlength, hrest, endLine,
    Nat.add_comm]
  rfl

end Cursor

end ToneScript
