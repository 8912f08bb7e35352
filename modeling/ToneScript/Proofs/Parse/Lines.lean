import ToneScript.Proofs.Parse.Order
import ToneScript.Proofs.Parse.Recognition
import ToneScript.Proofs.Parse.Return

/-!
# Reports come line by line

Three parts of the compiler write to one report: the scanner, with the line on which a piece of
text begins, and the parser and the evaluator, with the line of the current token or, when there is
none, the last line of the program.  They take turns, and the scanner is always one token ahead.
Still the lines in the report never go down.

What makes it so is seen when the report, the current token and the scans to come are lined up.
The scanner finds its lines in order.  Looking through the scans, a parse drops some of them and
moves others into the report, but it moves none past another; and what it reports itself it puts
right before the current token, on the line of that token.

## Main definitions

* `Parse.State.timeline` — the lines of what has been reported, of the current token, and of what
  is still to come.

## Main statements

* `Cursor.pairwise_lines` — scans are found in the order of their lines.
* `Parse.respected_chronological` — no step of a parse disturbs the order of the timeline.
* `Parse.run_lines_pairwise` — the lines in the report never go down, and are lines of the program.
-/

namespace ToneScript

/-! ## Scans -/

/-- The line on which a scan begins. -/
def Scan.line? : Scan → Option ℕ
  | token k => some k.line
  | invalid _ _ n | truncated _ n => some n
  | done => none

/-- The lines on which some scans begin. -/
def Scan.lines (scans : List Scan) : List ℕ := scans.filterMap line?

/-- The line that is shown of what a scan finds. -/
def Finding.line? : Finding → Option ℕ
  | token k => some k.line
  | fault n _ _ | truncated n _ _ => some n
  | done => none

theorem Scan.line?_finding (c : Scan) : c.finding.line? = c.line? := by
  cases c with
  | token k => rfl
  | invalid fault text n => rfl
  | truncated text n => rfl
  | done => rfl

theorem Finding.Tells.line?_eq {v : Finding} {x : List Char} {n : ℕ} (h : v.Tells x n) :
    v.line? = some n := by
  cases h with
  | token category => rfl
  | fault f => rfl
  | truncated => rfl

namespace Cursor

/-- From a cursor on, scans are found in the order of their lines, none before the line of the
cursor and none behind the last line of the text. -/
theorem pairwise_lines (k : Cursor) :
    (k.line :: (Scan.lines k.scans ++ [k.line + k.rest.count '\n'])).Pairwise (· ≤ ·) := by
  by_cases h : k.rest = []
  · simp [scans_of_rest_eq_nil h, Scan.lines]
  · obtain ⟨x, _, hrest, hline, htells⟩ := exists_slice h
    have hlt := length_rest_next h
    have ih := pairwise_lines k.next.2
    have hlast : k.next.2.line + k.next.2.rest.count '\n' = k.line + k.rest.count '\n' := by
      rw [hline, hrest, List.count_append, Nat.add_assoc]
    have hlines : Scan.lines k.scans = k.line :: Scan.lines k.next.2.scans := by
      rw [scans_of_rest_ne_nil h, Scan.lines, List.filterMap_cons, ← Scan.line?_finding,
        htells.line?_eq]
      rfl
    rw [hlast, List.pairwise_cons] at ih
    obtain ⟨hle, hpairwise⟩ := ih
    -- what comes behind the first scan comes behind its line
    have hbehind : ∀ n ∈ Scan.lines k.next.2.scans ++ [k.line + k.rest.count '\n'], k.line ≤ n := by
      intro n hn
      have hn := hle n hn
      omega
    rw [hlines, List.cons_append]
    simp only [List.pairwise_cons, List.mem_cons, forall_eq_or_imp]
    exact ⟨⟨Nat.le_refl _, hbehind⟩, hbehind, hpairwise⟩
termination_by k.rest.length

end Cursor

theorem Scan.pairwise_lines_ofSource (source : String) :
    (1 :: (lines (ofSource source) ++ [endLine source])).Pairwise (· ≤ ·) := by
  have h := (Cursor.ofString source).pairwise_lines
  rwa [Cursor.ofString, Nat.add_comm] at h

/-! ## States -/

namespace Parse

variable {t : Table} {s s' : State} {scans : List Scan} {k : Token}

namespace State

/-- The lines of what has been reported, of the current token and of the scans to come, and the
last line of the program. -/
def timeline (s : State) : List ℕ :=
  s.report.toList.map Diagnostic.line ++
    (s.current.toList.map Token.line ++ (Scan.lines s.pending ++ [s.lastLine]))

/-- Everything is in the order of its line. -/
structure Chronological (s : State) : Prop where
  ordered : s.Ordered
  pairwise : (1 :: s.timeline).Pairwise (· ≤ ·)

/-- Looking through scans drops lines, and leaves the others in their order. -/
theorem timeline_advanceOver_sublist (s : State) (scans : List Scan) :
    (s.advanceOver scans).2.timeline.Sublist
      (s.report.toList.map Diagnostic.line ++ (Scan.lines scans ++ [s.lastLine])) := by
  fun_induction advanceOver s scans with
  | case1 s => simp [timeline, Scan.lines]
  | case2 s => simp [timeline, Scan.lines]
  | case3 s k rest hk ih =>
      refine ih.trans ?_
      simp [Scan.lines, Scan.line?]
  | case4 s k rest hk => simp [timeline, Scan.lines, Scan.line?]
  | case5 s fault text n rest ih =>
      simpa [Scan.lines, Scan.line?] using ih
  | case6 s text n rest => simp [timeline, Scan.lines, Scan.line?]

/-- The first line behind the report is the line of the state. -/
theorem Ordered.exists_timeline_eq (h : s.Ordered) :
    ∃ l, s.timeline = s.report.toList.map Diagnostic.line ++ s.line :: l := by
  cases hc : s.current with
  | none =>
      refine ⟨[], ?_⟩
      simp [timeline, line, hc, h.pending_eq_nil hc, Scan.lines]
  | some k =>
      refine ⟨Scan.lines s.pending ++ [s.lastLine], ?_⟩
      simp [timeline, line, hc]

namespace Chronological

/-- What is reported on the line of the state comes behind the report. -/
theorem push (h : s.Chronological) {d : Diagnostic} (hd : d.line = s.line) :
    Chronological { s with report := s.report.push d } := by
  refine ⟨⟨h.ordered.orderly, h.ordered.pending_eq_nil⟩, ?_⟩
  obtain ⟨l, hl⟩ := h.ordered.exists_timeline_eq
  have htimeline : timeline { s with report := s.report.push d } =
      s.report.toList.map Diagnostic.line ++ s.line :: s.line :: l := by
    have hl' := List.append_cancel_left hl
    rw [timeline, Report.toList_push, List.map_append, hl']
    simp [hd]
  have hpairwise := h.pairwise
  rw [hl] at hpairwise
  rw [htimeline]
  simp only [List.pairwise_cons, List.pairwise_append, List.mem_append, List.mem_cons] at hpairwise ⊢
  grind

theorem advance (h : s.Chronological) (hc : s.current = some k) : s.advance.2.Chronological := by
  refine ⟨(takes_advance h.ordered hc).ordered, h.pairwise.sublist ?_⟩
  rw [List.cons_sublist_cons]
  refine (timeline_advanceOver_sublist s s.pending).trans ?_
  simp [timeline]

end Chronological

theorem chronological_ofSource (source : String) : (ofSource source).advance.2.Chronological := by
  refine ⟨(takes_ofSource source).ordered, (Scan.pairwise_lines_ofSource source).sublist ?_⟩
  rw [List.cons_sublist_cons]
  exact timeline_advanceOver_sublist (ofSource source) (Scan.ofSource source)

end State

/-- No step of a parse disturbs the order, and the last line stays the same. -/
theorem respected_chronological :
    Respected fun s s' => s.Chronological → s'.Chronological ∧ s'.lastLine = s.lastLine where
  refl s := fun h => ⟨h, rfl⟩
  trans := by
    intro s₁ s₂ s₃ h₁ h₂ h
    obtain ⟨h, hlast⟩ := h₁ h
    obtain ⟨h, hlast'⟩ := h₂ h
    exact ⟨h, hlast'.trans hlast⟩
  push s d hd := fun h => ⟨h.push hd, rfl⟩
  machine s m := fun h => ⟨⟨⟨h.ordered.orderly, h.ordered.pending_eq_nil⟩, h.pairwise⟩, rfl⟩
  tree s b := fun h => ⟨⟨⟨h.ordered.orderly, h.ordered.pending_eq_nil⟩, h.pairwise⟩, rfl⟩
  advance hc := fun h => ⟨h.advance hc, (State.takes_advance h.ordered hc).lastLine_eq⟩

/-- The lines of what has been reported never go down, and they lie in the program. -/
theorem State.Chronological.pairwise_report (h : s.Chronological) :
    (s.report.toList.map Diagnostic.line).Pairwise (· ≤ ·) ∧
      ∀ d ∈ s.report.toList, 1 ≤ d.line ∧ d.line ≤ s.lastLine := by
  obtain ⟨hfirst, hpairwise⟩ := List.pairwise_cons.1 h.pairwise
  obtain ⟨hreport, _, hlast⟩ := List.pairwise_append.1 hpairwise
  refine ⟨hreport, ?_⟩
  intro d hd
  have hline : d.line ∈ s.report.toList.map Diagnostic.line := List.mem_map_of_mem hd
  refine ⟨hfirst _ (List.mem_append_left _ hline), hlast _ hline _ ?_⟩
  simp

/-- The errors of a program, lexical, semantic and logical ones together, are recorded in the order
of their lines, and each of them on a line of the program. -/
theorem run_lines_pairwise {source : String} {o : Outcome} (h : run t source = some o) :
    (o.report.toList.map Diagnostic.line).Pairwise (· ≤ ·) ∧
      ∀ d ∈ o.report.toList, 1 ≤ d.line ∧ d.line ≤ 1 + source.toList.count '\n' := by
  rw [run, Option.map_eq_some_iff] at h
  obtain ⟨q, hq, rfl⟩ := h
  have hfirst := State.chronological_ofSource source
  have hlast := (State.takes_ofSource source).lastLine_eq
  have hend : q.Chronological ∧ q.lastLine = endLine source := by
    rcases runs_of_finalState hq with ha | ⟨s, flow, ha, hr⟩
    · rw [ha] at hfirst hlast
      exact ⟨hfirst, hlast⟩
    · rw [ha] at hfirst hlast
      obtain ⟨hchron, hsame⟩ := hr.respects respected_chronological hfirst
      exact ⟨hchron, hsame.trans hlast⟩
  obtain ⟨hpairwise, hbounds⟩ := hend.1.pairwise_report
  rw [hend.2, endLine, Nat.add_comm] at hbounds
  exact ⟨hpairwise, hbounds⟩

/-- A literal that runs into the next line, a slash whose line end is handed back, a sum without a
second operand, and a literal that is cut short. -/
theorem run_lines_pairwise_faults :
    ∃ o, run .tone "\"o\n/\nx + ; )\n\"e" = some o ∧
      (o.report.toList.map Diagnostic.line).Pairwise (· ≤ ·) ∧
      ∀ d ∈ o.report.toList, 1 ≤ d.line ∧ d.line ≤ 4 := by
  obtain ⟨o, hr⟩ :=
    exists_run Table.build_tone Grammar.anchored_tone.conclusive "\"o\n/\nx + ; )\n\"e"
  obtain ⟨hpairwise, hbounds⟩ := run_lines_pairwise hr
  have hlast : 1 + "\"o\n/\nx + ; )\n\"e".toList.count '\n' = 4 := by decide
  rw [hlast] at hbounds
  exact ⟨o, hr, hpairwise, hbounds⟩

end Parse

end ToneScript
