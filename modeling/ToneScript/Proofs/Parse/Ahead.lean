import ToneScript.Proofs.Parse.Runs
import ToneScript.Proofs.Token.Slices

/-!
# The tokens ahead

A parse sees the scans of a program one after the other, and most of what they hold means
nothing to it.  What counts are the tokens ahead: the current one and those among the
scans to come that are no trivia.  As long as no lexeme is cut short, going to the next
token takes the first of them away, and what is wrong with the text in between moves from
the scans to the report.

## Main definitions

* `Scan.significant`, `Parse.State.ahead` — the tokens that count.
* `Scan.isPlain`, `Parse.State.Settled` — nothing ahead is cut short, and without a current
  token nothing is ahead at all.
* `Parse.State.Faultless` — every token has been where it should be.
* `Parse.State.Advances` — the step to the next token.

## Main statements

* `Parse.State.exists_advance`, `Parse.State.exists_consume` — the next token is reached.
-/

namespace ToneScript

/-! ## Scans -/

namespace Scan

/-- The tokens that a parser looks at. -/
def significant (scans : List Scan) : List Token :=
  (scans.filterMap token?).filter (!·.isTrivia)

/-- A token, or text that is none: whatever does not end a program. -/
def isPlain : Scan → Bool
  | token _ | invalid _ _ _ => true
  | truncated _ _ | done => false

@[simp] theorem significant_nil : significant [] = [] := rfl

theorem significant_token_cons (k : Token) (scans : List Scan) :
    significant (.token k :: scans) =
      if k.isTrivia then significant scans else k :: significant scans := by
  by_cases hk : k.isTrivia <;> simp [significant, token?, hk]

@[simp] theorem significant_invalid_cons (f : Fault) (x : String) (n : Nat) (scans : List Scan) :
    significant (.invalid f x n :: scans) = significant scans := rfl

theorem kind_of_diagnostic? {c : Scan} {d : Diagnostic} (h : c.diagnostic? = some d) :
    d.kind = .lexical := by
  cases c <;> cases h <;> rfl

end Scan

namespace Cursor

theorem done_notMem_scans (k : Cursor) : .done ∉ k.scans := by
  by_cases h : k.rest = []
  · simp [scans_of_rest_eq_nil h]
  · have hlt := length_rest_next h
    have ih := done_notMem_scans k.next.2
    rw [scans_of_rest_ne_nil h, List.mem_cons, not_or]
    exact ⟨fun hdone => h (rest_eq_nil_of_done hdone.symm), ih⟩
termination_by k.rest.length

end Cursor

/-- The scans of a program without a lexeme that is cut short are plain. -/
theorem Scan.isPlain_of_mem_ofSource {source : String}
    (hs : ∀ text n, Scan.truncated text n ∉ Scan.ofSource source) :
    ∀ c ∈ Scan.ofSource source, c.isPlain := by
  intro c hc
  cases c with
  | token k => rfl
  | invalid f x n => rfl
  | truncated x n => exact absurd hc (hs x n)
  | done => exact absurd hc (Cursor.done_notMem_scans _)

/-! ## States -/

namespace Parse.State

variable {s s' : State} {scans : List Scan} {k : Token} {x : String}

/-- The tokens still to be matched. -/
def ahead (s : State) : List Token := s.current.toList ++ Scan.significant s.pending

/-- Nothing ahead is cut short, and without a current token there is nothing ahead. -/
structure Settled (s : State) : Prop where
  plain : ∀ c ∈ s.pending, c.isPlain
  pending_eq_nil : s.current = none → s.pending = []

/-- No token has been out of place, and none has been missing. -/
def Faultless (s : State) : Prop := ∀ d ∈ s.report.toList, d.kind ≠ .semantic

/-- What is reported already, and what will be when the scans ahead are looked at. -/
def lexicalReport (s : State) : List Diagnostic :=
  s.report.toList ++ s.pending.filterMap Scan.diagnostic?

theorem ahead_of_current_eq_none (hs : s.current = none → s.pending = [])
    (hc : s.current = none) : s.ahead = [] := by
  rw [ahead, hc, hs hc]
  rfl

theorem current_eq_none_of_ahead (h : s.ahead = []) : s.current = none := by
  rw [ahead, List.append_eq_nil_iff, Option.toList_eq_nil_iff] at h
  exact h.1

theorem current_eq_of_ahead (hs : s.current = none → s.pending = []) {ks : List Token}
    (h : s.ahead = k :: ks) : s.current = some k := by
  cases hc : s.current with
  | none =>
      rw [ahead_of_current_eq_none hs hc] at h
      cases h
  | some k' =>
      rw [ahead, hc] at h
      exact congrArg some (List.cons.inj h).1

theorem ahead_eq_cons (hc : s.current = some k) : s.ahead = k :: Scan.significant s.pending := by
  rw [ahead, hc]
  rfl

theorem SamePlace.ahead_eq (h : s.SamePlace s') : s'.ahead = s.ahead := by
  rw [ahead, ahead, h.1, h.2]

theorem SamePlace.settled (h : s.SamePlace s') (hs : s.Settled) : s'.Settled where
  plain := by
    rw [h.1]
    exact hs.plain
  pending_eq_nil := by
    rw [h.1, h.2]
    exact hs.pending_eq_nil

theorem lookahead_ne_empty (s : State) : s.lookahead ≠ .empty := by
  rw [lookahead]
  split <;> simp

theorem lookahead_eq_endMark_iff : s.lookahead = .endMark ↔ s.current = none := by
  cases h : s.current <;> simp [lookahead, h]

/-- The next token has come into sight, and nothing is lost on the way. -/
structure Advances (s s' : State) : Prop where
  settled : s'.Settled
  ahead_eq : s'.ahead = Scan.significant s.pending
  report_eq : s'.lexicalReport = s.lexicalReport
  machine_eq : s'.machine = s.machine
  suffix : s'.pending <:+ s.pending

theorem exists_advanceOver (hs : ∀ c ∈ scans, c.isPlain) :
    ∃ s', s.advanceOver scans = (.proceed, s') ∧ Advances { s with pending := scans } s' := by
  induction scans generalizing s with
  | nil =>
      refine ⟨_, rfl, ⟨?_, fun _ => rfl⟩, rfl, rfl, rfl, List.suffix_rfl⟩
      intro c hc
      exact absurd hc List.not_mem_nil
  | cons c scans ih =>
      rw [List.forall_mem_cons] at hs
      cases c with
      | token k =>
          rw [advanceOver]
          by_cases hk : k.isTrivia
          · rw [if_pos hk]
            obtain ⟨s', heq, h⟩ := ih (s := s) hs.2
            refine ⟨s', heq, h.settled, ?_, h.report_eq, h.machine_eq,
              h.suffix.trans (List.suffix_cons _ _)⟩
            rw [h.ahead_eq, Scan.significant_token_cons, if_pos hk]
          · rw [if_neg hk]
            refine ⟨_, rfl, ⟨hs.2, fun h => nomatch h⟩, ?_, rfl, rfl, List.suffix_cons _ _⟩
            rw [Scan.significant_token_cons, if_neg hk]
            rfl
      | invalid f x n =>
          rw [advanceOver]
          obtain ⟨s', heq, h⟩ := ih (s := { s with report := s.report.push ⟨n, .lexeme f x⟩ }) hs.2
          refine ⟨s', heq, h.settled, h.ahead_eq, ?_, h.machine_eq,
            h.suffix.trans (List.suffix_cons _ _)⟩
          rw [h.report_eq, lexicalReport, lexicalReport, Report.toList_push, List.append_assoc]
          rfl
      | truncated x n => exact absurd hs.1 (by simp [Scan.isPlain])
      | done => exact absurd hs.1 (by simp [Scan.isPlain])

theorem exists_advance (hs : ∀ c ∈ s.pending, c.isPlain) :
    ∃ s', s.advance = (.proceed, s') ∧ s.Advances s' :=
  exists_advanceOver hs

/-- A token is matched by its terminal. -/
theorem exists_consume (hs : ∀ c ∈ s.pending, c.isPlain) (hc : s.current = some k) :
    ∃ s', s.consume k.terminal = (.proceed, s') ∧ s.Advances s' := by
  obtain ⟨s', heq, h⟩ := exists_advance
    (s := { s with current := some k, tree := s.tree.addLeaf (toString k) }) hs
  refine ⟨s', ?_, h.settled, h.ahead_eq, h.report_eq, h.machine_eq, h.suffix⟩
  rw [consume, hc]
  simp only [if_pos]
  exact heq

theorem Faultless.of_prefix (h : s'.Faultless) (hp : s.report.toList <+: s'.report.toList) :
    s.Faultless := by
  intro d hd
  exact h d (hp.subset hd)

/-- What goes on in between tokens is no matter of tokens out of place. -/
theorem Advances.faultless (h : s.Advances s') (hs : s.Faultless) : s'.Faultless := by
  intro d hd
  have hmem : d ∈ s.lexicalReport := by
    rw [← h.report_eq]
    exact List.mem_append_left _ hd
  rcases List.mem_append.1 hmem with hd | hd
  · exact hs d hd
  · obtain ⟨c, _, hc⟩ := List.mem_filterMap.1 hd
    rw [Scan.kind_of_diagnostic? hc]
    exact fun h => nomatch h

theorem Faultless.expectEnd (hs : s.Faultless) (hc : s.current = none) : s.expectEnd.Faultless := by
  unfold State.expectEnd
  rw [hc]
  exact hs

theorem mem_lexicalReport_fire {a : Action} {d : Diagnostic}
    (h : d ∈ (s.fire a).lexicalReport) : d ∈ s.lexicalReport ∨ d.kind = .logical := by
  unfold State.fire at h
  split at h
  · exact .inl h
  · rw [lexicalReport, Report.toList_push, List.append_assoc, List.mem_append, List.mem_append,
      List.mem_singleton] at h
    rcases h with h | rfl | h
    · exact .inl (List.mem_append_left _ h)
    · exact .inr rfl
    · exact .inl (List.mem_append_right _ h)

theorem Faultless.fire (hs : s.Faultless) (a : Action) : (s.fire a).Faultless := by
  unfold State.fire
  split
  · exact hs
  · intro d hd
    rw [Report.toList_push, List.mem_append, List.mem_singleton] at hd
    rcases hd with hd | rfl
    · exact hs d hd
    · exact fun h => nomatch h

/-- A token that was out of place is never forgotten. -/
theorem not_faultless_of_push {d : Diagnostic} (hd : d.kind = .semantic)
    (hp : (s.report.push d).toList <+: s'.report.toList) : ¬ s'.Faultless := by
  intro h
  refine h d (hp.subset ?_) hd
  rw [Report.toList_push]
  exact List.mem_append_right _ (List.mem_singleton.2 rfl)

end Parse.State

end ToneScript
