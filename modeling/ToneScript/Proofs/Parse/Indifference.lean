import ToneScript.Proofs.Parse.Order
import ToneScript.Proofs.Parse.Recognition
import ToneScript.Proofs.Parse.Return

/-!
# What a parse is indifferent to

White space and comments pass by a parse unheard.  Text that is no token is reported, but decides
nothing; and so is the line of a token, which only goes into the reports.  Two programs that differ
in nothing else are therefore parsed alike, although the scans in between, and the reports on them,
come at different moments.

What is left to compare depends on what is asked.  If faults of the text do not count, they are
left out of the scans and of the reports.  Lines are compared only through a function: a constant
one forgets them, and the identity compares them as they are.

## Main definitions

* `Scan.isHeard`, `Diagnostic.isHeard` — what counts.
* `Parse.State.Alike` — two states of a parse in which the same things are heard.

## Main statements

* `Parse.simulation_alike` — like states are parsed alike.
* `Parse.run_indifferent` — the significant tokens of a program decide what becomes of it.
-/

namespace ToneScript

variable {f : ℕ → ℕ} {lexical : Bool}

/-! ## What is heard -/

/-- The diagnostic, on the line that `f` makes of its own. -/
def Diagnostic.reline (f : ℕ → ℕ) (d : Diagnostic) : Diagnostic := { d with line := f d.line }

/-- Whether a scan means anything to a parse.  Text that is no token does so only if faults of the
text count, but a lexeme that is cut short ends the parse in any case. -/
def Scan.isHeard (lexical : Bool) : Scan → Bool
  | token k => !k.isTrivia
  | invalid _ _ _ => lexical
  | truncated _ _ | done => true

/-- Whether a diagnostic counts. -/
def Diagnostic.isHeard (lexical : Bool) (d : Diagnostic) : Bool :=
  lexical || decide (d.kind ≠ .lexical)

/-- What is heard of some scans. -/
def Scan.heard (lexical : Bool) (f : ℕ → ℕ) (scans : List Scan) : List Scan :=
  (scans.filter (isHeard lexical)).map (reline f)

/-- What is heard of a report. -/
def Report.heard (lexical : Bool) (f : ℕ → ℕ) (r : Report) : List Diagnostic :=
  (r.toList.filter (Diagnostic.isHeard lexical)).map (Diagnostic.reline f)

theorem Scan.heard_cons_of_isHeard {c : Scan} (hc : c.isHeard lexical) (scans : List Scan) :
    heard lexical f (c :: scans) = c.reline f :: heard lexical f scans := by
  simp [heard, hc]

theorem Scan.heard_cons_of_not_isHeard {c : Scan} (hc : c.isHeard lexical = false)
    (scans : List Scan) : heard lexical f (c :: scans) = heard lexical f scans := by
  simp [heard, hc]

/-- What is reported of a scan that is not heard does not count. -/
theorem Scan.isHeard_of_diagnostic?_eq {c : Scan} {d : Diagnostic} (hd : c.diagnostic? = some d)
    (hc : c.isHeard lexical = false) : d.isHeard lexical = false := by
  cases c with
  | invalid fault text n =>
      cases hd
      simpa [isHeard, Diagnostic.isHeard, Diagnostic.kind, Diagnostic.Cause.kind] using hc
  | truncated text n => cases hc
  | _ => cases hd

/-- Before the first thing that is heard there may be others. -/
theorem Scan.exists_of_heard_eq_cons {c : Scan} {scans rest : List Scan}
    (h : heard lexical f scans = c :: rest) :
    ∃ l c' scans', scans = l ++ c' :: scans' ∧ (∀ b ∈ l, b.isHeard lexical = false) ∧
      c'.isHeard lexical ∧ c'.reline f = c ∧ heard lexical f scans' = rest := by
  obtain ⟨c', rest', hfilter, hc, hrest⟩ := List.map_eq_cons_iff.1 h
  obtain ⟨l, scans', rfl, hl, hc', hscans⟩ := List.filter_eq_cons_iff.1 hfilter
  refine ⟨l, c', scans', rfl, ?_, hc', hc, ?_⟩
  · intro b hb
    simpa using hl b hb
  · rw [heard, hscans, hrest]

theorem Report.heard_push (r : Report) (d : Diagnostic) :
    (r.push d).heard lexical f =
      r.heard lexical f ++ if d.isHeard lexical then [d.reline f] else [] := by
  by_cases hd : d.isHeard lexical
  · simp [heard, hd]
  · simp [heard, hd]

/-- The same is heard of two reports if the same thing, wherever it is, is added to both. -/
theorem Report.heard_push_congr {r r' : Report} {d d' : Diagnostic}
    (h : r'.heard lexical f = r.heard lexical f) (hcause : d'.cause = d.cause)
    (hline : f d'.line = f d.line) :
    (r'.push d').heard lexical f = (r.push d).heard lexical f := by
  rw [heard_push, heard_push, h, Diagnostic.isHeard, Diagnostic.isHeard, Diagnostic.kind,
    Diagnostic.kind, Diagnostic.reline, Diagnostic.reline, hcause, hline]

/-- If faults of the text do not count and no lexeme is cut short, what is heard of the scans are
the significant tokens. -/
theorem Scan.heard_eq_map_significant {scans : List Scan} (h : ∀ c ∈ scans, c.isPlain) :
    heard false f scans = (significant scans).map fun k => .token (k.reline f) := by
  induction scans with
  | nil => rfl
  | cons c scans ih =>
      rw [List.forall_mem_cons] at h
      obtain ⟨hc, hrest⟩ := h
      replace ih := ih hrest
      cases c with
      | token k =>
          by_cases hk : k.isTrivia
          · rw [heard_cons_of_not_isHeard (by simp [isHeard, hk]), significant_token_cons,
              if_pos hk, ih]
          · rw [heard_cons_of_isHeard (by simp [isHeard, hk]), significant_token_cons,
              if_neg hk, ih]
            rfl
      | invalid fault text n =>
          rw [heard_cons_of_not_isHeard rfl, significant_invalid_cons, ih]
      | truncated text n => cases hc
      | done => cases hc

/-- Tokens of the same categories and texts, on lines that `f` does not tell apart. -/
theorem Token.map_reline_congr {ks ks' : List Token}
    (hwords : ks'.map (fun k => (k.category, k.text)) = ks.map fun k => (k.category, k.text))
    (hlines : ks'.map (fun k => f k.line) = ks.map fun k => f k.line) :
    ks'.map (reline f) = ks.map (reline f) := by
  induction ks generalizing ks' with
  | nil => simpa using hwords
  | cons k ks ih =>
      cases ks' with
      | nil => cases hwords
      | cons k' ks' =>
          simp only [List.map_cons, List.cons.injEq, Prod.mk.injEq] at hwords hlines
          have hk : k'.reline f = k.reline f := by
            simp [reline, hwords.1, hlines.1]
          rw [List.map_cons, List.map_cons, hk, ih hwords.2 hlines.2]

/-- Without the faults of the text, what is heard of a report are its other diagnostics. -/
theorem Report.heard_false (r : Report) :
    r.heard false f = (r.toList.filter (·.kind ≠ .lexical)).map (Diagnostic.reline f) := by
  have hfilter : Diagnostic.isHeard false = fun d => decide (d.kind ≠ .lexical) := by
    funext d
    simp [Diagnostic.isHeard]
  rw [heard, hfilter]

namespace Parse

variable {t : Table} {e : Entry} {x : Step} {s s' : State} {scans scans' : List Scan}

namespace State

/-- The same is heard in both states. -/
structure Alike (lexical : Bool) (f : ℕ → ℕ) (s s' : State) : Prop where
  pending_eq : Scan.heard lexical f s'.pending = Scan.heard lexical f s.pending
  current_eq : s'.current.map (Token.reline f) = s.current.map (Token.reline f)
  lastLine_eq : f s'.lastLine = f s.lastLine
  report_eq : s'.report.heard lexical f = s.report.heard lexical f
  machine_eq : s'.machine = s.machine
  tree_eq : s'.tree = s.tree

namespace Alike

/-- Both states have a current token, of the same category and text, or none has. -/
theorem current_cases (h : s.Alike lexical f s') :
    (s.current = none ∧ s'.current = none) ∨
      ∃ k k', s.current = some k ∧ s'.current = some k' ∧ k'.category = k.category ∧
        k'.text = k.text ∧ f k'.line = f k.line := by
  have hc := h.current_eq
  cases hs : s.current with
  | none => simp_all
  | some k =>
      cases hs' : s'.current with
      | none => simp_all
      | some k' =>
          simp only [hs, hs', Option.map_some, Option.some.injEq, Token.reline,
            Token.mk.injEq] at hc
          exact .inr ⟨k, k', rfl, rfl, hc⟩

theorem lookahead_eq (h : s.Alike lexical f s') : s'.lookahead = s.lookahead := by
  rcases h.current_cases with ⟨hs, hs'⟩ | ⟨k, k', hs, hs', hcategory, htext, _⟩
  · simp [lookahead, hs, hs']
  · simp [lookahead, hs, hs', Token.terminal, hcategory, htext]

theorem lexeme_eq (h : s.Alike lexical f s') : s'.lexeme = s.lexeme := by
  rcases h.current_cases with ⟨hs, hs'⟩ | ⟨k, k', hs, hs', _, htext, _⟩
  · simp [lexeme, hs, hs']
  · simp [lexeme, hs, hs', htext]

theorem line_eq (h : s.Alike lexical f s') : f s'.line = f s.line := by
  rcases h.current_cases with ⟨hs, hs'⟩ | ⟨k, k', hs, hs', _, _, hline⟩
  · simp [line, hs, hs', h.lastLine_eq]
  · simp [line, hs, hs', hline]

theorem push {d d' : Diagnostic} (h : s.Alike lexical f s') (hcause : d'.cause = d.cause)
    (hline : f d'.line = f d.line) :
    Alike lexical f { s with report := s.report.push d } { s' with report := s'.report.push d' } :=
  { h with report_eq := Report.heard_push_congr h.report_eq hcause hline }

theorem addLeaf (h : s.Alike lexical f s') (label : String) :
    Alike lexical f { s with tree := s.tree.addLeaf label }
      { s' with tree := s'.tree.addLeaf label } :=
  { h with tree_eq := by simp [h.tree_eq] }

end Alike

/-! ### To the next token -/

/-- Scans that are not heard are passed over, and what is wrong with them is reported. -/
theorem exists_advanceOver_eq {l : List Scan} (hl : ∀ c ∈ l, c.isHeard lexical = false)
    (s : State) (scans : List Scan) :
    ∃ r : Report, r.toList = s.report.toList ++ l.filterMap Scan.diagnostic? ∧
      s.advanceOver (l ++ scans) = { s with report := r }.advanceOver scans := by
  induction l generalizing s with
  | nil => exact ⟨s.report, (List.append_nil _).symm, rfl⟩
  | cons c l ih =>
      rw [List.forall_mem_cons] at hl
      obtain ⟨hc, hl⟩ := hl
      cases c with
      | token k =>
          have hk : k.isTrivia := by simpa [Scan.isHeard] using hc
          rw [List.cons_append, advanceOver, if_pos hk]
          exact ih hl s
      | invalid fault text n =>
          obtain ⟨r, hr, heq⟩ := ih hl { s with report := s.report.push ⟨n, .lexeme fault text⟩ }
          rw [List.cons_append, advanceOver]
          exact ⟨r, by rw [hr]; simp [Scan.diagnostic?], heq⟩
      | truncated text n => cases hc
      | done => cases hc

/-- Scans that are not heard are looked through without anything to be heard. -/
theorem exists_advanceOver_append {l : List Scan} (hl : ∀ c ∈ l, c.isHeard lexical = false)
    (s : State) (scans : List Scan) :
    ∃ r : Report, r.heard lexical f = s.report.heard lexical f ∧
      s.advanceOver (l ++ scans) = { s with report := r }.advanceOver scans := by
  obtain ⟨r, hr, heq⟩ := exists_advanceOver_eq hl s scans
  have hnone : (l.filterMap Scan.diagnostic?).filter (Diagnostic.isHeard lexical) = [] := by
    rw [List.filter_eq_nil_iff]
    intro d hd
    obtain ⟨c, hc, hcd⟩ := List.mem_filterMap.1 hd
    rw [Scan.isHeard_of_diagnostic?_eq hcd (hl c hc)]
    exact Bool.false_ne_true
  refine ⟨r, ?_, heq⟩
  rw [Report.heard, Report.heard, hr, List.filter_append, hnone, List.append_nil]

/-- Where the same is heard of the scans, the next token is the same, or there is none in both
states. -/
theorem alike_advanceOver (hscans : Scan.heard lexical f scans' = Scan.heard lexical f scans)
    (hlast : f s'.lastLine = f s.lastLine)
    (hreport : s'.report.heard lexical f = s.report.heard lexical f)
    (hmachine : s'.machine = s.machine) (htree : s'.tree = s.tree) :
    (s'.advanceOver scans').1 = (s.advanceOver scans).1 ∧
      (s.advanceOver scans).2.Alike lexical f (s'.advanceOver scans').2 := by
  induction scans generalizing s s' scans' with
  | nil =>
      have hall : ∀ c ∈ scans', c.isHeard lexical = false := by
        simpa [Scan.heard] using hscans
      obtain ⟨r, hr, heq⟩ := exists_advanceOver_append (f := f) hall s' []
      rw [List.append_nil] at heq
      rw [heq]
      exact ⟨rfl, rfl, rfl, hlast, hr.trans hreport, hmachine, htree⟩
  | cons c scans ih =>
      by_cases hc : c.isHeard lexical
      · rw [Scan.heard_cons_of_isHeard hc] at hscans
        obtain ⟨l, c', scans', rfl, hl, hc', hline, hrest⟩ := Scan.exists_of_heard_eq_cons hscans
        obtain ⟨r, hr, heq⟩ := exists_advanceOver_append (f := f) hl s' (c' :: scans')
        rw [heq]
        replace hr := hr.trans hreport
        -- both scans are of one kind, since they are the same up to their lines
        cases c with
        | token k =>
            cases c' <;> simp only [Scan.reline, reduceCtorEq, Scan.token.injEq] at hline
            rename_i k'
            have hk : ¬ k.isTrivia := by simpa [Scan.isHeard] using hc
            have hk' : ¬ k'.isTrivia := by simpa [Scan.isHeard] using hc'
            rw [advanceOver, advanceOver, if_neg hk, if_neg hk']
            exact ⟨rfl, hrest, congrArg some hline, hlast, hr, hmachine, htree⟩
        | invalid fault text n =>
            cases c' <;> simp only [Scan.reline, reduceCtorEq, Scan.invalid.injEq] at hline
            obtain ⟨rfl, rfl, hn⟩ := hline
            rw [advanceOver, advanceOver]
            exact ih hrest hlast (Report.heard_push_congr hr rfl hn) hmachine htree
        | truncated text n =>
            cases c' <;> simp only [Scan.reline, reduceCtorEq, Scan.truncated.injEq] at hline
            obtain ⟨rfl, hn⟩ := hline
            rw [advanceOver, advanceOver]
            exact ⟨rfl, hrest, rfl, hlast, Report.heard_push_congr hr rfl hn, hmachine, htree⟩
        | done =>
            cases c' <;> simp only [Scan.reline, reduceCtorEq] at hline
            rw [advanceOver, advanceOver]
            exact ⟨rfl, rfl, rfl, hlast, hr, hmachine, htree⟩
      · replace hc : c.isHeard lexical = false := by simpa using hc
        obtain ⟨r, hr, heq⟩ := exists_advanceOver_append (f := f) (l := [c]) (by simpa using hc)
          s scans
        rw [List.singleton_append] at heq
        rw [Scan.heard_cons_of_not_isHeard hc] at hscans
        rw [heq]
        exact ih hscans hlast (hreport.trans hr.symm) hmachine htree

theorem Alike.advance (h : s.Alike lexical f s') :
    s'.advance.1 = s.advance.1 ∧ s.advance.2.Alike lexical f s'.advance.2 :=
  alike_advanceOver h.pending_eq h.lastLine_eq h.report_eq h.machine_eq h.tree_eq

theorem Alike.exists_advance {flow : Flow} {s₁ : State} (h : s.Alike lexical f s')
    (ha : s.advance = (flow, s₁)) : ∃ s₂, s'.advance = (flow, s₂) ∧ s₁.Alike lexical f s₂ := by
  obtain ⟨hflow, hlike⟩ := h.advance
  rw [ha] at hflow hlike
  exact ⟨s'.advance.2, Prod.ext hflow rfl, hlike⟩

/-! ### Steps -/

theorem consume_of_current_eq {k : Token} (hc : s.current = some k) :
    s.consume k.terminal = ({ s with tree := s.tree.addLeaf (toString k) } : State).advance := by
  unfold State.consume
  split
  · simp_all
  · simp_all

theorem consume_of_forall_ne {terminal : String}
    (h : ∀ k, s.current = some k → k.terminal ≠ terminal) :
    s.consume terminal = (.proceed, { s with report := s.report.missing terminal s.line }) := by
  unfold State.consume
  split
  · rename_i k hc
    rw [if_neg (h k hc), line, hc]
  · rename_i hc
    rw [line, hc]

theorem expectEnd_of_current_eq_none (hc : s.current = none) :
    s.expectEnd = { s with tree := s.tree.addLeaf "$" } := by
  unfold State.expectEnd
  split
  · rfl
  · simp_all

theorem expectEnd_of_current_eq_some {k : Token} (hc : s.current = some k) :
    s.expectEnd = { s with report := s.report.missing "$" s.line } := by
  unfold State.expectEnd
  split
  · simp_all
  · simp_all [line]

theorem Alike.consume (h : s.Alike lexical f s') (terminal : String) :
    (s'.consume terminal).1 = (s.consume terminal).1 ∧
      (s.consume terminal).2.Alike lexical f (s'.consume terminal).2 := by
  rcases h.current_cases with ⟨hs, hs'⟩ | ⟨k, k', hs, hs', hcategory, htext, _⟩
  · rw [consume_of_forall_ne (s := s) (by simp [hs]), consume_of_forall_ne (by simp [hs'])]
    exact ⟨rfl, h.push rfl h.line_eq⟩
  · have hterminal : k'.terminal = k.terminal := by
      simp [Token.terminal, hcategory, htext]
    by_cases hk : k.terminal = terminal
    · subst hk
      have hlabel : toString k' = toString k := by
        simp [toString, hcategory, htext]
      rw [consume_of_current_eq hs, ← hterminal, consume_of_current_eq hs', hlabel]
      exact (h.addLeaf (toString k)).advance
    · rw [consume_of_forall_ne (s := s) (by simp [hs, hk]),
        consume_of_forall_ne (by simp [hs', hterminal, hk])]
      exact ⟨rfl, h.push rfl h.line_eq⟩

theorem Alike.expectEnd (h : s.Alike lexical f s') :
    s.expectEnd.Alike lexical f s'.expectEnd := by
  rcases h.current_cases with ⟨hs, hs'⟩ | ⟨k, k', hs, hs', _⟩
  · rw [expectEnd_of_current_eq_none hs, expectEnd_of_current_eq_none hs']
    exact h.addLeaf "$"
  · rw [expectEnd_of_current_eq_some hs, expectEnd_of_current_eq_some hs']
    exact h.push rfl h.line_eq

theorem Alike.fire (h : s.Alike lexical f s') (a : Action) :
    (s.fire a).Alike lexical f (s'.fire a) := by
  unfold State.fire
  rw [h.lexeme_eq, h.machine_eq]
  rcases s.machine.perform a s.lexeme with ⟨m, _ | fault⟩
  · exact { h with machine_eq := rfl }
  · have hreport : (s'.report.push ⟨s'.line, .action fault⟩).heard lexical f =
        (s.report.push ⟨s.line, .action fault⟩).heard lexical f :=
      Report.heard_push_congr h.report_eq rfl h.line_eq
    exact { h with machine_eq := rfl, report_eq := hreport }

theorem Alike.selects {q : Except Flow Alternative × State} (h : s.Alike lexical f s')
    (hs : Selects e s q) :
    ∃ q', Selects e s' q' ∧ q'.1 = q.1 ∧ q.2.Alike lexical f q'.2 := by
  -- a token that is out of place is skipped in both states
  have hillegal {s s' : State} {k : Token} (h : s.Alike lexical f s') (hc : s.current = some k) :
      ∃ k', s'.current = some k' ∧
        Alike lexical f { s with report := s.report.illegal k.terminal s.line }
          { s' with report := s'.report.illegal k'.terminal s'.line } := by
    rcases h.current_cases with ⟨hnone, _⟩ | ⟨k₀, k', hs, hs', hcategory, htext, _⟩
    · rw [hc] at hnone
      cases hnone
    · rw [hc] at hs
      cases hs
      refine ⟨k', hs', h.push ?_ h.line_eq⟩
      simp [Token.terminal, hcategory, htext]
  induction hs generalizing s' with
  | chosen hsel =>
      rw [← h.lookahead_eq] at hsel
      exact ⟨_, .chosen hsel, rfl, h⟩
  | missing hsel hf =>
      rw [← h.lookahead_eq] at hsel hf
      exact ⟨_, .missing hsel hf, rfl, h.push rfl h.line_eq⟩
  | ended hsel hf hc =>
      rw [← h.lookahead_eq] at hsel hf
      have hc' : s'.current = none := by simpa [hc] using h.current_eq
      exact ⟨_, .ended hsel hf hc', rfl, h.push rfl h.line_eq⟩
  | cut hsel hf hc ha =>
      rw [← h.lookahead_eq] at hsel hf
      obtain ⟨k', hc', hpush⟩ := hillegal h hc
      obtain ⟨s₂, ha', hrest⟩ := hpush.exists_advance ha
      exact ⟨_, .cut hsel hf hc' ha', rfl, hrest⟩
  | skip hsel hf hc ha _ ih =>
      rw [← h.lookahead_eq] at hsel hf
      obtain ⟨k', hc', hpush⟩ := hillegal h hc
      obtain ⟨s₂, ha', hrest⟩ := hpush.exists_advance ha
      obtain ⟨q', hq', hsame, hlike⟩ := ih hrest
      exact ⟨q', .skip hsel hf hc' ha' hq', hsame, hlike⟩

end State

/-! ## Whole parses -/

/-- In like states a parse does the same, and like states come of it. -/
theorem simulation_alike (lexical : Bool) (f : ℕ → ℕ) : Simulation (State.Alike lexical f) where
  act := by
    intro x s s' r h hact
    cases hact with
    | consume terminal s =>
        obtain ⟨hflow, hlike⟩ := h.consume terminal
        exact ⟨_, .consume terminal s', hflow, hlike⟩
    | expectEnd s => exact ⟨_, .expectEnd s', rfl, h.expectEnd⟩
    | empty s => exact ⟨_, .empty s', rfl, h.addLeaf "epsilon"⟩
    | fire a s => exact ⟨_, .fire a s', rfl, h.fire a⟩
  select := by
    intro e s s' h
    obtain ⟨q', hq', hflow, hlike⟩ := h.selects (selects_select e s)
    rw [hq'.eq]
    exact ⟨hflow, hlike⟩
  enter label := by
    intro s s' h
    exact { h with tree_eq := by simp [State.enter, h.tree_eq] }
  leaveAll n := by
    intro s s' h
    exact { h with tree_eq := by simp [State.leaveAll, h.tree_eq] }

/-- What becomes of like states in the end is alike. -/
theorem State.Alike.exists_finalState {q : State} (h : s.Alike lexical f s')
    (hq : finalState t s = some q) : ∃ q', finalState t s' = some q' ∧ q.Alike lexical f q' := by
  rcases runs_of_finalState hq with ha | ⟨s₁, flow, ha, hr⟩
  · obtain ⟨s₂, ha', hlike⟩ := h.exists_advance ha
    exact ⟨s₂, by rw [finalState, ha'], hlike⟩
  · obtain ⟨s₂, ha', hlike⟩ := h.exists_advance ha
    obtain ⟨r', hr', _, hend⟩ := (simulation_alike lexical f).runs hlike hr
    exact ⟨r'.2, finalState_of_runs ha' hr', hend⟩

variable {source source' : String} {o o' : Outcome}

/-- Of two programs of which the same is heard, the outcomes are the same as far as that goes. -/
theorem exists_run_of_heard_eq
    (hscans : Scan.heard lexical f (Scan.ofSource source') =
      Scan.heard lexical f (Scan.ofSource source))
    (hlast : f (endLine source') = f (endLine source)) (h : run t source = some o) :
    ∃ o', run t source' = some o' ∧ o'.output = o.output ∧ o'.tree = o.tree ∧
      o'.report.heard lexical f = o.report.heard lexical f := by
  have hfirst : (State.ofSource source).Alike lexical f (State.ofSource source') :=
    ⟨hscans, rfl, hlast, rfl, rfl, rfl⟩
  rw [run, Option.map_eq_some_iff] at h
  obtain ⟨q, hq, rfl⟩ := h
  obtain ⟨q', hq', hend⟩ := hfirst.exists_finalState hq
  refine ⟨q'.outcome, by rw [run, hq', Option.map_some], ?_, ?_, hend.report_eq⟩
  · simp only [State.outcome, hend.machine_eq]
  · simp only [State.outcome, hend.tree_eq]

/-- Of two programs with the same significant tokens the same is heard, as far as their lines are
the same. -/
theorem heard_ofSource_congr (hcut : ¬ Scan.IsCut (Scan.ofSource source))
    (hcut' : ¬ Scan.IsCut (Scan.ofSource source'))
    (hwords : (tokenize source').significant.map (fun k => (k.category, k.text)) =
      (tokenize source).significant.map fun k => (k.category, k.text))
    (hlines : (tokenize source').significant.map (fun k => f k.line) =
      (tokenize source).significant.map fun k => f k.line) :
    Scan.heard false f (Scan.ofSource source') = Scan.heard false f (Scan.ofSource source) := by
  have hplain {source : String} (h : ¬ Scan.IsCut (Scan.ofSource source)) :
      ∀ c ∈ Scan.ofSource source, c.isPlain :=
    Scan.isPlain_of_mem_ofSource fun text n hmem => h ⟨text, n, hmem⟩
  have hmap := congrArg (List.map Scan.token) (Token.map_reline_congr hwords hlines)
  simp only [List.map_map] at hmap
  rw [Scan.heard_eq_map_significant (hplain hcut), Scan.heard_eq_map_significant (hplain hcut')]
  exact hmap

/-- The significant tokens decide what becomes of a program.  Take two programs that have the same
ones, by category and text, and of which no lexeme is cut short; white space, comments, text that
is no token, and lines may differ.  Then their parses have the same output and the same tree, and
find the same wrong, apart from the text that is no token.  If the tokens stand on the same lines
and the programs end on the same line, it is found on the same lines. -/
theorem run_indifferent (hr : run t source = some o) (hr' : run t source' = some o')
    (hcut : ¬ Scan.IsCut (Scan.ofSource source)) (hcut' : ¬ Scan.IsCut (Scan.ofSource source'))
    (hwords : (tokenize source').significant.map (fun k => (k.category, k.text)) =
      (tokenize source).significant.map fun k => (k.category, k.text)) :
    o'.output = o.output ∧ o'.tree = o.tree ∧
      (o'.report.toList.filter (·.kind ≠ .lexical)).map (fun d => (d.kind, d.message)) =
        (o.report.toList.filter (·.kind ≠ .lexical)).map (fun d => (d.kind, d.message)) ∧
      ((tokenize source').significant.map Token.line =
          (tokenize source).significant.map Token.line →
        endLine source' = endLine source →
        o'.report.toList.filter (·.kind ≠ .lexical) =
          o.report.toList.filter (·.kind ≠ .lexical)) := by
  have hheard {f : ℕ → ℕ}
      (hlines : (tokenize source').significant.map (fun k => f k.line) =
        (tokenize source).significant.map fun k => f k.line)
      (hlast : f (endLine source') = f (endLine source)) :
      o'.output = o.output ∧ o'.tree = o.tree ∧ o'.report.heard false f = o.report.heard false f := by
    obtain ⟨o₁, hr₁, h⟩ :=
      exists_run_of_heard_eq (heard_ofSource_congr hcut hcut' hwords hlines) hlast hr
    rw [hr'] at hr₁
    cases hr₁
    exact h
  -- first with all lines forgotten, then with the lines as they are
  have hlength : (tokenize source').significant.length = (tokenize source).significant.length := by
    simpa using congrArg List.length hwords
  obtain ⟨houtput, htree, hreport⟩ := hheard (f := fun _ => 0) (by simp [hlength]) rfl
  refine ⟨houtput, htree, ?_, ?_⟩
  · rw [Report.heard_false, Report.heard_false] at hreport
    have hcauses := congrArg (List.map fun d : Diagnostic => (d.kind, d.message)) hreport
    simpa [Function.comp_def, Diagnostic.reline, Diagnostic.kind, Diagnostic.message] using hcauses
  · intro hlines hlast
    obtain ⟨_, _, hreport⟩ := hheard (f := id) hlines hlast
    have hid : Diagnostic.reline id = id := rfl
    rwa [Report.heard_false, Report.heard_false, hid, List.map_id, List.map_id] at hreport

/-- A sum that lacks its second operand, written on one line, and then with a comment and a foreign
character in it. -/
theorem run_indifferent_sum :
    ∃ o o', run .tone "x + ;" = some o ∧ run .tone "x // unknown\n+ @ ;" = some o' ∧
      ¬ Scan.IsCut (Scan.ofSource "x + ;") ∧ ¬ Scan.IsCut (Scan.ofSource "x // unknown\n+ @ ;") ∧
      (tokenize "x // unknown\n+ @ ;").significant.map (fun k => (k.category, k.text)) =
        (tokenize "x + ;").significant.map (fun k => (k.category, k.text)) ∧
      o'.output = o.output ∧ o'.tree = o.tree ∧
      (o'.report.toList.filter (·.kind ≠ .lexical)).map (fun d => (d.kind, d.message)) =
        (o.report.toList.filter (·.kind ≠ .lexical)).map (fun d => (d.kind, d.message)) := by
  obtain ⟨o, hr⟩ := exists_run Table.build_tone Grammar.anchored_tone.conclusive "x + ;"
  obtain ⟨o', hr'⟩ :=
    exists_run Table.build_tone Grammar.anchored_tone.conclusive "x // unknown\n+ @ ;"
  have hcut : ¬ Scan.IsCut (Scan.ofSource "x + ;") :=
    Scan.not_isCut_of_all_isPlain (by decide +kernel)
  have hcut' : ¬ Scan.IsCut (Scan.ofSource "x // unknown\n+ @ ;") :=
    Scan.not_isCut_of_all_isPlain (by decide +kernel)
  have hwords : (tokenize "x // unknown\n+ @ ;").significant.map (fun k => (k.category, k.text)) =
      (tokenize "x + ;").significant.map (fun k => (k.category, k.text)) := by
    decide +kernel
  obtain ⟨houtput, htree, hreport, _⟩ := run_indifferent hr hr' hcut hcut' hwords
  exact ⟨o, o', hr, hr', hcut, hcut', hwords, houtput, htree, hreport⟩

end Parse

end ToneScript
