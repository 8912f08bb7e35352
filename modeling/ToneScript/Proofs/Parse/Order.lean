import ToneScript.Proofs.Parse.Ahead
import ToneScript.Proofs.Parse.History

/-!
# Tokens are matched in order

A lexeme that is cut short ends the scans of a program, and fatal as it is, it does so only
when all tokens before it have been taken.  As long as a parse has found nothing out of
place, the tokens that it has matched are therefore the first ones of the program.  What it
then finds out of place first is found where the next token stands, or at the end of the
program if there is none.

## Main definitions

* `Scan.Orderly`, `Scan.IsCut` — nothing comes behind a lexeme that is cut short; there is
  such a lexeme.
* `Parse.State.Takes` — what is taken of the tokens ahead.

## Main statements

* `Scan.orderly_ofSource` — the scans of a program are orderly.
* `Parse.Logs.takes` — a clean parse matches the tokens that it takes.
* `Parse.Logs.exists_takes_of_blames` — what is out of place first is so at the next token.
-/

namespace ToneScript

/-! ## Scans -/

namespace Scan

/-- Scans whose last one may be a lexeme that is cut short. -/
inductive Orderly : List Scan → Prop
  /-- Nothing is left to scan. -/
  | nil : Orderly []
  /-- The text ends inside a lexeme. -/
  | truncated (text : String) (line : Nat) : Orderly [.truncated text line]
  /-- The text goes on. -/
  | cons {c : Scan} {scans : List Scan} (hc : c.isPlain) (h : Orderly scans) :
      Orderly (c :: scans)

/-- Some lexeme is cut short. -/
def IsCut (scans : List Scan) : Prop := ∃ text line, .truncated text line ∈ scans

theorem not_isCut_nil : ¬ IsCut [] := by simp [IsCut]

theorem not_isCut_of_all_isPlain {scans : List Scan} (h : scans.all isPlain) : ¬ IsCut scans := by
  rintro ⟨text, line, hmem⟩
  have hplain : (Scan.truncated text line).isPlain := List.all_eq_true.1 h _ hmem
  simp [isPlain] at hplain

/-- A text without lexical faults is not cut short. -/
theorem not_isCut_of_tokenize {source : String} (h : (tokenize source).diagnostics = []) :
    ¬ IsCut (ofSource source) := by
  rintro ⟨text, line, hmem⟩
  exact absurd (List.filterMap_eq_nil_iff.1 h _ hmem) (by simp [diagnostic?])

theorem isCut_cons_of_isPlain {c : Scan} (hc : c.isPlain) (scans : List Scan) :
    IsCut (c :: scans) ↔ IsCut scans := by
  have hne : ∀ text line, Scan.truncated text line ≠ c := by
    rintro text line rfl
    cases hc
  simp [IsCut, hne]

end Scan

namespace Cursor

theorem orderly_scans (k : Cursor) : Scan.Orderly k.scans := by
  by_cases h : k.rest = []
  · rw [scans_of_rest_eq_nil h]
    exact .nil
  · have hlt := length_rest_next h
    have ih := orderly_scans k.next.2
    rw [scans_of_rest_ne_nil h]
    cases hc : k.next.1 with
    | token t => exact .cons rfl ih
    | invalid f x n => exact .cons rfl ih
    | truncated x n =>
        rw [scans_of_rest_eq_nil (rest_next_of_truncated hc)]
        exact .truncated x n
    | done => exact absurd (rest_eq_nil_of_done hc) h
termination_by k.rest.length

end Cursor

theorem Scan.orderly_ofSource (source : String) : Orderly (ofSource source) :=
  Cursor.orderly_scans _

/-! ## States -/

namespace Parse

variable {t : Table} {e : Entry} {x : Step} {steps : List Step} {s s' : State}
  {r : Flow × State} {k : Token} {ks ks' : List Token} {scans : List Scan}
  {E E₁ : List Event} {d : Diagnostic}

namespace State

/-- The scans to come are orderly, and without a current token there are none. -/
structure Ordered (s : State) : Prop where
  orderly : Scan.Orderly s.pending
  pending_eq_nil : s.current = none → s.pending = []

/-- The line of the next token, or the last one. -/
theorem Ordered.line_eq (hs : s.Ordered) :
    s.line = (s.ahead.head?.map Token.line).getD s.lastLine := by
  cases hc : s.current with
  | none =>
      rw [ahead_of_current_eq_none hs.pending_eq_nil hc, line, hc]
      rfl
  | some k =>
      rw [ahead_eq_cons hc, line, hc]
      rfl

theorem Ordered.not_isCut (hs : s.Ordered) (hc : s.current = none) : ¬ Scan.IsCut s.pending := by
  rw [hs.pending_eq_nil hc]
  exact Scan.not_isCut_nil

/-- From the first state on the parse has taken the tokens `ks`.  It is over only if they were
the last ones, and a lexeme behind them is cut short. -/
structure Takes (s : State) (ks : List Token) (r : Flow × State) : Prop where
  ahead_eq : s.ahead = ks ++ r.2.ahead
  ordered : r.2.Ordered
  lastLine_eq : r.2.lastLine = s.lastLine
  isCut_iff : r.1 = .proceed → (Scan.IsCut r.2.pending ↔ Scan.IsCut s.pending)
  of_halt : r.1 = .halt → r.2.ahead = [] ∧ Scan.IsCut s.pending

namespace Takes

theorem refl (hs : s.Ordered) : s.Takes [] (.proceed, s) :=
  ⟨rfl, hs, rfl, fun _ => Iff.rfl, fun h => nomatch h⟩

theorem trans (h : s.Takes ks (.proceed, s')) (h' : s'.Takes ks' r) : s.Takes (ks ++ ks') r where
  ahead_eq := by rw [h.ahead_eq, List.append_assoc, ← h'.ahead_eq]
  ordered := h'.ordered
  lastLine_eq := h'.lastLine_eq.trans h.lastLine_eq
  isCut_iff hr := (h'.isCut_iff hr).trans (h.isCut_iff rfl)
  of_halt hr := (h'.of_halt hr).imp_right (h.isCut_iff rfl).1

/-- Only the place of the state matters, and the line on which the program ends. -/
theorem of_samePlace (hs : s.Ordered) (h : s.SamePlace s') (hl : s'.lastLine = s.lastLine) :
    s.Takes [] (.proceed, s') where
  ahead_eq := h.ahead_eq.symm
  ordered := by
    refine ⟨?_, ?_⟩
    · rw [h.1]
      exact hs.orderly
    · rw [h.1, h.2]
      exact hs.pending_eq_nil
  lastLine_eq := hl
  isCut_iff _ := by rw [h.1]
  of_halt hr := nomatch hr

theorem of_enter {label : String} (h : (s.enter label).Takes ks r) : s.Takes ks r :=
  ⟨h.ahead_eq, h.ordered, h.lastLine_eq, h.isCut_iff, h.of_halt⟩

theorem leaveAll (h : s.Takes ks r) (n : Nat) : s.Takes ks (r.1, r.2.leaveAll n) :=
  ⟨h.ahead_eq, ⟨h.ordered.orderly, h.ordered.pending_eq_nil⟩, h.lastLine_eq, h.isCut_iff, h.of_halt⟩

end Takes

/-! ### To the next token -/

theorem takes_advanceOver (h : Scan.Orderly scans) (s : State) :
    ({ s with pending := scans, current := none } : State).Takes [] (s.advanceOver scans) := by
  induction h generalizing s with
  | nil =>
      refine ⟨rfl, ⟨.nil, fun _ => rfl⟩, rfl, fun _ => Iff.rfl, ?_⟩
      intro hr
      cases hr
  | truncated x n =>
      refine ⟨rfl, ⟨.nil, fun _ => rfl⟩, rfl, ?_, fun _ => ⟨rfl, x, n, by simp⟩⟩
      intro hr
      cases hr
  | @cons c scans hc h ih =>
      cases c with
      | token k =>
          rw [advanceOver]
          by_cases hk : k.isTrivia
          · have hrest := ih s
            rw [if_pos hk]
            refine ⟨?_, hrest.ordered, hrest.lastLine_eq, ?_, ?_⟩
            · rw [← hrest.ahead_eq]
              simp [ahead, Scan.significant_token_cons, hk]
            · rw [Scan.isCut_cons_of_isPlain hc]
              exact hrest.isCut_iff
            · rw [Scan.isCut_cons_of_isPlain hc]
              exact hrest.of_halt
          · rw [if_neg hk]
            refine ⟨?_, ⟨h, ?_⟩, rfl, ?_, ?_⟩
            · simp [ahead, Scan.significant_token_cons, hk]
            · intro hnone
              cases hnone
            · exact fun _ => (Scan.isCut_cons_of_isPlain hc scans).symm
            · intro hr
              cases hr
      | invalid f x n =>
          rw [advanceOver]
          have hrest := ih { s with report := s.report.push ⟨n, .lexeme f x⟩ }
          refine ⟨hrest.ahead_eq, hrest.ordered, hrest.lastLine_eq, ?_, ?_⟩
          · rw [Scan.isCut_cons_of_isPlain hc]
            exact hrest.isCut_iff
          · rw [Scan.isCut_cons_of_isPlain hc]
            exact hrest.of_halt
      | truncated x n => cases hc
      | done => cases hc

/-- Going to the next token takes the current one. -/
theorem takes_advance (hs : s.Ordered) (hc : s.current = some k) : s.Takes [k] s.advance := by
  have h := takes_advanceOver hs.orderly s
  refine ⟨?_, h.ordered, h.lastLine_eq, h.isCut_iff, h.of_halt⟩
  rw [ahead_eq_cons hc]
  exact congrArg (k :: ·) h.ahead_eq

/-- Going to the first token takes none. -/
theorem takes_ofSource (source : String) : (ofSource source).Takes [] (ofSource source).advance :=
  takes_advanceOver (Scan.orderly_ofSource source) (ofSource source)

/-- What is reported on the way to the next token is wrong with the text. -/
theorem exists_report_advanceOver (s : State) (scans : List Scan) :
    ∃ l, (s.advanceOver scans).2.report.toList = s.report.toList ++ l ∧
      ∀ d ∈ l, d.kind = .lexical := by
  fun_induction advanceOver s scans with
  | case1 s => exact ⟨[], by simp, by simp⟩
  | case2 s => exact ⟨[], by simp, by simp⟩
  | case3 s t rest _ ih => exact ih
  | case4 s t rest _ => exact ⟨[], by simp, by simp⟩
  | case5 s f x n rest ih =>
      obtain ⟨l, hl, hlex⟩ := ih
      refine ⟨⟨n, .lexeme f x⟩ :: l, by rw [hl]; simp, ?_⟩
      rw [List.forall_mem_cons]
      exact ⟨rfl, hlex⟩
  | case6 s x n rest =>
      refine ⟨[⟨n, .lexeme .truncation x⟩], by simp, ?_⟩
      rw [List.forall_mem_singleton]
      rfl

theorem clean_news_advance (h : s'.report = s.report) : Clean (s.news s'.advance.2) := by
  obtain ⟨l, hl, hlex⟩ := exists_report_advanceOver s' s'.pending
  rw [h] at hl
  have hnews : s.news s'.advance.2 = l.map .reported := news_of_report_eq hl
  rw [hnews]
  intro d hd
  rw [← mem_reportOf, reportOf_map_reported] at hd
  rw [hlex d hd]
  exact fun h => nomatch h

/-- The terminal is that of the current token, which is then matched, or the terminal is
missing. -/
theorem consume_cases (s : State) (x : String) :
    (∃ k, s.current = some k ∧ k.terminal = x ∧ s.deed (.consume x) = [.matched k] ∧
      s.consume x = ({ s with tree := s.tree.addLeaf (toString k) } : State).advance) ∨
    ∃ d : Diagnostic, d.kind = .semantic ∧ d.line = s.line ∧ s.deed (.consume x) = [] ∧
      s.consume x = (.proceed, { s with report := s.report.push d }) := by
  unfold consume
  split
  · rename_i k hc
    split
    · rename_i hk
      exact .inl ⟨k, hc, hk, by simp [deed, hc, hk], rfl⟩
    · rename_i hk
      exact .inr ⟨_, rfl, by simp [line, hc], by simp [deed, hc, hk], rfl⟩
  · rename_i hc
    exact .inr ⟨_, rfl, by simp [line, hc], by simp [deed, hc], rfl⟩

/-- The program ends here, or its end is missing. -/
theorem expectEnd_cases (s : State) :
    (s.current = none ∧ s.deed .expectEnd = [.ended] ∧
      s.expectEnd = { s with tree := s.tree.addLeaf "$" }) ∨
    ∃ d : Diagnostic, d.kind = .semantic ∧ d.line = s.line ∧ s.deed .expectEnd = [] ∧
      s.expectEnd = { s with report := s.report.push d } := by
  unfold expectEnd
  split
  · rename_i hc
    exact .inl ⟨hc, by simp [deed, hc], rfl⟩
  · rename_i k hc
    exact .inr ⟨_, rfl, by simp [line, hc], by simp [deed, hc], rfl⟩

theorem clean_deed (s : State) (x : Step) : Clean (s.deed x) := by
  intro d hd
  have h := mem_reportOf.2 hd
  rw [reportOf_deed] at h
  exact absurd h List.not_mem_nil

/-- Something has been reported, and maybe more after it. -/
theorem exists_news_eq_cons (h : (s.report.push d).toList <+: s'.report.toList) :
    ∃ E, s.news s' = .reported d :: E := by
  obtain ⟨l, hl⟩ := h
  rw [Report.toList_push, List.append_assoc] at hl
  exact ⟨l.map .reported, by rw [news_of_report_eq hl.symm]; rfl⟩

theorem news_push (s : State) (d : Diagnostic) :
    s.news { s with report := s.report.push d } = [.reported d] := by
  rw [news_of_report_eq (l := [d]) (by simp)]
  rfl

end State

/-! ## Steps -/

/-- A step that derives no nonterminal takes the token that it matches, if any. -/
theorem Acts.takes (h : Acts x s r) (hs : s.Ordered) : s.Takes (tokensOf (s.deed x)) r := by
  cases h with
  | consume x s =>
      rcases s.consume_cases x with ⟨k, hc, rfl, hdeed, heq⟩ | ⟨d, _, _, hdeed, heq⟩
      · have hs' : ({ s with tree := s.tree.addLeaf (toString k) } : State).Ordered :=
          ⟨hs.orderly, hs.pending_eq_nil⟩
        have h := State.takes_advance hs' hc
        rw [hdeed, heq]
        exact ⟨h.ahead_eq, h.ordered, h.lastLine_eq, h.isCut_iff, h.of_halt⟩
      · rw [hdeed, heq]
        exact .of_samePlace hs ⟨rfl, rfl⟩ rfl
  | expectEnd s =>
      rcases s.expectEnd_cases with ⟨_, hdeed, heq⟩ | ⟨d, _, _, hdeed, heq⟩
      · rw [hdeed, heq]
        exact .of_samePlace hs ⟨rfl, rfl⟩ rfl
      · rw [hdeed, heq]
        exact .of_samePlace hs ⟨rfl, rfl⟩ rfl
  | empty s => exact .of_samePlace hs s.samePlace_deriveEmpty rfl
  | fire a s =>
      have hl : (s.fire a).lastLine = s.lastLine := by
        unfold State.fire
        split <;> rfl
      exact .of_samePlace hs (s.samePlace_fire a) hl

/-- It is clean, or it does nothing but find something out of place at the current token. -/
theorem Acts.clean_or_fault (h : Acts x s r) : Clean (s.deed x ++ s.news r.2) ∨
    ∃ d, s.deed x ++ s.news r.2 = [.reported d] ∧ d.kind = .semantic ∧ d.line = s.line := by
  cases h with
  | consume x s =>
      rcases s.consume_cases x with ⟨k, _, rfl, _, heq⟩ | ⟨d, hd, hline, hdeed, heq⟩
      · rw [heq]
        exact .inl (clean_append.2 ⟨s.clean_deed _, State.clean_news_advance rfl⟩)
      · rw [hdeed, heq]
        exact .inr ⟨d, s.news_push d, hd, hline⟩
  | expectEnd s =>
      rcases s.expectEnd_cases with ⟨_, _, heq⟩ | ⟨d, hd, hline, hdeed, heq⟩
      · refine .inl (clean_append.2 ⟨s.clean_deed _, ?_⟩)
        rw [State.news_eq_nil (by rw [heq])]
        exact clean_nil
      · rw [hdeed, heq]
        exact .inr ⟨d, s.news_push d, hd, hline⟩
  | empty s =>
      have hnews : s.news s.deriveEmpty = [] := State.news_eq_nil rfl
      rw [hnews]
      exact .inl (clean_append.2 ⟨s.clean_deed _, clean_nil⟩)
  | fire a s =>
      refine .inl (clean_append.2 ⟨s.clean_deed _, ?_⟩)
      unfold State.fire
      split
      · rename_i m _
        have hnews : s.news { s with machine := m } = [] := State.news_eq_nil rfl
        rw [hnews]
        exact clean_nil
      · rename_i m f _
        have hnews : s.news { s with machine := m, report := s.report.push ⟨s.line, .action f⟩ } =
            [.reported ⟨s.line, .action f⟩] := s.news_push _
        rw [hnews, clean_reported]
        exact fun h => nomatch h

/-- An alternative is selected at once, or the first thing found is something out of place at
the current token. -/
theorem Selects.eq_or_fault {q : Except Flow Alternative × State} (h : Selects e s q) :
    (∃ a, q = (.ok a, s)) ∨
      ∃ d E, s.news q.2 = .reported d :: E ∧ d.kind = .semantic ∧ d.line = s.line := by
  cases h with
  | chosen _ => exact .inl ⟨_, rfl⟩
  | missing _ _ => exact .inr ⟨_, [], s.news_push _, rfl, rfl⟩
  | ended _ _ _ => exact .inr ⟨_, [], s.news_push _, rfl, rfl⟩
  | @cut _ _ k _ _ _ ha =>
      have hp := State.prefix_of_advance_eq ha
      obtain ⟨E, hE⟩ := State.exists_news_eq_cons hp
      exact .inr ⟨_, E, hE, rfl, rfl⟩
  | @skip _ _ k _ _ _ _ ha hr =>
      have hp := (State.prefix_of_advance_eq ha).trans (respected_report.selects hr)
      obtain ⟨E, hE⟩ := State.exists_news_eq_cons hp
      exact .inr ⟨_, E, hE, rfl, rfl⟩

/-- A selection without anything out of place finds an alternative at once. -/
theorem Selects.of_clean {q : Except Flow Alternative × State} (h : Selects e s q)
    (hc : Clean (s.news q.2)) : ∃ a, q = (.ok a, s) := by
  refine h.eq_or_fault.resolve_right ?_
  rintro ⟨d, E, hE, hd, _⟩
  rw [hE] at hc
  exact hc d List.mem_cons_self hd

/-! ## Whole parses -/

/-- A parse without anything out of place matches the tokens that it takes. -/
theorem Logs.takes (h : Logs t steps s E r) (hs : s.Ordered) (hc : Clean E) :
    s.Takes (tokensOf E) r := by
  induction h with
  | nil s => exact .refl hs
  | cons _ _ ih ihr =>
      rw [clean_append] at hc
      have h := ih hs hc.1
      rw [tokensOf_append]
      exact h.trans (ihr h.ordered hc.2)
  | halt _ _ ih => exact ih hs hc
  | act h =>
      rw [tokensOf_append, State.tokensOf_news, List.append_nil]
      exact h.takes hs
  | @astray _ e s _ _ _ hsel =>
      have hselects := selects_of_select_eq hsel
      obtain ⟨a, heq⟩ := hselects.of_clean hc
      cases heq
  | @chosen _ e _ s _ _ _ _ hsel _ ih =>
      rw [clean_append] at hc
      have hselects := selects_of_select_eq hsel
      obtain ⟨a, heq⟩ := hselects.of_clean hc.1
      cases heq
      rw [tokensOf_append, State.tokensOf_news, List.nil_append]
      exact ((ih ⟨hs.orderly, hs.pending_eq_nil⟩ hc.2).of_enter).leaveAll 1

/-- What a parse finds out of place first, it finds on the line of the token behind those that
it has matched. -/
theorem Logs.exists_takes_of_blames (h : Logs t steps s E r) (hs : s.Ordered)
    (hb : Blames E E₁ d) :
    ∃ m, s.Takes (tokensOf E₁) (.proceed, m) ∧ d.line = m.line := by
  induction h generalizing E₁ with
  | nil s => exact absurd clean_nil hb.not_clean
  | cons h _ ih ihr =>
      rcases hb.of_append with hb | ⟨hc, E₂, rfl, hb'⟩
      · exact ih hs hb
      · have htakes := h.takes hs hc
        obtain ⟨m, hm, hline⟩ := ihr htakes.ordered hb'
        rw [tokensOf_append]
        exact ⟨m, htakes.trans hm, hline⟩
  | halt _ _ ih => exact ih hs hb
  | @act _ s _ h =>
      rcases h.clean_or_fault with hc | ⟨d', hd', hk, hline⟩
      · exact absurd hc hb.not_clean
      · rw [hd'] at hb
        obtain ⟨rfl, rfl⟩ := hb.of_cons hk
        exact ⟨s, .refl hs, hline⟩
  | @astray _ e s _ _ _ hsel =>
      have hselects := selects_of_select_eq hsel
      rcases hselects.eq_or_fault with ⟨a, heq⟩ | ⟨d', E, hE, hk, hline⟩
      · cases heq
      · change s.news _ = _ at hE
        rw [hE] at hb
        obtain ⟨rfl, rfl⟩ := hb.of_cons hk
        exact ⟨s, .refl hs, hline⟩
  | @chosen _ e _ s _ _ _ _ hsel _ ih =>
      have hselects := selects_of_select_eq hsel
      rcases hselects.eq_or_fault with ⟨a, heq⟩ | ⟨d', E, hE, hk, hline⟩
      · cases heq
        rw [State.news_eq_nil rfl, List.nil_append] at hb
        obtain ⟨m, hm, hline⟩ := ih ⟨hs.orderly, hs.pending_eq_nil⟩ hb
        exact ⟨m, hm.of_enter, hline⟩
      · change s.news _ = _ at hE
        rw [hE, List.cons_append] at hb
        obtain ⟨rfl, rfl⟩ := hb.of_cons hk
        exact ⟨s, .refl hs, hline⟩

end Parse

end ToneScript
