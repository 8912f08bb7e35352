import ToneScript.Proofs.Parse.Derivation
import ToneScript.Proofs.Parse.Return
import ToneScript.Proofs.Tree.Fringe

/-!
# No token is lost

A token is taken only by being matched or by being skipped.  If it is matched, there is a leaf
for it, and if it is skipped, that is reported.  What is wrong with the text in between is
reported as the parse comes across it.  So the tokens that are taken, and what is reported of
the text, can be read off the outcome, whatever else has gone wrong.

All tokens are taken only if no parse stops before the end of the program.  Recovery may drop
any number of symbols and never makes up for it; what helps is that some nonterminals can only
be followed by the end of the program, and derive one another last of all.

## Main definitions

* `Parted` — the elements of a list, parted into two lists.
* `Parse.State.Accounts` — what becomes of the tokens between two states.
* `Grammar.Closing` — nonterminals that are left only at the end of the program.

## Main statements

* `Parse.Logs.accounts` — what becomes of the tokens in a parse.
* `Parse.Runs.current_eq_none` — behind a closing nonterminal there is no token.
* `Parse.Logs.tokenLeaves_eq` — the tokens that are matched are the leaves of the tree.
* `Parse.run_parts_tokens` — no token of a tone program is lost.
-/

namespace ToneScript

/-! ## Lists parted in two -/

/-- The elements of a list are parted into two others, which keep their order. -/
inductive Parted {α : Type} : List α → List α → List α → Prop
  /-- There are none. -/
  | nil : Parted [] [] []
  /-- The first element goes to the first list. -/
  | left {l a b : List α} (x : α) (h : Parted l a b) : Parted (x :: l) (x :: a) b
  /-- The first element goes to the second list. -/
  | right {l a b : List α} (x : α) (h : Parted l a b) : Parted (x :: l) a (x :: b)

theorem Parted.append {α : Type} {l l' a a' b b' : List α} (h : Parted l a b)
    (h' : Parted l' a' b') : Parted (l ++ l') (a ++ a') (b ++ b') := by
  induction h with
  | nil => exact h'
  | left x _ ih => exact .left x ih
  | right x _ ih => exact .right x ih

theorem Parted.subset_left {α : Type} {l a b : List α} (h : Parted l a b) : a ⊆ l := by
  induction h with
  | nil => exact List.Subset.refl []
  | left x _ ih => exact List.cons_subset_cons x ih
  | right x _ ih => exact List.Subset.trans ih (List.subset_cons_self x _)

/-! ## Diagnostics -/

/-- The diagnostic is about a token that is skipped. -/
def Diagnostic.isIllegal (d : Diagnostic) : Bool :=
  match d.cause with
  | .illegal _ => true
  | _ => false

theorem Diagnostic.isIllegal_of_kind_ne {d : Diagnostic} (h : d.kind ≠ .semantic) :
    d.isIllegal = false := by
  unfold isIllegal
  split
  · rename_i x hx
    exact absurd (by rw [kind, hx, Cause.kind]) h
  · rfl

/-- What is reported of a token that is skipped. -/
def Token.illegal (k : Token) : Diagnostic := ⟨k.line, .illegal k.terminal⟩

/-! ## Tokens in a tree -/

/-- The label is that of a leaf for a token. -/
def Token.isLabel (l : String) : Bool := l.toList.head? == some '('

theorem Token.isLabel_toString (k : Token) : Token.isLabel (toString k) := by
  change (("(" ++ k.category.name ++ ", " ++ k.text ++ ")").toList.head? == some '(') = true
  simp

/-- The leaves for tokens, from left to right. -/
def Parse.Outcome.tokenLeaves (o : Parse.Outcome) : List String :=
  (o.tree.elim [] Tree.leaves).filter Token.isLabel

/-! ## Closing nonterminals -/

/-- Nonterminals that are left only at the end of the program: nothing else can follow them, and
each of their right-hand sides is chosen only there, or holds one of them. -/
def Grammar.Closing (g : Grammar) (xs : List String) : Prop :=
  ∀ x ∈ xs, (∀ l ∈ (g.follow x).toList, l = .endMark) ∧
    ∀ p ∈ g.alternatives x, (∀ l ∈ (g.predict p).toList, l = .endMark) ∨
      ∃ y ∈ xs, .nonterminal y ∈ p.rhs

instance (g : Grammar) (xs : List String) : Decidable (g.Closing xs) :=
  inferInstanceAs (Decidable (∀ x ∈ xs, _ ∧ _))

theorem Grammar.closing_tone :
    tone.Closing ["Program", "ProgramBody", "StartRule", "ProgramRest"] := by decide +kernel

namespace Parse

variable {g : Grammar} {t : Table} {e : Entry} {x : Step} {steps : List Step} {s s' s₁ s₂ : State}
  {r : Flow × State} {k : Token} {E : List Event} {l : List Diagnostic} {P : Step → Prop}
  {matched matched' skipped skipped' : List Token} {cs : List Tree} {ks : List Token}
  {scans : List Scan} {xs : List String} {w : List Symbol}

/-! ## What becomes of the tokens -/

namespace State

/-- Between two states tokens have been taken from those ahead: some have been matched, and the
others have been skipped, which is reported.  What has been reported of the text is what has
been come across. -/
structure Accounts (s s' : State) (matched skipped : List Token) : Prop where
  ordered : s'.Ordered
  parted : ∃ ks, s.ahead = ks ++ s'.ahead ∧ Parted ks matched skipped
  report : ∃ l, s'.report.toList = s.report.toList ++ l ∧
    l.filter Diagnostic.isIllegal = skipped.map Token.illegal ∧
    l.filter (·.kind = .lexical) ++ s'.pending.filterMap Scan.diagnostic? =
      s.pending.filterMap Scan.diagnostic?

namespace Accounts

theorem trans (h : s.Accounts s₁ matched skipped) (h' : s₁.Accounts s₂ matched' skipped') :
    s.Accounts s₂ (matched ++ matched') (skipped ++ skipped') := by
  obtain ⟨ks, hahead, hparted⟩ := h.parted
  obtain ⟨ks', hahead', hparted'⟩ := h'.parted
  obtain ⟨l, hreport, hillegal, hlexical⟩ := h.report
  obtain ⟨l', hreport', hillegal', hlexical'⟩ := h'.report
  refine ⟨h'.ordered, ⟨ks ++ ks', ?_, hparted.append hparted'⟩, l ++ l', ?_, ?_, ?_⟩
  · rw [hahead, hahead', List.append_assoc]
  · rw [hreport', hreport, List.append_assoc]
  · rw [List.filter_append, hillegal, hillegal', List.map_append]
  · rw [List.filter_append, List.append_assoc, hlexical', hlexical]

/-- Where no token is taken, no token and no text is to be accounted for. -/
theorem of_samePlace (hs : s.Ordered) (h : s.SamePlace s')
    (hr : s'.report.toList = s.report.toList ++ l)
    (hl : ∀ d ∈ l, d.isIllegal = false ∧ d.kind ≠ .lexical) : s.Accounts s' [] [] := by
  refine ⟨⟨by rw [h.1]; exact hs.orderly, by rw [h.1, h.2]; exact hs.pending_eq_nil⟩,
    ⟨[], h.ahead_eq.symm, .nil⟩, l, hr, ?_, ?_⟩
  · rw [List.map_nil, List.filter_eq_nil_iff]
    exact fun d hd => by simp [(hl d hd).1]
  · have hnone : l.filter (·.kind = .lexical) = [] := by
      rw [List.filter_eq_nil_iff]
      exact fun d hd => by simp [(hl d hd).2]
    rw [hnone, List.nil_append, h.1]

theorem of_report_eq (hs : s.Ordered) (h : s.SamePlace s') (hr : s'.report = s.report) :
    s.Accounts s' [] [] :=
  of_samePlace (l := []) hs h (by rw [hr, List.append_nil]) (by simp)

theorem push {d : Diagnostic} (hs : s.Ordered) (hi : d.isIllegal = false)
    (hk : d.kind ≠ .lexical) : s.Accounts { s with report := s.report.push d } [] [] :=
  of_samePlace hs ⟨rfl, rfl⟩ (Report.toList_push ..) (by simpa using ⟨hi, hk⟩)

theorem of_enter {label : String} (h : (s.enter label).Accounts s' matched skipped) :
    s.Accounts s' matched skipped := ⟨h.ordered, h.parted, h.report⟩

theorem leaveAll (h : s.Accounts s' matched skipped) (n : Nat) :
    s.Accounts (s'.leaveAll n) matched skipped :=
  ⟨⟨h.ordered.orderly, h.ordered.pending_eq_nil⟩, h.parted, h.report⟩

end Accounts

/-- Looking for the next token, the parse reports what it comes across. -/
theorem lexicalReport_advanceOver (h : Scan.Orderly scans) (s : State) :
    (s.advanceOver scans).2.lexicalReport =
      s.report.toList ++ scans.filterMap Scan.diagnostic? := by
  induction h generalizing s with
  | nil => rfl
  | truncated x n =>
      rw [advanceOver, lexicalReport, Report.toList_push, List.append_assoc]
      rfl
  | @cons c scans hc h ih =>
      cases c with
      | token k =>
          rw [advanceOver]
          split
          · exact ih s
          · rfl
      | invalid f x n =>
          rw [advanceOver, ih, Report.toList_push, List.append_assoc]
          rfl
      | truncated x n => cases hc
      | done => cases hc

theorem exists_report_advance (hs : Scan.Orderly s.pending) :
    ∃ l, s.advance.2.report.toList = s.report.toList ++ l ∧ (∀ d ∈ l, d.kind = .lexical) ∧
      l ++ s.advance.2.pending.filterMap Scan.diagnostic? =
        s.pending.filterMap Scan.diagnostic? := by
  obtain ⟨l, hl, hlex⟩ := exists_report_advanceOver s s.pending
  have hall := lexicalReport_advanceOver hs s
  rw [lexicalReport, hl, List.append_assoc, List.append_cancel_left_eq] at hall
  exact ⟨l, hl, hlex, hall⟩

theorem filter_isIllegal_of_lexical (h : ∀ d ∈ l, d.kind = .lexical) :
    l.filter Diagnostic.isIllegal = [] := by
  rw [List.filter_eq_nil_iff]
  intro d hd
  have hkind : d.kind ≠ .semantic := by simp [h d hd]
  simp [Diagnostic.isIllegal_of_kind_ne hkind]

theorem filter_lexical_of_lexical (h : ∀ d ∈ l, d.kind = .lexical) :
    l.filter (·.kind = .lexical) = l := by
  rw [List.filter_eq_self]
  exact fun d hd => by simp [h d hd]

/-- The current token is skipped, and that is reported. -/
theorem accounts_skip (hs : s.Ordered) (hc : s.current = some k) :
    s.Accounts { s with report := s.report.illegal k.terminal s.line }.advance.2 [] [k] := by
  have hs' : ({ s with report := s.report.illegal k.terminal s.line } : State).Ordered :=
    ⟨hs.orderly, hs.pending_eq_nil⟩
  have htakes := takes_advance hs' hc
  have hline : s.line = k.line := by rw [line, hc]
  obtain ⟨l, hl, hlex, hpending⟩ := exists_report_advance hs'.orderly
  rw [Report.toList_illegal, List.append_assoc] at hl
  refine ⟨htakes.ordered, ⟨[k], htakes.ahead_eq, .right k .nil⟩, _, hl, ?_, ?_⟩
  · rw [List.filter_append, filter_isIllegal_of_lexical hlex, hline]
    rfl
  · rw [List.filter_append, filter_lexical_of_lexical hlex]
    exact hpending

/-- The current token is matched. -/
theorem accounts_match (hs : s.Ordered) (hc : s.current = some k) (b : Tree.Builder) :
    s.Accounts { s with tree := b }.advance.2 [k] [] := by
  have hs' : ({ s with tree := b } : State).Ordered := ⟨hs.orderly, hs.pending_eq_nil⟩
  have htakes := takes_advance hs' hc
  obtain ⟨l, hl, hlex, hpending⟩ := exists_report_advance hs'.orderly
  refine ⟨htakes.ordered, ⟨[k], htakes.ahead_eq, .left k .nil⟩, l, hl, ?_, ?_⟩
  · rw [filter_isIllegal_of_lexical hlex]
    rfl
  · rw [filter_lexical_of_lexical hlex]
    exact hpending

/-- On the way to the first token none is taken. -/
theorem accounts_ofSource (source : String) :
    (ofSource source).Accounts (ofSource source).advance.2 [] [] := by
  have htakes := takes_ofSource source
  obtain ⟨l, hl, hlex, hpending⟩ :=
    exists_report_advance (s := ofSource source) (Scan.orderly_ofSource source)
  refine ⟨htakes.ordered, ⟨[], htakes.ahead_eq, .nil⟩, l, hl, ?_, ?_⟩
  · rw [filter_isIllegal_of_lexical hlex]
    rfl
  · rw [filter_lexical_of_lexical hlex]
    exact hpending

end State

/-- In search of an alternative tokens are only skipped. -/
theorem Selects.accounts {q : Except Flow Alternative × State} (h : Selects e s q)
    (hs : s.Ordered) : ∃ skipped, s.Accounts q.2 [] skipped := by
  induction h with
  | chosen _ => exact ⟨[], .of_report_eq hs ⟨rfl, rfl⟩ rfl⟩
  | missing _ _ => exact ⟨[], .push hs rfl (fun h => nomatch h)⟩
  | ended _ _ _ => exact ⟨[], .push hs rfl (fun h => nomatch h)⟩
  | @cut _ _ k _ _ hc ha =>
      have hskip := State.accounts_skip hs hc
      rw [ha] at hskip
      exact ⟨[k], hskip⟩
  | @skip _ _ k _ _ _ hc ha _ ih =>
      have hskip := State.accounts_skip hs hc
      rw [ha] at hskip
      obtain ⟨skipped, hrest⟩ := ih hskip.ordered
      exact ⟨_, hskip.trans hrest⟩

theorem State.consume_of_deed_eq_nil {y : String} (h : s.deed (.consume y) = []) :
    s.consume y = (.proceed, { s with report := s.report.missing y s.line }) := by
  unfold deed at h
  unfold consume line
  split
  · rename_i k hc
    by_cases hk : k.terminal = y
    · simp [hc, hk] at h
    · rw [if_neg hk, hc]
  · rename_i hc
    rw [hc]

theorem State.expectEnd_of_deed_eq_nil (h : s.deed .expectEnd = []) :
    s.expectEnd = { s with report := s.report.missing "$" s.line } := by
  unfold deed at h
  unfold expectEnd line
  split
  · rename_i hc
    simp [hc] at h
  · rename_i k hc
    rw [hc]

/-- A step that derives no nonterminal takes only what it matches. -/
theorem Acts.accounts (h : Acts x s r) (hs : s.Ordered) :
    s.Accounts r.2 (tokensOf (s.deed x)) [] := by
  cases h with
  | consume x _ =>
      rcases s.consume_cases x with ⟨k, hc, rfl, hdeed, heq⟩ | ⟨_, _, _, hdeed, _⟩
      · rw [hdeed, heq]
        exact State.accounts_match hs hc _
      · rw [hdeed, State.consume_of_deed_eq_nil hdeed]
        exact .push hs rfl (fun h => nomatch h)
  | expectEnd _ =>
      rcases s.expectEnd_cases with ⟨_, hdeed, heq⟩ | ⟨_, _, _, hdeed, _⟩
      · rw [hdeed, heq]
        exact .of_report_eq hs ⟨rfl, rfl⟩ rfl
      · rw [hdeed, State.expectEnd_of_deed_eq_nil hdeed]
        exact .push hs rfl (fun h => nomatch h)
  | empty _ => exact .of_report_eq hs s.samePlace_deriveEmpty rfl
  | fire a _ =>
      have hplace := s.samePlace_fire a
      unfold State.fire at hplace ⊢
      split
      · exact .of_report_eq hs ⟨rfl, rfl⟩ rfl
      · exact .of_samePlace hs ⟨rfl, rfl⟩ (Report.toList_push ..)
          (by simpa using ⟨rfl, fun h => nomatch h⟩)

/-- What becomes of the tokens in a parse. -/
theorem Logs.accounts (h : Logs t steps s E r) (hs : s.Ordered) :
    ∃ skipped, s.Accounts r.2 (tokensOf E) skipped := by
  induction h with
  | nil s => exact ⟨[], .of_report_eq hs ⟨rfl, rfl⟩ rfl⟩
  | cons _ _ ih ihr =>
      obtain ⟨skipped, h⟩ := ih hs
      obtain ⟨skipped', h'⟩ := ihr h.ordered
      rw [tokensOf_append]
      exact ⟨_, h.trans h'⟩
  | halt _ _ ih => exact ih hs
  | act h =>
      rw [tokensOf_append, State.tokensOf_news, List.append_nil]
      exact ⟨[], h.accounts hs⟩
  | astray _ hsel =>
      rw [State.tokensOf_news]
      exact (selects_of_select_eq hsel).accounts hs
  | chosen _ hsel _ ih =>
      obtain ⟨skipped, h⟩ := (selects_of_select_eq hsel).accounts hs
      obtain ⟨skipped', h'⟩ := ih ⟨h.ordered.orderly, h.ordered.pending_eq_nil⟩
      rw [tokensOf_append, State.tokensOf_news]
      exact ⟨_, h.trans (h'.of_enter.leaveAll 1)⟩

/-! ## The end of the program -/

/-- When a parse is over early, there is no token any more. -/
theorem State.current_eq_none_of_advance (h : s.advance.1 = .halt) :
    s.advance.2.current = none := by
  have hover (s : State) (scans : List Scan) :
      (s.advanceOver scans).1 = .halt → (s.advanceOver scans).2.current = none := by
    fun_induction State.advanceOver s scans with
    | case1 s => exact fun _ => rfl
    | case2 s => exact fun _ => rfl
    | case3 s t rest _ ih => exact ih
    | case4 s t rest _ =>
        intro h
        cases h
    | case5 s f x n rest ih => exact ih
    | case6 s x n rest => exact fun _ => rfl
  exact hover s s.pending h

theorem Acts.current_eq_none (h : Acts x s r) (hr : r.1 = .halt) : r.2.current = none := by
  cases h with
  | consume x _ =>
      rcases s.consume_cases x with ⟨k, _, _, _, heq⟩ | ⟨d, _, _, _, heq⟩
      · rw [heq] at hr ⊢
        exact State.current_eq_none_of_advance hr
      · rw [heq] at hr
        cases hr
  | expectEnd _ => cases hr
  | empty _ => cases hr
  | fire a _ => cases hr

/-- No alternative is found if the nonterminal may be missing here, or if no token is left. -/
theorem Selects.of_error {flow : Flow} (h : Selects e s (.error flow, s')) :
    flow = .proceed ∧ s'.lookahead ∈ e.follow ∨ flow = .halt ∧ s'.current = none := by
  generalize hq : (Except.error flow, s') = q at h
  induction h with
  | chosen _ => cases hq
  | missing _ hf =>
      cases hq
      exact .inl ⟨rfl, hf⟩
  | ended _ _ hc =>
      cases hq
      exact .inr ⟨rfl, hc⟩
  | cut _ _ _ ha =>
      cases hq
      have hnone := State.current_eq_none_of_advance (congrArg Prod.fst ha)
      rw [ha] at hnone
      exact .inr ⟨rfl, hnone⟩
  | skip _ _ _ _ _ ih => exact ih hq

/-- Behind a closing nonterminal there is no token, whether it has been derived or is missing.
And there is none when the parse is over early. -/
theorem Runs.current_eq_none (hg : g.Closing xs) (h : Runs (.compute g) steps s r)
    (hw : steps = w.map (Table.step g.nonterminals))
    (hx : ∀ x, .nonterminal x ∈ w → x ∈ g.nonterminals)
    (hc : s.current = none ∨ r.1 = .halt ∨ ∃ x ∈ xs, .nonterminal x ∈ w) : r.2.current = none := by
  induction h generalizing w with
  | nil s =>
      cases List.map_eq_nil_iff.1 hw.symm
      rcases hc with hc | hc | ⟨x, _, hx⟩
      · exact hc
      · cases hc
      · cases hx
  | @cons _ rest s s' r h hr ih ihr =>
      obtain ⟨y, w, rfl, rfl, rfl⟩ := List.map_eq_cons_iff.1 hw.symm
      have hrest : s'.current = none ∨ r.1 = .halt ∨ (∃ x ∈ xs, .nonterminal x ∈ w) := by
        have hfirst := ih (w := [y]) rfl (fun x hm => hx x (by simp_all))
        rcases hc with hc | hc | ⟨x, hxs, hm⟩
        · exact .inl (hfirst (.inl hc))
        · exact .inr (.inl hc)
        · rcases List.mem_cons.1 hm with rfl | hm
          · exact .inl (hfirst (.inr (.inr ⟨x, hxs, List.mem_singleton.2 rfl⟩)))
          · exact .inr (.inr ⟨x, hxs, hm⟩)
      exact ihr rfl (fun x hm => hx x (List.mem_cons_of_mem y hm)) hrest
  | halt _ _ ih =>
      obtain ⟨y, w, rfl, rfl, rfl⟩ := List.map_eq_cons_iff.1 hw.symm
      exact ih (w := [y]) rfl (fun x hm => hx x (by simp_all)) (.inr (.inl rfl))
  | act h =>
      obtain ⟨y, rfl, rfl⟩ := List.map_eq_singleton_iff.1 hw.symm
      rcases hc with hc | hc | ⟨x, _, hm⟩
      · exact respected_current_eq_none.acts h hc
      · exact h.current_eq_none hc
      · cases List.mem_singleton.1 hm
        cases h
  | @astray _ _ s s' _ he hsel =>
      obtain ⟨x, _, rfl, rfl⟩ := Table.exists_entryOf hw hx he
      have hselects := selects_of_select_eq hsel
      rcases hselects.of_error with ⟨rfl, hf⟩ | ⟨_, hnone⟩
      · rcases hc with hc | hc | ⟨x', hxs, hm⟩
        · exact respected_current_eq_none.selects hselects hc
        · cases hc
        · cases List.mem_singleton.1 hm
          exact State.lookahead_eq_endMark_iff.1 ((hg x hxs).1 _ (LookaheadSet.mem_toList.2 hf))
      · exact hnone
  | @chosen _ _ _ s s' r he hsel _ ih =>
      obtain ⟨x, _, rfl, rfl⟩ := Table.exists_entryOf hw hx he
      have hselects := selects_of_select_eq hsel
      obtain ⟨p, hp, rfl, hl, rfl⟩ := exists_production_of_select hsel
      have hbody : s'.current = none ∨ r.1 = .halt ∨ (∃ y ∈ xs, .nonterminal y ∈ p.rhs) := by
        rcases hc with hc | hc | ⟨x', hxs, hm⟩
        · exact .inl (respected_current_eq_none.selects hselects hc)
        · exact .inr (.inl hc)
        · cases List.mem_singleton.1 hm
          rcases (hg p.lhs hxs).2 p (Grammar.mem_alternatives.2 ⟨hp, rfl⟩) with hend | hy
          · have hlook := hend _ (LookaheadSet.mem_toList.2 hl)
            exact .inl (State.lookahead_eq_endMark_iff.1 hlook)
          · exact .inr (.inr hy)
      exact ih rfl (fun x hm => Grammar.mem_nonterminals_of_mem_rhs hp hm) hbody

/-! ## The leaves of the tree -/

/-- The leaves for tokens among trees are those of the tokens that the trees have grown from. -/
theorem Grows.filter_fringeAll (ht : ∀ e ∈ t.entries, Token.isLabel e.name = false)
    (h : Grows t P steps cs ks) :
    (Tree.fringeAll cs).filter Token.isLabel = ks.map toString := by
  induction h with
  | nil => rw [Tree.fringeAll_nil, List.filter_nil, List.map_nil]
  | skip _ _ ih => exact ih
  | token k _ ih =>
      rw [Tree.fringeAll_cons, Tree.fringe_leaf, List.filter_append, ih,
        List.filter_cons_of_pos k.isLabel_toString, List.filter_nil]
      rfl
  | endMark _ ih =>
      rw [Tree.fringeAll_cons, Tree.fringe_leaf, List.filter_append, ih]
      rfl
  | epsilon _ ih =>
      rw [Tree.fringeAll_cons, Tree.fringe_leaf, List.filter_append, ih]
      rfl
  | node he _ _ _ ihc ih =>
      rw [Tree.fringeAll_cons, List.filter_append,
        Tree.filter_fringe_node (ht _ (Array.mem_of_getElem? he)), ihc, ih, List.map_append]

/-- The leaves for tokens are those of the tokens that have been matched.  If there is no tree at
all, then none has been. -/
theorem Logs.tokenLeaves_eq {id : Nat} (ht : ∀ e ∈ t.entries, Token.isLabel e.name = false)
    (h : Logs t [.expand id] s E r) (hs : s.tree = {}) :
    r.2.outcome.tokenLeaves = (tokensOf E).map toString := by
  rcases h.of_singleton with ⟨hact, _⟩ | ⟨_, e, _, he, hcase⟩
  · cases hact
  · rcases hcase with ⟨flow, s', hsel, rfl, rfl⟩ | ⟨a, s', E, r, hsel, hbody, rfl, rfl⟩
    · have htree : s'.tree = s.tree := (selects_of_select_eq hsel).tree_eq
      rw [State.tokensOf_news, Outcome.tokenLeaves, State.outcome, htree, hs]
      rfl
    · have htree : s'.tree = s.tree := (selects_of_select_eq hsel).tree_eq
      obtain ⟨cs, hgrows, hbuilt⟩ := hbody.grows (P := fun _ => True) (fun _ => trivial)
        (by simp [State.enter, Tree.Builder.enter]) (.inl fun _ => trivial)
      have hfinish : (r.2.leaveAll 1).tree.finish = some (.node e.name cs) := by
        change (r.2.tree.leaveAll 1).finish = _
        rw [hbuilt, State.enter, htree, hs]
        exact Tree.Builder.finish_leaveAll_addAll_enter rfl e.name
      rw [tokensOf_append, State.tokensOf_news, List.nil_append, Outcome.tokenLeaves,
        State.outcome, hfinish, Option.elim_some, Tree.leaves_eq_fringe,
        Tree.filter_fringe_node (ht e (Array.mem_of_getElem? he)), hgrows.filter_fringeAll ht]

/-! ## Whole programs -/

variable {source : String} {o : Outcome}

/-- When the end of the program is reached, all its tokens and all that is wrong with its text
have been accounted for. -/
theorem State.Accounts.of_current_eq_none (h : (ofSource source).Accounts s matched skipped)
    (hc : s.current = none) :
    Parted (tokenize source).significant matched skipped ∧
      s.report.toList.filter Diagnostic.isIllegal = skipped.map Token.illegal ∧
      s.report.toList.filter (·.kind = .lexical) = (tokenize source).diagnostics := by
  obtain ⟨ks, hahead, hparted⟩ := h.parted
  obtain ⟨l, hreport, hillegal, hlexical⟩ := h.report
  rw [ahead_of_current_eq_none h.ordered.pending_eq_nil hc, List.append_nil] at hahead
  rw [h.ordered.pending_eq_nil hc, List.filterMap_nil, List.append_nil] at hlexical
  have hall : s.report.toList = l := hreport
  rw [hall]
  refine ⟨?_, hillegal, hlexical⟩
  rw [← hahead] at hparted
  exact hparted

/-- Where the start symbol is closing, all tokens of the program are accounted for. -/
theorem History.parts_tokens (hg : g.Closing xs) (hstart : g.start ∈ xs)
    (hnames : ∀ x ∈ g.nonterminals, Token.isLabel x = false)
    (h : History (.compute g) source E o) :
    ∃ skipped, Parted (tokenize source).significant (tokensOf E) skipped ∧
      o.tokenLeaves = (tokensOf E).map toString ∧
      o.report.toList.filter Diagnostic.isIllegal = skipped.map Token.illegal ∧
      o.report.toList.filter (·.kind = .lexical) = (tokenize source).diagnostics := by
  have ht : ∀ e ∈ (Table.compute g).entries, Token.isLabel e.name = false := by
    intro e he
    rw [Table.entries_compute, List.mem_toArray, List.mem_map] at he
    obtain ⟨x, hx, rfl⟩ := he
    exact hnames x hx
  have hfirst := State.accounts_ofSource source
  have hroot : (State.ofSource source).advance.2.tree = {} := State.tree_advance _
  cases h with
  | cut ha =>
      have hnone := State.current_eq_none_of_advance (congrArg Prod.fst ha)
      rw [ha] at hfirst hroot hnone
      obtain ⟨hparted, hreports⟩ := hfirst.of_current_eq_none hnone
      rw [State.tokensOf_news]
      refine ⟨[], hparted, ?_, hreports⟩
      rw [Outcome.tokenLeaves, State.outcome, hroot]
      rfl
  | parsed ha hlogs =>
      rw [ha] at hfirst hroot
      obtain ⟨skipped, hrest⟩ := hlogs.accounts hfirst.ordered
      have hnone := hlogs.runs.current_eq_none hg (w := [.nonterminal g.start]) rfl
        (by simp [g.start_mem_nonterminals])
        (.inr (.inr ⟨g.start, hstart, List.mem_singleton.2 rfl⟩))
      obtain ⟨hparted, hreports⟩ := (hfirst.trans hrest).of_current_eq_none hnone
      rw [tokensOf_append, State.tokensOf_news, List.nil_append]
      exact ⟨_, hparted, hlogs.tokenLeaves_eq ht hroot, hreports⟩

/-- No token of a tone program is lost.  The tokens are parted into those that are matched, which
are the leaves for tokens in the derivation tree, from left to right, and those that are skipped,
each of which is reported on its own line, in their order.  And all that is wrong with the text
is reported, in its order. -/
theorem run_parts_tokens (source : String) :
    ∃ o matched skipped, run .tone source = some o ∧
      Parted (tokenize source).significant matched skipped ∧
      o.tokenLeaves = matched.map toString ∧
      o.report.toList.filter Diagnostic.isIllegal = skipped.map Token.illegal ∧
      o.report.toList.filter (·.kind = .lexical) = (tokenize source).diagnostics := by
  obtain ⟨o, hrun⟩ := exists_run Table.build_tone Grammar.anchored_tone.conclusive source
  obtain ⟨E, hist⟩ := exists_history hrun
  obtain ⟨skipped, h⟩ := hist.parts_tokens Grammar.closing_tone (by decide) (by decide)
  exact ⟨o, tokensOf E, skipped, hrun, h⟩

end Parse

end ToneScript
