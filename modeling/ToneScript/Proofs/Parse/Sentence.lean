import ToneScript.Proofs.Grammar.Derivation
import ToneScript.Proofs.Parse.Calls
import ToneScript.Proofs.Parse.Recognition

/-!
# The parse of a sentence

A sentence of a grammar without conflicts has a derivation tree, and the parser follows it: what
it matches and performs is what stands at the leaves of the tree, from left to right.  So it is
the tree that tells on which token an action is performed.  It is the first token to the right
of the action, no matter how many nonterminals end or vanish in between.

## Main definitions

* `Parse.lookaheadOf` — what a parser sees of the tokens ahead.
* `Parse.Retraces` — a parse goes along some leaves.

## Main statements

* `Parse.retraces_of_derivation` — the parser follows the derivation that there is.
* `Parse.run_performs_leaves` — the calls in the parse of a sentence.
-/

namespace ToneScript.Parse

open Grammar (Leaf)
open Machine (Call)

variable {g : Grammar} {t : Table} {p : Production} {u w : List Symbol} {x : Step}
  {steps : List Step} {s s' : State} {ks rest : List Token} {ls ls' : List (Leaf Token)}
  {source : String}

/-! ## Look-aheads -/

/-- What a parser sees of the tokens ahead. -/
def lookaheadOf : List Token → Lookahead
  | [] => .endMark
  | k :: _ => .terminal k.terminal

theorem lookaheadOf_ne_empty (ks : List Token) : lookaheadOf ks ≠ .empty := by
  cases ks <;> exact fun h => nomatch h

theorem State.Settled.ordered (hs : s.Settled) : s.Ordered := by
  refine ⟨?_, hs.pending_eq_nil⟩
  have hplain := hs.plain
  generalize s.pending = scans at hplain
  induction scans with
  | nil => exact .nil
  | cons c scans ih =>
      rw [List.forall_mem_cons] at hplain
      exact .cons hplain.1 (ih hplain.2)

theorem State.Settled.lookahead_eq (hs : s.Settled) : s.lookahead = lookaheadOf s.ahead := by
  cases hc : s.current with
  | none =>
      rw [ahead_of_current_eq_none hs.pending_eq_nil hc, lookahead, hc]
      rfl
  | some k =>
      rw [ahead_eq_cons hc, lookahead, hc]
      rfl

/-- The first symbol at the leaves is what a parser sees. -/
theorem symbol?_lookaheadOf {c : Symbol} {z : List Symbol}
    (h : Leaf.word Token.terminal ls = c :: z) (he : Leaf.EndsBefore rest ls) :
    (lookaheadOf (Leaf.tokens ls ++ rest)).symbol? = some c := by
  induction ls with
  | nil => cases h
  | cons l ls ih =>
      cases l with
      | token k =>
          cases h
          rfl
      | action a => exact ih h he
      | endMark =>
          cases h
          change (lookaheadOf (Leaf.tokens ls ++ rest)).symbol? = _
          rw [he.1]
          rfl

/-- Before a sequence that is derived, the parser sees what the sequence begins with, or what
`L` holds if that is what comes behind. -/
theorem lookaheadOf_mem {L : LookaheadSet} (D : g.Derivation Token.terminal w)
    (he : Leaf.EndsBefore rest D.leaves) (hl : lookaheadOf rest ∈ L) :
    lookaheadOf (D.tokens ++ rest) ∈ (firstOf g.firstSets w).followedBy L := by
  have hd := D.derives
  rw [Grammar.mem_followedBy_firstOf]
  cases hw : Leaf.word Token.terminal D.leaves with
  | nil =>
      have hnames := Leaf.terminalsOf_word Token.terminal D.leaves
      rw [hw] at hnames hd
      have htokens : D.tokens = [] := List.map_eq_nil_iff.1 hnames.symm
      rw [htokens]
      exact .inr ⟨hd, hl⟩
  | cons c z =>
      rw [hw] at hd
      have hsymbol := symbol?_lookaheadOf hw he
      exact .inl ⟨(Grammar.shows_iff_exists_rewrites hsymbol).2 ⟨z, hd.rewrites⟩,
        lookaheadOf_ne_empty _⟩

/-! ## Going along leaves -/

/-- The steps go along the leaves, with nothing out of place, up to the tokens `rest`. -/
def Retraces (t : Table) (steps : List Step) (s : State) (ls : List (Leaf Token))
    (rest : List Token) : Prop :=
  ∃ E s', Logs t steps s E (.proceed, s') ∧ s'.Settled ∧ s'.ahead = rest ∧ Clean E ∧
    leavesOf E = ls

namespace Retraces

theorem nil (hs : s.Settled) : Retraces t [] s [] s.ahead :=
  ⟨[], s, .nil s, hs, rfl, clean_nil, rfl⟩

theorem cons (h : Retraces t [x] s ls ks)
    (hrest : ∀ s', s'.Settled → s'.ahead = ks → Retraces t steps s' ls' rest) :
    Retraces t (x :: steps) s (ls ++ ls') rest := by
  obtain ⟨E, s₁, hlog, hset, hahead, hc, rfl⟩ := h
  obtain ⟨E', s₂, hlog', hset', hahead', hc', rfl⟩ := hrest s₁ hset hahead
  exact ⟨E ++ E', s₂, .cons hlog hlog', hset', hahead', clean_append.2 ⟨hc, hc'⟩,
    leavesOf_append ..⟩

/-- A token is matched by its terminal. -/
theorem token {k : Token} (hs : s.Settled) (ha : s.ahead = k :: ks) :
    Retraces t [.consume k.terminal] s [.token k] ks := by
  have hc := State.current_eq_of_ahead hs.pending_eq_nil ha
  obtain ⟨s', heq, hadv⟩ := State.exists_consume hs.plain hc
  have hact := Acts.consume k.terminal s
  have hdeed : s.deed (.consume k.terminal) = [.matched k] := by simp [State.deed, hc]
  have hclean := hact.clean_or_fault.resolve_right (by
    rw [hdeed]
    rintro ⟨d, hd, _⟩
    cases (List.cons.inj hd).1)
  rw [heq] at hact hclean
  rw [State.ahead_eq_cons hc] at ha
  refine ⟨_, s', .act hact, hadv.settled, hadv.ahead_eq.trans (List.cons.inj ha).2, hclean, ?_⟩
  rw [leavesOf_append, leavesOf_news, List.append_nil, hdeed]
  rfl

/-- What takes no token stays where it is. -/
theorem of_samePlace (hs : s.Settled) (h : Acts x s (.proceed, s')) (hplace : s.SamePlace s')
    (hc : Clean (s.deed x ++ s.news s')) : Retraces t [x] s (leavesOf (s.deed x)) s.ahead := by
  refine ⟨_, s', .act h, hplace.settled hs, hplace.ahead_eq, hc, ?_⟩
  rw [leavesOf_append, leavesOf_news, List.append_nil]

/-- The end of the program is matched. -/
theorem endMark (hs : s.Settled) (ha : s.ahead = []) : Retraces t [.expectEnd] s [.endMark] [] := by
  have hc := State.current_eq_none_of_ahead ha
  have hdeed : s.deed .expectEnd = [.ended] := by simp [State.deed, hc]
  have hclean := (Acts.expectEnd s).clean_or_fault.resolve_right (by
    rw [hdeed]
    rintro ⟨d, hd, _⟩
    cases (List.cons.inj hd).1)
  have h := of_samePlace (t := t) hs (.expectEnd s) s.samePlace_expectEnd hclean
  rwa [hdeed, ha] at h

/-- The empty sequence is matched. -/
theorem epsilon (hs : s.Settled) : Retraces t [.empty] s [] s.ahead := by
  refine of_samePlace hs (.empty s) s.samePlace_deriveEmpty ?_
  have hnews : s.news s.deriveEmpty = [] := State.news_eq_nil rfl
  rw [hnews]
  exact clean_append.2 ⟨s.clean_deed _, clean_nil⟩

/-- An action is performed. -/
theorem action (hs : s.Settled) (a : Action) : Retraces t [.fire a] s [.action a] s.ahead := by
  refine of_samePlace hs (.fire a s) (s.samePlace_fire a) ?_
  refine (Acts.fire a s).clean_or_fault.resolve_right ?_
  rintro ⟨d, hd, _⟩
  cases (List.cons.inj hd).1

/-- A nonterminal is derived by the production that the look-ahead allows. -/
theorem node (hg : g.Predictive) (hp : p ∈ g.productions) (hs : s.Settled)
    (hl : lookaheadOf s.ahead ∈ g.predict p)
    (h : Retraces (.compute g) (p.rhs.map (Table.step g.nonterminals)) (s.enter p.lhs) ls rest) :
    Retraces (.compute g) [.expand (g.nonterminals.idxOf p.lhs)] s ls rest := by
  obtain ⟨E, s', hlog, hset, hahead, hc, rfl⟩ := h
  rw [← hs.lookahead_eq] at hl
  have he := Table.getElem?_entries_compute (Grammar.mem_nonterminals.2 ⟨p, hp, rfl⟩)
  have hsel := (Selects.chosen (Table.select?_entryOf hg hp hl)).eq
  refine ⟨_, _, .chosen he hsel hlog, (s'.samePlace_leaveAll 1).settled hset, hahead, ?_, ?_⟩
  · rw [State.news_eq_nil rfl]
    exact hc
  · rw [leavesOf_append, leavesOf_news, List.nil_append]

end Retraces

/-! ## The parser follows the derivation -/

/-- Along the rest of a right-hand side the parser goes along the leaves of the trees that stand
before something that can follow. -/
theorem retraces_of_derivation (hg : g.Predictive) (D : g.Derivation Token.terminal w)
    (hp : p ∈ g.productions) (hw : p.rhs = u ++ w) (hs : s.Settled)
    (ha : s.ahead = D.tokens ++ rest) (he : Leaf.EndsBefore rest D.leaves)
    (hl : lookaheadOf rest ∈ g.follow p.lhs) :
    Retraces (.compute g) (w.map (Table.step g.nonterminals)) s D.leaves rest := by
  have hfollow := Grammar.followClosed_followSets g g.firstSets
  induction D generalizing p u s rest with
  | nil =>
      have hrest : s.ahead = rest := ha
      rw [← hrest]
      exact .nil hs
  | @token x w k hk D ih =>
      subst hk
      refine .cons (.token hs ha) (fun s' hs' ha' => ?_)
      exact ih hp (u := u ++ [.terminal k.terminal]) (by simp [hw]) hs' ha' he hl
  | @endMark w D ih =>
      have hahead : s.ahead = [] := ha.trans he.1
      refine .cons (.endMark hs hahead) (fun s' hs' ha' => ?_)
      exact ih hp (u := u ++ [.endMark]) (by simp [hw]) hs' (ha'.trans he.1.symm) he.2 hl
  | @epsilon w D ih =>
      refine .cons (.epsilon hs) (fun s' hs' ha' => ?_)
      exact ih hp (u := u ++ [.epsilon]) (by simp [hw]) hs' (ha'.trans ha) he hl
  | @action w a D ih =>
      refine .cons (.action hs a) (fun s' hs' ha' => ?_)
      exact ih hp (u := u ++ [.action a]) (by simp [hw]) hs' (ha'.trans ha) he hl
  | @node x w q hq hx below D ihbelow ih =>
      subst hx
      obtain ⟨hebelow, he'⟩ := Leaf.endsBefore_append.1 he
      rw [Grammar.Derivation.tokens_node, List.append_assoc] at ha
      -- what the rest begins with, or what follows it, follows the nonterminal
      have hbehind : lookaheadOf (D.tokens ++ rest) ∈ g.follow q.lhs :=
        hfollow.subset_getD hp hw _ (lookaheadOf_mem D he' hl)
      have hpredict : lookaheadOf s.ahead ∈ g.predict q := by
        rw [ha]
        exact lookaheadOf_mem below hebelow hbehind
      have hbody := ihbelow hq (u := []) rfl ((s.samePlace_enter q.lhs).settled hs) ha hebelow
        hbehind
      refine .cons (.node hg hq hs hpredict hbody) (fun s' hs' ha' => ?_)
      exact ih hp (u := u ++ [.nonterminal q.lhs]) (by simp [hw]) hs' ha' he' hl

/-- From the start symbol on it goes along all leaves. -/
theorem retraces_start (hpred : g.Predictive) (hg : g.Anchored)
    (D : g.Derivation Token.terminal [.nonterminal g.start]) (hs : s.Settled)
    (ha : s.ahead = D.tokens) :
    Retraces (.compute g) [.expand (Table.compute g).start] s D.leaves [] := by
  have hfollow := Grammar.followClosed_followSets g g.firstSets
  have hend := hg.endsBefore_nil D
  rw [Table.start_compute]
  cases D with
  | node p hp hx below rest =>
      cases rest
      have hl : lookaheadOf [] ∈ g.follow p.lhs := by
        rw [hx]
        exact hfollow.endMark_mem
      obtain ⟨hebelow, _⟩ := Leaf.endsBefore_append.1 hend
      have hahead : s.ahead = below.tokens ++ [] := by
        rw [ha, Grammar.Derivation.tokens_node]
        rfl
      have hpredict : lookaheadOf s.ahead ∈ g.predict p := by
        rw [hahead]
        exact lookaheadOf_mem below hebelow hl
      have hbody := retraces_of_derivation hpred below hp (u := []) rfl
        ((s.samePlace_enter p.lhs).settled hs) hahead hebelow hl
      have hnode := Retraces.node hpred hp hs hpredict hbody
      rw [hx] at hnode
      rwa [← List.append_nil below.leaves] at hnode

/-! ## Whole programs -/

/-- The calls are those for the actions at the leaves of the derivation tree. -/
theorem exists_history_of_derivation (hpred : g.Predictive) (hg : g.Anchored)
    (hs : ∀ text n, Scan.truncated text n ∉ Scan.ofSource source)
    (D : g.Derivation Token.terminal [.nonterminal g.start])
    (hD : D.tokens = (tokenize source).significant) :
    ∃ o E, History (.compute g) source E o ∧ callsOf E = callsAlong (endLine source) D.leaves := by
  obtain ⟨s, ha, hadv⟩ := State.exists_advance (s := .ofSource source)
    (Scan.isPlain_of_mem_ofSource hs)
  have hahead : s.ahead = D.tokens := hadv.ahead_eq.trans hD.symm
  obtain ⟨E, s', hlog, _, hrest, hc, hleaves⟩ := retraces_start hpred hg D hadv.settled hahead
  refine ⟨_, _, .parsed ha hlog, ?_⟩
  have hcalls := hlog.callsOf_eq hadv.settled.ordered hc
  have hline : s.lastLine = endLine source := by
    have htakes := State.takes_ofSource source
    rw [ha] at htakes
    exact htakes.lastLine_eq
  rw [callsOf_append, callsOf_news, List.nil_append, hcalls, hleaves, hrest, hline, List.map_nil,
    List.append_nil]

/-- In the parse of a sentence the actions are performed that stand in its derivation tree, from
left to right, each on the first token to its right, or on the empty text and the last line where
no token is left.  Nothing else is done to the evaluator. -/
theorem run_performs_leaves (ht : Table.build g = .ok t) (hg : g.Anchored)
    (hs : ∀ text n, Scan.truncated text n ∉ Scan.ofSource source)
    (hsentence : g.Sentence ((tokenize source).significant.map Token.terminal)) :
    ∃ o E, run t source = some o ∧ History t source E o ∧
      (∃ D : g.Derivation Token.terminal [.nonterminal g.start],
        D.tokens = (tokenize source).significant) ∧
      (∀ D : g.Derivation Token.terminal [.nonterminal g.start],
        D.tokens = (tokenize source).significant →
          callsOf E = callsAlong (endLine source) D.leaves) ∧
      o.output = (Machine.performAll {} (callsOf E)).1.output ∧
      o.report.toList.filter (·.kind = .logical) = (Machine.performAll {} (callsOf E)).2 := by
  obtain ⟨rfl, hpred⟩ := Table.build_eq_ok ht
  obtain ⟨D₀, hD₀⟩ := hsentence.exists_derivation
  obtain ⟨o, E, hist, _⟩ := exists_history_of_derivation hpred hg hs D₀ hD₀
  refine ⟨o, E, hist.run_eq, hist, ⟨D₀, hD₀⟩, fun D hD => ?_, hist.performAll_eq⟩
  obtain ⟨o', E', hist', hcalls⟩ := exists_history_of_derivation hpred hg hs D hD
  rwa [hist.unique hist']

/-- The derivation tree of a product over two lines. -/
def productTree : Grammar.tone.Derivation Token.terminal [.nonterminal "Program"] :=
  .node ⟨"Program", _⟩ (by decide) rfl
    (.node ⟨"ProgramBody", _⟩ (by decide) rfl
      (.node ⟨"FactorNoId", _⟩ (by decide) rfl
          (.action .pushString (.token ⟨.literal, "\"o\"", 1⟩ rfl .nil))
        (.node ⟨"TermPrime", _⟩ (by decide) rfl
            (.token ⟨.symbol, "*", 1⟩ rfl
              (.node ⟨"Factor", _⟩ (by decide) rfl
                  (.action .pushNumber (.token ⟨.number, "2", 2⟩ rfl .nil))
                (.action .multiply
                  (.node ⟨"TermPrime", _⟩ (by decide) rfl (.epsilon .nil) .nil))))
          (.node ⟨"ExprPrime", _⟩ (by decide) rfl (.epsilon .nil)
            (.token ⟨.symbol, ";", 2⟩ rfl
              (.node ⟨"ProgramRest", _⟩ (by decide) rfl (.epsilon .nil) .nil)))))
      (.action .printFinalResult (.endMark .nil)))
    .nil

/-- The number is pushed with its own text and line, although the product began on the first
line, and the product is formed when the parser has come to the semicolon. -/
theorem run_performs_leaves_product :
    ∃ o E, run .tone "\"o\" *\n2;" = some o ∧ History .tone "\"o\" *\n2;" E o ∧
      callsOf E = [⟨.pushString, "\"o\"", 1⟩, ⟨.pushNumber, "2", 2⟩, ⟨.multiply, ";", 2⟩,
        ⟨.printFinalResult, "", 2⟩] ∧ o.output = some "oo" := by
  have hplain : (Scan.ofSource "\"o\" *\n2;").all Scan.isPlain := by decide +kernel
  have hs : ∀ text n, Scan.truncated text n ∉ Scan.ofSource "\"o\" *\n2;" := by
    intro text n h
    exact absurd (List.all_eq_true.1 hplain _ h) (by simp [Scan.isPlain])
  have htokens : productTree.tokens = (tokenize "\"o\" *\n2;").significant := by decide +kernel
  have hsentence : Grammar.tone.Sentence
      ((tokenize "\"o\" *\n2;").significant.map Token.terminal) := by
    have h := Grammar.anchored_tone.sentence_of_derives productTree.derives
    rwa [Leaf.terminalsOf_word, ← Grammar.Derivation.tokens, htokens] at h
  obtain ⟨o, E, hrun, hist, _, hcalls, houtput, _⟩ :=
    run_performs_leaves Table.build_tone Grammar.anchored_tone hs hsentence
  have hE := hcalls productTree htokens
  refine ⟨o, E, hrun, hist, hE.trans (by decide +kernel), ?_⟩
  rw [houtput, hE]
  decide +kernel

end ToneScript.Parse
