import ToneScript.Proofs.Grammar.Derivation
import ToneScript.Proofs.Parse.Order

/-!
# The actions of a parse

All that a parse does to the evaluator are the actions that it performs.  So the evaluator, and
what it reports, can be computed from the calls in the history of the parse, without the parser.

What the actions are performed on is told by the current token.  In a parse without anything
out of place that is the token which is matched next, and where nothing is matched any more it
is the end of the program.

## Main definitions

* `Machine.Call`, `Machine.performAll` — actions with what they are performed on.
* `Parse.callsOf`, `Parse.leavesOf` — the calls in a history, and what stands at the leaves of
  the derivation that it follows.
* `Parse.callsAlong` — the calls for the actions among some leaves.

## Main statements

* `Parse.Logs.performAll_eq`, `Parse.History.performAll_eq` — the evaluator after a parse is the
  evaluator after its calls.
* `Parse.Logs.callsOf_eq` — in a clean parse every action is performed on the next token.
-/

namespace ToneScript

/-- An action, and the text and the line that it is performed on. -/
structure Machine.Call where
  /-- The action. -/
  action : Action
  /-- The text of a token, or none at the end of the program. -/
  lexeme : String
  /-- The line on which a failure is reported. -/
  line : Nat
deriving DecidableEq, Repr

namespace Machine

/-- The machine after some calls, and what they report. -/
def performAll (m : Machine) : List Call → Machine × List Diagnostic
  | [] => (m, [])
  | c :: cs =>
    let r := m.perform c.action c.lexeme
    let rest := r.1.performAll cs
    (rest.1, (r.2.map fun f => ⟨c.line, .action f⟩).toList ++ rest.2)

@[simp] theorem performAll_nil (m : Machine) : m.performAll [] = (m, []) := rfl

theorem performAll_append (m : Machine) (cs cs' : List Call) :
    m.performAll (cs ++ cs') =
      (((m.performAll cs).1.performAll cs').1,
        (m.performAll cs).2 ++ ((m.performAll cs).1.performAll cs').2) := by
  induction cs generalizing m with
  | nil => rfl
  | cons c cs ih => simp only [List.cons_append, performAll, ih, List.append_assoc]

end Machine

namespace Parse

open Grammar (Leaf)
open Machine (Call)

variable {t : Table} {e : Entry} {x : Step} {steps : List Step} {s s' s₁ s₂ : State}
  {r : Flow × State} {E : List Event} {d : Diagnostic}

/-! ## Calls and leaves of a history -/

/-- The call that is made. -/
def Event.call? : Event → Option Call
  | performed a lexeme line => some ⟨a, lexeme, line⟩
  | _ => none

/-- What an event puts at a leaf of the derivation. -/
def Event.leaf? : Event → Option (Leaf Token)
  | matched k => some (.token k)
  | ended => some .endMark
  | performed a _ _ => some (.action a)
  | reported _ => none

/-- The calls in a history. -/
def callsOf (E : List Event) : List Call := E.filterMap Event.call?

/-- What a history puts at the leaves of the derivation. -/
def leavesOf (E : List Event) : List (Leaf Token) := E.filterMap Event.leaf?

@[simp] theorem callsOf_append (E E' : List Event) :
    callsOf (E ++ E') = callsOf E ++ callsOf E' := List.filterMap_append ..

@[simp] theorem leavesOf_append (E E' : List Event) :
    leavesOf (E ++ E') = leavesOf E ++ leavesOf E' := List.filterMap_append ..

@[simp] theorem callsOf_map_reported (l : List Diagnostic) : callsOf (l.map .reported) = [] := by
  simp [callsOf, Event.call?]

@[simp] theorem leavesOf_map_reported (l : List Diagnostic) : leavesOf (l.map .reported) = [] := by
  simp [leavesOf, Event.leaf?]

@[simp] theorem callsOf_news (s s' : State) : callsOf (s.news s') = [] := callsOf_map_reported _

@[simp] theorem leavesOf_news (s s' : State) : leavesOf (s.news s') = [] := leavesOf_map_reported _

/-- Only an action makes a call, and on the current token. -/
theorem State.exists_of_mem_callsOf_deed {c : Call} (h : c ∈ callsOf (s.deed x)) :
    ∃ a, x = .fire a ∧ c = ⟨a, s.lexeme, s.line⟩ := by
  cases x with
  | consume y =>
      rcases s.consume_cases y with ⟨k, _, _, hdeed, _⟩ | ⟨d, _, _, hdeed, _⟩
      · rw [hdeed] at h
        cases h
      · rw [hdeed] at h
        cases h
  | expectEnd =>
      rcases s.expectEnd_cases with ⟨_, hdeed, _⟩ | ⟨d, _, _, hdeed, _⟩
      · rw [hdeed] at h
        cases h
      · rw [hdeed] at h
        cases h
  | expand id => cases h
  | empty => cases h
  | fire a =>
      cases List.mem_singleton.1 h
      exact ⟨a, rfl, rfl⟩

theorem tokens_leavesOf (E : List Event) : Leaf.tokens (leavesOf E) = tokensOf E := by
  have hevent : ∀ v : Event, v.leaf?.bind Leaf.token? = v.token? := by
    intro v
    cases v <;> rfl
  simp only [Leaf.tokens, leavesOf, tokensOf, List.filterMap_filterMap, hevent]

/-! ## The evaluator -/

/-- Between two states no action is performed, and none is reported to have failed. -/
structure State.Idles (s s' : State) : Prop where
  machine_eq : s'.machine = s.machine
  filter_news : (reportOf (s.news s')).filter (·.kind = .logical) = []

theorem State.machine_advanceOver (s : State) (scans : List Scan) :
    (s.advanceOver scans).2.machine = s.machine := by
  fun_induction State.advanceOver s scans with
  | case1 s => rfl
  | case2 s => rfl
  | case3 s t rest _ ih => exact ih
  | case4 s t rest _ => rfl
  | case5 s f x n rest ih => exact ih
  | case6 s x n rest => rfl

namespace State.Idles

/-- What matters is what is reported in between. -/
theorem of_report_eq {l : List Diagnostic} (hm : s'.machine = s.machine)
    (hr : s'.report.toList = s.report.toList ++ l) (hl : ∀ d ∈ l, d.kind ≠ .logical) :
    s.Idles s' := by
  refine ⟨hm, ?_⟩
  rw [news_of_report_eq hr, reportOf_map_reported, List.filter_eq_nil_iff]
  simpa using hl

theorem of_eq (hm : s'.machine = s.machine) (hr : s'.report = s.report) : s.Idles s' :=
  of_report_eq (l := []) hm (by rw [hr, List.append_nil]) (fun _ hd => absurd hd List.not_mem_nil)

theorem push (s : State) (hd : d.kind ≠ .logical) : s.Idles { s with report := s.report.push d } :=
  of_report_eq rfl (Report.toList_push ..) (by simpa using hd)

theorem advance (s : State) : s.Idles s.advance.2 := by
  obtain ⟨l, hl, hlex⟩ := exists_report_advanceOver s s.pending
  exact of_report_eq (s.machine_advanceOver _) hl (fun d hd => by simp [hlex d hd])

theorem trans (h : s.Idles s₁) (h' : s₁.Idles s₂) (hp : s.report.toList <+: s₁.report.toList)
    (hp' : s₁.report.toList <+: s₂.report.toList) : s.Idles s₂ := by
  have hfirst := report_eq_of_prefix hp
  have hreport := report_eq_of_prefix hp'
  rw [hfirst, List.append_assoc] at hreport
  refine of_report_eq (h'.machine_eq.trans h.machine_eq) hreport ?_
  have hboth : (reportOf (s.news s₁) ++ reportOf (s₁.news s₂)).filter (·.kind = .logical) = [] := by
    rw [List.filter_append, h.filter_news, h'.filter_news, List.append_nil]
  simpa [List.filter_eq_nil_iff, or_imp, forall_and] using hboth

end State.Idles

/-- In search of an alternative no action is performed. -/
theorem Selects.idles {q : Except Flow Alternative × State} (h : Selects e s q) : s.Idles q.2 := by
  have hskip {s s' : State} {k : Token} {flow : Flow}
      (ha : { s with report := s.report.illegal k.terminal s.line }.advance = (flow, s')) :
      s.Idles s' := by
    have hpush : s.Idles { s with report := s.report.illegal k.terminal s.line } :=
      .push s (fun h => nomatch h)
    have hadvance :=
      State.Idles.advance { s with report := s.report.illegal k.terminal s.line }
    rw [ha] at hadvance
    refine hpush.trans hadvance ?_ (State.prefix_of_advance_eq ha)
    rw [Report.toList_illegal]
    exact List.prefix_append _ _
  induction h with
  | chosen _ => exact .of_eq rfl rfl
  | missing _ _ => exact .push _ (fun h => nomatch h)
  | ended _ _ _ => exact .push _ (fun h => nomatch h)
  | cut _ _ _ ha => exact hskip ha
  | @skip s s' k r _ _ _ ha hr ih =>
      refine (hskip ha).trans ih ?_ (respected_report.selects hr)
      have hp := State.prefix_of_advance_eq ha
      rw [Report.toList_illegal] at hp
      exact (List.prefix_append _ _).trans hp

/-- A step that derives no nonterminal does to the evaluator what its call does. -/
theorem Acts.performAll_eq (h : Acts x s r) :
    s.machine.performAll (callsOf (s.deed x)) =
      (r.2.machine, (reportOf (s.news r.2)).filter (·.kind = .logical)) := by
  have hidle {y : Step} {s' : State} (hdeed : callsOf (s.deed y) = []) (h : s.Idles s') :
      s.machine.performAll (callsOf (s.deed y)) =
        (s'.machine, (reportOf (s.news s')).filter (·.kind = .logical)) := by
    rw [hdeed, h.filter_news, h.machine_eq, Machine.performAll_nil]
  cases h with
  | consume x s =>
      rcases s.consume_cases x with ⟨k, _, rfl, hdeed, heq⟩ | ⟨d, hd, _, hdeed, heq⟩
      · rw [heq]
        refine hidle (by rw [hdeed]; rfl) ?_
        obtain ⟨hm, hnews⟩ :=
          State.Idles.advance { s with tree := s.tree.addLeaf (toString k) }
        exact ⟨hm, hnews⟩
      · rw [heq]
        exact hidle (by rw [hdeed]; rfl) (.push s (by simp [hd]))
  | expectEnd s =>
      rcases s.expectEnd_cases with ⟨_, hdeed, heq⟩ | ⟨d, hd, _, hdeed, heq⟩
      · rw [heq]
        exact hidle (by rw [hdeed]; rfl) (.of_eq rfl rfl)
      · rw [heq]
        exact hidle (by rw [hdeed]; rfl) (.push s (by simp [hd]))
  | empty s => exact hidle (y := .empty) rfl (.of_eq rfl rfl)
  | fire a s =>
      change ((s.machine.perform a s.lexeme).1, _ ++ []) = _
      rw [List.append_nil, State.fire]
      split
      · rename_i m hperform
        have hnews : s.news { s with machine := m } = [] := State.news_eq_nil rfl
        rw [hperform, hnews]
        rfl
      · rename_i m f hperform
        have hnews : s.news { s with machine := m, report := s.report.push ⟨s.line, .action f⟩ } =
            [.reported ⟨s.line, .action f⟩] := s.news_push _
        rw [hperform, hnews]
        rfl

/-- All that is done to the evaluator is done by the calls, and what is reported of it is what
they report. -/
theorem Logs.performAll_eq (h : Logs t steps s E r) :
    s.machine.performAll (callsOf E) =
      (r.2.machine, (reportOf E).filter (·.kind = .logical)) := by
  induction h with
  | nil s => rfl
  | cons _ _ ih ihr =>
      rw [callsOf_append, Machine.performAll_append, ih, ihr, reportOf_append, List.filter_append]
  | halt _ _ ih => exact ih
  | act h =>
      rw [callsOf_append, callsOf_news, List.append_nil, h.performAll_eq, reportOf_append,
        State.reportOf_deed, List.nil_append]
  | astray _ hs =>
      obtain ⟨hm, hnews⟩ := (selects_of_select_eq hs).idles
      rw [callsOf_news, hnews, Machine.performAll_nil]
      exact congrArg (·, []) hm.symm
  | @chosen _ _ _ s s' _ E _ hs _ ih =>
      obtain ⟨hm, hnews⟩ := (selects_of_select_eq hs).idles
      rw [callsOf_append, callsOf_news, List.nil_append, reportOf_append, List.filter_append,
        hnews, List.nil_append, ← hm]
      exact ih

/-- What the outcome tells of the evaluator can be computed from the calls alone. -/
theorem History.performAll_eq {source : String} {o : Outcome} (h : History t source E o) :
    o.output = (Machine.performAll {} (callsOf E)).1.output ∧
      o.report.toList.filter (·.kind = .logical) = (Machine.performAll {} (callsOf E)).2 := by
  have hfirst := State.Idles.advance (.ofSource source)
  rw [h.report_eq]
  cases h with
  | cut ha =>
      rw [ha] at hfirst
      rw [callsOf_news, hfirst.filter_news]
      exact ⟨congrArg Machine.output hfirst.machine_eq, rfl⟩
  | @parsed s E r ha hE =>
      rw [ha] at hfirst
      have hm : s.machine = {} := hfirst.machine_eq
      rw [callsOf_append, callsOf_news, List.nil_append, reportOf_append, List.filter_append,
        hfirst.filter_news, List.nil_append, ← hm, hE.performAll_eq]
      exact ⟨rfl, rfl⟩

/-! ## What the actions are performed on -/

/-- The calls for the actions among some leaves.  Each is performed on the first token to its
right; where there is none, on the empty text, and on the line `last`. -/
def callsAlong (last : Nat) : List (Leaf Token) → List Call
  | [] => []
  | .action a :: ls =>
    let next := (Leaf.tokens ls).head?
    ⟨a, (next.map Token.text).getD "", (next.map Token.line).getD last⟩ :: callsAlong last ls
  | .token _ :: ls | .endMark :: ls => callsAlong last ls

@[simp] theorem callsAlong_map_token (last : Nat) (ks : List Token) :
    callsAlong last (ks.map .token) = [] := by
  induction ks with
  | nil => rfl
  | cons k ks ih => exact ih

/-- Of what comes behind some leaves, only the tokens matter to them. -/
theorem callsAlong_append (last : Nat) (ls ls' : List (Leaf Token)) :
    callsAlong last (ls ++ ls') =
      callsAlong last (ls ++ (Leaf.tokens ls').map .token) ++ callsAlong last ls' := by
  induction ls with
  | nil => rw [List.nil_append, List.nil_append, callsAlong_map_token, List.nil_append]
  | cons l ls ih =>
      cases l with
      | token k => exact ih
      | endMark => exact ih
      | action a =>
          simp only [List.cons_append, callsAlong, ih, Leaf.tokens_append,
            Leaf.tokens_map_token]

/-- The text of the next token, or none. -/
theorem State.Ordered.lexeme_eq (hs : s.Ordered) :
    s.lexeme = (s.ahead.head?.map Token.text).getD "" := by
  cases hc : s.current with
  | none =>
      rw [ahead_of_current_eq_none hs.pending_eq_nil hc, lexeme, hc]
      rfl
  | some k =>
      rw [ahead_eq_cons hc, lexeme, hc]
      rfl

/-- The call of an action is made on the token that is ahead. -/
theorem Acts.callsOf_eq (h : Acts x s r) (hs : s.Ordered) :
    callsOf (s.deed x) =
      callsAlong s.lastLine (leavesOf (s.deed x) ++ r.2.ahead.map .token) := by
  cases h with
  | consume x s =>
      rcases s.consume_cases x with ⟨k, _, _, hdeed, _⟩ | ⟨d, _, _, hdeed, _⟩
      · rw [hdeed]
        exact (callsAlong_map_token ..).symm
      · rw [hdeed]
        exact (callsAlong_map_token ..).symm
  | expectEnd s =>
      rcases s.expectEnd_cases with ⟨_, hdeed, _⟩ | ⟨d, _, _, hdeed, _⟩
      · rw [hdeed]
        exact (callsAlong_map_token ..).symm
      · rw [hdeed]
        exact (callsAlong_map_token ..).symm
  | empty s => exact (callsAlong_map_token ..).symm
  | fire a s =>
      change [Call.mk a s.lexeme s.line] =
        callsAlong s.lastLine (.action a :: (s.fire a).ahead.map .token)
      rw [callsAlong, callsAlong_map_token, Leaf.tokens_map_token,
        (s.samePlace_fire a).ahead_eq, hs.lexeme_eq, hs.line_eq]

/-- If nothing is out of place, every action is performed on the token that is matched next,
or on the first one that is left when the parse stops. -/
theorem Logs.callsOf_eq (h : Logs t steps s E r) (hs : s.Ordered) (hc : Clean E) :
    callsOf E = callsAlong s.lastLine (leavesOf E ++ r.2.ahead.map .token) := by
  induction h with
  | nil s => exact (callsAlong_map_token ..).symm
  | @cons x rest s s' r E E' h hr ih ihr =>
      rw [clean_append] at hc
      have htakes := h.takes hs hc.1
      have htakes' := hr.takes htakes.ordered hc.2
      have htokens : Leaf.tokens (leavesOf E' ++ r.2.ahead.map .token) = s'.ahead := by
        rw [Leaf.tokens_append, Leaf.tokens_map_token, tokens_leavesOf]
        exact htakes'.ahead_eq.symm
      rw [callsOf_append, ih hs hc.1, ihr htakes.ordered hc.2, htakes.lastLine_eq,
        leavesOf_append, List.append_assoc,
        callsAlong_append _ (leavesOf E) (leavesOf E' ++ _), htokens]
  | halt _ _ ih => exact ih hs hc
  | act h =>
      rw [callsOf_append, callsOf_news, List.append_nil, leavesOf_append, leavesOf_news,
        List.append_nil]
      exact h.callsOf_eq hs
  | @astray _ e s _ _ _ hsel =>
      have hselects := selects_of_select_eq hsel
      obtain ⟨a, heq⟩ := hselects.of_clean hc
      cases heq
  | @chosen _ e _ s _ _ _ _ hsel _ ih =>
      rw [clean_append] at hc
      have hselects := selects_of_select_eq hsel
      obtain ⟨a, heq⟩ := hselects.of_clean hc.1
      cases heq
      rw [callsOf_append, callsOf_news, List.nil_append, leavesOf_append, leavesOf_news,
        List.nil_append]
      exact ih ⟨hs.orderly, hs.pending_eq_nil⟩ hc.2

end Parse

end ToneScript
