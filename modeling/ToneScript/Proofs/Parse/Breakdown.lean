import ToneScript.Proofs.Parse.Account
import ToneScript.Proofs.Parse.Indifference
import ToneScript.Proofs.Token.Lexemes

/-!
# When a parse breaks down

Two things are fatal to a parse: on the way to the next token a lexeme is cut short, or the
program has come to its end where a nonterminal can neither be derived nor be missing.  Either
may happen deep inside, and `halt` is then handed back from nonterminal to nonterminal.  Here the
fatal moment is described by what is met, not by the flow that comes of it, and the state and the
history are taken right behind it.  All that happens afterwards is that the nodes which are still
open are left.

## Main definitions

* `Diagnostic.IsFatal` — what is reported of a fatal moment.
* `Parse.State.MeetsCut`, `Parse.GivesUp` — the two fatal conditions.
* `Parse.Breaks` — on the way along some steps a parse breaks down.
* `Parse.Breakdown` — it does so in the parse of a whole program.
* `Parse.State.Adds` — what is reported between two states.

## Main statements

* `Parse.Breaks.exists_logs` — nothing is done any more when a parse has broken down.
* `Parse.Logs.exists_breaks` — a parse that is over early has broken down.
* `Parse.run_breakdown` — both for whole programs, with what is reported last.
-/

namespace ToneScript

/-! ## Fatal diagnostics -/

/-- The program ends too early, or a lexeme is cut short. -/
def Diagnostic.IsFatal (d : Diagnostic) : Prop :=
  d.kind = .semantic ∧ d.message = "Unexpected EOF" ∨
    d.kind = .lexical ∧ "Unexpected end of input: ".toList <+: d.message.toList

/-- Nothing in the report is fatal. -/
def Diagnostic.Spares (l : List Diagnostic) : Prop := ∀ d ∈ l, ¬ d.IsFatal

/-- The last thing in the report is fatal, and nothing before it is. -/
def Diagnostic.Ends (l : List Diagnostic) : Prop :=
  ∃ l₀ d, l = l₀ ++ [d] ∧ d.IsFatal ∧ Spares l₀

namespace Diagnostic

variable {n : ℕ} {x : String} {d : Diagnostic} {l l' : List Diagnostic}

theorem isFatal_unexpectedEnd (n : ℕ) : IsFatal ⟨n, .unexpectedEnd⟩ := .inl ⟨rfl, rfl⟩

theorem isFatal_lexeme_iff {fault : Scan.Fault} :
    IsFatal ⟨n, .lexeme fault x⟩ ↔ fault = .truncation := by
  constructor
  · rintro (⟨h, _⟩ | ⟨_, t, ht⟩)
    · cases h
    · simp only [message, Cause.message, String.toList_append] at ht
      cases fault with
      | truncation => rfl
      | _ => cases congrArg List.head? ht
  · rintro rfl
    refine .inr ⟨rfl, ?_⟩
    simp only [message, Cause.message, String.toList_append]
    exact List.prefix_append _ _

theorem not_isFatal_illegal : ¬ IsFatal ⟨n, .illegal x⟩ := by
  rintro (⟨_, h⟩ | ⟨h, _⟩)
  · have hlist := congrArg String.toList h
    simp [message, Cause.message] at hlist
  · cases h

theorem not_isFatal_missing : ¬ IsFatal ⟨n, .missing x⟩ := by
  rintro (⟨_, h⟩ | ⟨h, _⟩)
  · have hlist := congrArg String.toList h
    simp [message, Cause.message] at hlist
  · cases h

theorem not_isFatal_action {fault : Value.Fault} : ¬ IsFatal ⟨n, .action fault⟩ := by
  rintro (⟨h, _⟩ | ⟨h, _⟩)
  · cases h
  · cases h

theorem spares_nil : Spares [] := fun _ h => absurd h List.not_mem_nil

theorem spares_singleton (h : ¬ d.IsFatal) : Spares [d] := List.forall_mem_singleton.2 h

theorem Spares.append (h : Spares l) (h' : Spares l') : Spares (l ++ l') :=
  List.forall_mem_append.2 ⟨h, h'⟩

theorem Spares.cons (h : ¬ d.IsFatal) (h' : Spares l) : Spares (d :: l) :=
  (spares_singleton h).append h'

theorem Spares.ends (h : Spares l) (h' : Ends l') : Ends (l ++ l') := by
  obtain ⟨l₀, d, rfl, hd, hl₀⟩ := h'
  exact ⟨l ++ l₀, d, (List.append_assoc ..).symm, hd, h.append hl₀⟩

/-- What is fatal comes last. -/
theorem Ends.eq_nil (h : Ends (l ++ d :: l')) (hd : d.IsFatal) : l' = [] := by
  obtain ⟨l₀, d₀, heq, _, hl₀⟩ := h
  rcases List.append_eq_append_iff.1 heq with ⟨c, rfl, hc⟩ | ⟨c, rfl, hc⟩
  · cases c with
    | nil => exact (List.cons.inj hc).2
    | cons d' c =>
        obtain ⟨rfl, _⟩ := List.cons.inj hc
        exact absurd hd (hl₀ _ (by simp))
  · cases c with
    | nil => exact (List.cons.inj hc).2.symm
    | cons d' c =>
        have hlen := congrArg List.length (List.cons.inj hc).2
        simp at hlen

end Diagnostic

/-! ## Scans -/

namespace Scan

/-- No text is refused for being cut short: what is cut short is a scan of its own. -/
def Honest (scans : List Scan) : Prop := ∀ f x n, .invalid f x n ∈ scans → f ≠ .truncation

theorem Honest.of_suffix {scans scans' : List Scan} (h : Honest scans) (hs : scans' <:+ scans) :
    Honest scans' := fun f x n hmem => h f x n (hs.subset hmem)

end Scan

namespace Cursor

variable {n line : ℕ} {q : Scan.State} {taken rest : List Char} {f : Scan.Fault} {x : String}

/-- What is refused is not refused for being cut short. -/
theorem fault_ne_of_munch {origin : ℕ} (h : (munch origin q taken line rest).1 = .invalid f x n) :
    f ≠ .truncation := by
  have hverdict {q : Scan.State} {v : Scan.Verdict} {y : String} {m : ℕ}
      (hq : q.verdict = some v) (hv : v.scan y m = .invalid f x n) : f ≠ .truncation := by
    cases v with
    | token k => cases hv
    | reject f' =>
        cases hv
        rintro rfl
        cases q <;> cases hq
  induction rest generalizing q taken line with
  | nil =>
      simp only [munch] at h
      split at h
      · cases h
      · split at h
        · rename_i hv
          exact hverdict hv h
        · cases h
  | cons c rest ih =>
      simp only [munch] at h
      split at h
      · split at h
        · cases h
          exact fun h => nomatch h
        · cases h
          exact fun h => nomatch h
      · split at h
        · exact ih h
        · rename_i v hv
          split at h
          · exact hverdict hv h
          · exact hverdict hv h

end Cursor

theorem Scan.honest_ofSource (source : String) : Honest (ofSource source) := by
  have hall : ∀ c ∈ ofSource source, ∀ f x n, c = .invalid f x n → f ≠ .truncation := by
    refine Cursor.forall_mem_scans ?_ _
    rintro ⟨_ | ⟨c, rest⟩, n⟩ hne f x m hk
    · exact absurd rfl hne
    · rw [Cursor.next_cons] at hk
      exact Cursor.fault_ne_of_munch hk
  exact fun f x n hmem => hall _ hmem f x n rfl

/-! ## Nodes that are left -/

namespace Tree.Builder

theorem leaveAll_leaveAll (b : Builder) (n m : ℕ) :
    (b.leaveAll n).leaveAll m = b.leaveAll (n + m) := by
  induction n generalizing b with
  | zero => rw [leaveAll, Nat.zero_add]
  | succ n ih => rw [leaveAll, ih, Nat.succ_add, leaveAll]

theorem finish_leave (b : Builder) : b.leave.finish = b.finish := by
  obtain ⟨_ | ⟨⟨l, cs⟩, _ | ⟨⟨l', cs'⟩, path⟩⟩, root⟩ := b
  · rfl
  · rfl
  · rfl

/-- The tree comes out the same, however many of the open nodes are left before its end. -/
theorem finish_leaveAll (b : Builder) (n : ℕ) : (b.leaveAll n).finish = b.finish := by
  induction n generalizing b with
  | zero => rfl
  | succ n ih => rw [leaveAll, ih, finish_leave]

end Tree.Builder

namespace Parse

open Diagnostic (Spares Ends)

variable {t : Table} {e : Entry} {x : Step} {steps rest : List Step} {s s' s₁ : State}
  {r : Flow × State} {q : Except Flow Alternative × State} {E E' : List Event}
  {scans : List Scan} {source : String} {o : Outcome}

namespace State

theorem leaveAll_leaveAll (s : State) (n m : ℕ) :
    (s.leaveAll n).leaveAll m = s.leaveAll (n + m) := by
  rw [leaveAll, leaveAll, leaveAll, Tree.Builder.leaveAll_leaveAll]

theorem outcome_leaveAll (s : State) (n : ℕ) : (s.leaveAll n).outcome = s.outcome := by
  rw [outcome, outcome, leaveAll, Tree.Builder.finish_leaveAll]

/-! ## A lexeme that is cut short -/

/-- On the way to the next token a lexeme is met that is cut short.  It is reported behind
whatever has been found wrong before it, and no scan behind it is looked at. -/
def MeetsCut (s s' : State) : Prop :=
  ∃ l text line, s.pending = l ++ .truncated text line :: s'.pending ∧
    (∀ c ∈ l, c.isHeard false = false) ∧
    s'.report.toList =
      s.report.toList ++ (l ++ [Scan.truncated text line]).filterMap Scan.diagnostic? ∧
    s' = { s with pending := s'.pending, current := none, report := s'.report }

theorem exists_of_advanceOver_eq_halt (h : s.advanceOver scans = (.halt, s')) :
    ∃ l text line, scans = l ++ .truncated text line :: s'.pending ∧
      (∀ c ∈ l, c.isHeard false = false) ∧
      s'.report.toList =
        s.report.toList ++ (l ++ [Scan.truncated text line]).filterMap Scan.diagnostic? ∧
      s' = { s with pending := s'.pending, current := none, report := s'.report } := by
  fun_induction advanceOver s scans with
  | case1 s => cases h
  | case2 s => cases h
  | case3 s k rest hk ih =>
      obtain ⟨l, text, line, rfl, hl, hreport, hs'⟩ := ih h
      refine ⟨.token k :: l, text, line, rfl, ?_, hreport, hs'⟩
      exact List.forall_mem_cons.2 ⟨by simpa [Scan.isHeard] using hk, hl⟩
  | case4 s k rest _ => cases h
  | case5 s f x n rest ih =>
      obtain ⟨l, text, line, rfl, hl, hreport, hs'⟩ := ih h
      refine ⟨.invalid f x n :: l, text, line, rfl, List.forall_mem_cons.2 ⟨rfl, hl⟩, ?_, hs'⟩
      rw [hreport]
      simp [Scan.diagnostic?]
  | case6 s x n rest =>
      cases h
      exact ⟨[], x, n, rfl, fun c hc => absurd hc List.not_mem_nil, by simp [Scan.diagnostic?], rfl⟩

/-- That a lexeme is met that is cut short, and only that, ends the way to the next token. -/
theorem meetsCut_iff : s.MeetsCut s' ↔ s.advance = (.halt, s') := by
  constructor
  · rintro ⟨l, text, line, hpending, hl, hreport, hs'⟩
    obtain ⟨r, hr, heq⟩ := exists_advanceOver_eq hl s (.truncated text line :: s'.pending)
    have hsame : r.push ⟨line, .lexeme .truncation text⟩ = s'.report := by
      have hlist : (r.push ⟨line, .lexeme .truncation text⟩).toList = s'.report.toList := by
        rw [hreport, Report.toList_push, hr]
        simp [Scan.diagnostic?]
      exact congrArg Report.mk (Array.toList_inj.1 hlist)
    rw [advance, hpending, heq, advanceOver, hs', hsame]
  · exact exists_of_advanceOver_eq_halt

end State

/-! ## Nothing left to derive from -/

/-- In search of an alternative a parse meets something fatal. -/
inductive GivesUp (e : Entry) : State → State → Prop
  /-- The program is at its end, which neither calls for an alternative nor may follow. -/
  | ended {s : State} (h : e.select? s.lookahead = none) (hf : s.lookahead ∉ e.follow)
      (hc : s.current = none) : GivesUp e s { s with report := s.report.unexpectedEnd s.line }
  /-- A token is skipped, and behind it a lexeme is cut short. -/
  | cut {s s' : State} {k : Token} (h : e.select? s.lookahead = none)
      (hf : s.lookahead ∉ e.follow) (hc : s.current = some k)
      (hm : { s with report := s.report.illegal k.terminal s.line }.MeetsCut s') : GivesUp e s s'
  /-- A token is skipped, and something fatal is met behind it. -/
  | skip {s s₁ s' : State} {k : Token} (h : e.select? s.lookahead = none)
      (hf : s.lookahead ∉ e.follow) (hc : s.current = some k)
      (ha : { s with report := s.report.illegal k.terminal s.line }.advance = (.proceed, s₁))
      (hr : GivesUp e s₁ s') : GivesUp e s s'

theorem givesUp_iff : GivesUp e s s' ↔ s.select e = (.error .halt, s') := by
  constructor
  · intro h
    have hselects : Selects e s (.error .halt, s') := by
      induction h with
      | ended h hf hc => exact .ended h hf hc
      | cut h hf hc hm => exact .cut h hf hc (State.meetsCut_iff.1 hm)
      | skip h hf hc ha _ ih => exact .skip h hf hc ha ih
    exact hselects.eq
  · intro h
    replace h := selects_of_select_eq h
    generalize hq : (Except.error Flow.halt, s') = q at h
    induction h with
    | chosen _ => cases hq
    | missing _ _ => cases hq
    | ended h hf hc =>
        cases hq
        exact .ended h hf hc
    | cut h hf hc ha =>
        cases hq
        exact .cut h hf hc (State.meetsCut_iff.2 ha)
    | skip h hf hc ha _ ih => exact .skip h hf hc ha (ih hq)

/-! ## Along the steps -/

/-- On the way along some steps a parse breaks down.  This is what it has done until then, the
fatal report included, and the state right behind it. -/
inductive Breaks (t : Table) : List Step → State → List Event → State → Prop
  /-- Behind a token that is matched a lexeme is cut short. -/
  | matching {s s' : State} {k : Token} (hc : s.current = some k)
      (h : { s with tree := s.tree.addLeaf (toString k) }.MeetsCut s') :
      Breaks t [.consume k.terminal] s (.matched k :: s.news s') s'
  /-- No alternative is found for a nonterminal. -/
  | selecting {id : Nat} {e : Entry} {s s' : State} (he : t.entries[id]? = some e)
      (h : GivesUp e s s') : Breaks t [.expand id] s (s.news s') s'
  /-- The parse breaks down with the first step. -/
  | first {x : Step} {rest : List Step} {s s' : State} {E : List Event}
      (h : Breaks t [x] s E s') : Breaks t (x :: rest) s E s'
  /-- The first step is done, and the parse breaks down with the others. -/
  | later {x : Step} {rest : List Step} {s s₁ s' : State} {E E' : List Event}
      (h : Logs t [x] s E (.proceed, s₁)) (hr : Breaks t rest s₁ E' s') :
      Breaks t (x :: rest) s (E ++ E') s'
  /-- The parse breaks down inside of a nonterminal. -/
  | inside {id : Nat} {e : Entry} {a : Alternative} {s s₁ s' : State} {E : List Event}
      (he : t.entries[id]? = some e) (hs : s.select e = (.ok a, s₁))
      (h : Breaks t a.steps (s₁.enter e.name) E s') :
      Breaks t [.expand id] s (s.news s₁ ++ E) s'

/-- When a parse has broken down, nothing is done any more but to leave the nodes that are
open. -/
theorem Breaks.exists_logs (h : Breaks t steps s E s') :
    ∃ n, Logs t steps s E (.halt, s'.leaveAll n) := by
  induction h with
  | @matching s s' k hc h =>
      have hconsume : s.consume k.terminal = (.halt, s') := by
        rw [State.consume_of_current_eq hc, State.meetsCut_iff.1 h]
      have hdeed : s.deed (.consume k.terminal) = [.matched k] := by simp [State.deed, hc]
      have hlogs : Logs t [.consume k.terminal] s _ _ := .act (.consume k.terminal s)
      rw [hconsume, hdeed] at hlogs
      exact ⟨0, hlogs⟩
  | selecting he h => exact ⟨0, .astray he (givesUp_iff.1 h)⟩
  | first _ ih =>
      obtain ⟨n, ih⟩ := ih
      exact ⟨n, .halt _ ih⟩
  | later h _ ih =>
      obtain ⟨n, ih⟩ := ih
      exact ⟨n, .cons h ih⟩
  | @inside id e a s s₁ s' E he hs _ ih =>
      obtain ⟨n, ih⟩ := ih
      refine ⟨n + 1, ?_⟩
      rw [← State.leaveAll_leaveAll]
      exact .chosen he hs ih

/-- A parse that is over early has broken down. -/
theorem Logs.exists_breaks (h : Logs t steps s E r) (hr : r.1 = .halt) :
    ∃ n s', Breaks t steps s E s' ∧ r.2 = s'.leaveAll n := by
  induction h with
  | nil s => cases hr
  | cons h _ _ ihr =>
      obtain ⟨n, s', hbreaks, heq⟩ := ihr hr
      exact ⟨n, s', .later h hbreaks, heq⟩
  | halt _ _ ih =>
      obtain ⟨n, s', hbreaks, heq⟩ := ih hr
      exact ⟨n, s', .first hbreaks, heq⟩
  | @act x s r h =>
      cases h with
      | consume x _ =>
          rcases s.consume_cases x with ⟨k, hc, rfl, hdeed, heq⟩ | ⟨d, _, _, _, heq⟩
          · rw [hdeed]
            refine ⟨0, _, .matching hc (State.meetsCut_iff.2 ?_), rfl⟩
            rw [heq] at hr ⊢
            exact Prod.ext hr rfl
          · rw [heq] at hr
            cases hr
      | expectEnd _ => cases hr
      | empty _ => cases hr
      | fire a _ => cases hr
  | astray he hs =>
      cases hr
      exact ⟨0, _, .selecting he (givesUp_iff.2 hs), rfl⟩
  | chosen he hs _ ih =>
      obtain ⟨n, s', hbreaks, heq⟩ := ih hr
      refine ⟨n + 1, s', .inside he hs hbreaks, ?_⟩
      rw [heq, State.leaveAll_leaveAll]

/-! ## What is reported -/

namespace State

/-- What is reported between the two states has the property. -/
def Adds (P : List Diagnostic → Prop) (s s' : State) : Prop :=
  ∃ l, s'.report.toList = s.report.toList ++ l ∧ P l

namespace Adds

variable {P : List Diagnostic → Prop} {d : Diagnostic} {s₂ : State}

theorem reportOf_news (h : s.Adds P s') : P (reportOf (s.news s')) := by
  obtain ⟨l, hl, hP⟩ := h
  rwa [news_of_report_eq hl, reportOf_map_reported]

theorem of_report_eq (h : s'.report = s.report) : s.Adds Spares s' :=
  ⟨[], by rw [h, List.append_nil], Diagnostic.spares_nil⟩

theorem push (s : State) (hd : ¬ d.IsFatal) :
    s.Adds Spares { s with report := s.report.push d } :=
  ⟨[d], Report.toList_push .., Diagnostic.spares_singleton hd⟩

theorem spares (h : s.Adds Spares s₁) (h' : s₁.Adds Spares s₂) : s.Adds Spares s₂ := by
  obtain ⟨l, hl, hspares⟩ := h
  obtain ⟨l', hl', hspares'⟩ := h'
  exact ⟨l ++ l', by rw [hl', hl, List.append_assoc], hspares.append hspares'⟩

theorem ends (h : s.Adds Spares s₁) (h' : s₁.Adds Ends s₂) : s.Adds Ends s₂ := by
  obtain ⟨l, hl, hspares⟩ := h
  obtain ⟨l', hl', hends⟩ := h'
  exact ⟨l ++ l', by rw [hl', hl, List.append_assoc], hspares.ends hends⟩

end Adds

/-- As long as the parse goes on, nothing fatal is found on the way to the next token. -/
theorem spares_advanceOver (h : Scan.Honest scans) (ha : s.advanceOver scans = (.proceed, s')) :
    s.Adds Spares s' := by
  fun_induction advanceOver s scans with
  | case1 s =>
      cases ha
      exact .of_report_eq rfl
  | case2 s =>
      cases ha
      exact .of_report_eq rfl
  | case3 s k rest _ ih => exact ih (h.of_suffix (List.suffix_cons _ _)) ha
  | case4 s k rest _ =>
      cases ha
      exact .of_report_eq rfl
  | case5 s f x n rest ih =>
      have hfault : ¬ Diagnostic.IsFatal ⟨n, .lexeme f x⟩ := by
        rw [Diagnostic.isFatal_lexeme_iff]
        exact h f x n List.mem_cons_self
      exact (Adds.push s hfault).spares (ih (h.of_suffix (List.suffix_cons _ _)) ha)
  | case6 s x n rest => cases ha

theorem spares_advance (hs : Scan.Honest s.pending) (ha : s.advance = (.proceed, s')) :
    Scan.Honest s'.pending ∧ s.Adds Spares s' := by
  refine ⟨?_, spares_advanceOver hs ha⟩
  have hsuffix := suffix_advanceOver s s.pending
  rw [← advance, ha] at hsuffix
  exact hs.of_suffix hsuffix

/-- Nor is it found when a token is skipped. -/
theorem spares_skip {k : Token} (hs : Scan.Honest s.pending)
    (ha : { s with report := s.report.illegal k.terminal s.line }.advance = (.proceed, s')) :
    Scan.Honest s'.pending ∧ s.Adds Spares s' := by
  obtain ⟨hs', hspares⟩ :=
    spares_advance (s := { s with report := s.report.illegal k.terminal s.line }) hs ha
  exact ⟨hs', (Adds.push s Diagnostic.not_isFatal_illegal).spares hspares⟩

/-- When a lexeme is cut short, this is the one fatal thing found, and the last. -/
theorem MeetsCut.ends (hm : s.MeetsCut s') (h : Scan.Honest s.pending) : s.Adds Ends s' := by
  obtain ⟨l, text, line, hpending, hl, hreport, _⟩ := hm
  rw [List.filterMap_append] at hreport
  refine ⟨_, hreport, l.filterMap Scan.diagnostic?, _, rfl,
    Diagnostic.isFatal_lexeme_iff.2 rfl, ?_⟩
  intro d hd
  obtain ⟨c, hc, hcd⟩ := List.mem_filterMap.1 hd
  cases c with
  | token k => cases hcd
  | invalid f x n =>
      cases hcd
      rw [Diagnostic.isFatal_lexeme_iff]
      exact h f x n (hpending ▸ List.mem_append_left _ hc)
  | truncated x n => cases hl _ hc
  | done => cases hcd

/-- A token that is matched, or missing, is nothing fatal. -/
theorem spares_consume {y : String} (hs : Scan.Honest s.pending)
    (h : s.consume y = (.proceed, s')) : s.Adds Spares s' := by
  unfold consume at h
  split at h
  · rename_i k _
    split at h
    · exact (spares_advance (s := { s with tree := s.tree.addLeaf (toString k) }) hs h).2
    · cases h
      exact .push s Diagnostic.not_isFatal_missing
  · cases h
    exact .push s Diagnostic.not_isFatal_missing

theorem spares_expectEnd (s : State) : s.Adds Spares s.expectEnd := by
  unfold expectEnd
  split
  · exact .of_report_eq rfl
  · exact .push s Diagnostic.not_isFatal_missing

theorem spares_fire (s : State) (a : Action) : s.Adds Spares (s.fire a) := by
  unfold fire
  split
  · exact .of_report_eq rfl
  · exact .push _ Diagnostic.not_isFatal_action

end State

/-- As long as the parse goes on, nothing fatal is found in search of an alternative. -/
theorem Selects.spares (h : Selects e s q) (hq : q.1 ≠ .error .halt)
    (hs : Scan.Honest s.pending) : s.Adds Spares q.2 := by
  induction h with
  | chosen _ => exact .of_report_eq rfl
  | @missing s _ _ => exact .push s Diagnostic.not_isFatal_missing
  | ended _ _ _ => exact absurd rfl hq
  | cut _ _ _ _ => exact absurd rfl hq
  | skip _ _ _ ha _ ih =>
      obtain ⟨hs', hspares⟩ := State.spares_skip hs ha
      exact hspares.spares (ih hq hs')

/-- Where no alternative is found, something fatal is found last. -/
theorem GivesUp.ends (h : GivesUp e s s') (hs : Scan.Honest s.pending) : s.Adds Ends s' := by
  induction h with
  | ended _ _ _ =>
      exact ⟨_, Report.toList_unexpectedEnd .., [], _, rfl, Diagnostic.isFatal_unexpectedEnd _,
        Diagnostic.spares_nil⟩
  | @cut s _ _ _ _ _ hm =>
      exact (State.Adds.push s Diagnostic.not_isFatal_illegal).ends (hm.ends hs)
  | skip _ _ _ ha _ ih =>
      obtain ⟨hs', hspares⟩ := State.spares_skip hs ha
      exact hspares.ends (ih hs')

/-- A step after which the parse goes on finds nothing fatal. -/
theorem Acts.spares (h : Acts x s r) (hr : r.1 = .proceed) (hs : Scan.Honest s.pending) :
    s.Adds Spares r.2 := by
  cases h with
  | consume x _ => exact State.spares_consume hs (Prod.ext hr rfl)
  | expectEnd _ => exact s.spares_expectEnd
  | empty _ => exact .of_report_eq rfl
  | fire a _ => exact s.spares_fire a

/-- A parse that goes on has found nothing fatal. -/
theorem Logs.spares (h : Logs t steps s E r) (hr : r.1 = .proceed)
    (hs : Scan.Honest s.pending) : Spares (reportOf E) := by
  induction h with
  | nil s => exact Diagnostic.spares_nil
  | cons h _ ih ihr =>
      rw [reportOf_append]
      exact (ih rfl hs).append (ihr hr (hs.of_suffix (h.runs.respects respected_pending)))
  | halt _ _ _ => cases hr
  | act h =>
      rw [reportOf_append, State.reportOf_deed, List.nil_append]
      exact (h.spares hr hs).reportOf_news
  | @astray _ e s s' flow _ hsel =>
      have hq : (Except.error flow : Except Flow Alternative) ≠ .error .halt := by
        rintro ⟨⟩
        cases hr
      exact ((selects_of_select_eq hsel).spares hq hs).reportOf_news
  | chosen _ hsel _ ih =>
      have hselects := selects_of_select_eq hsel
      rw [reportOf_append]
      exact (hselects.spares (fun h => nomatch h) hs).reportOf_news.append
        (ih hr (hs.of_suffix (respected_pending.selects hselects)))

/-- A parse that breaks down has found one fatal thing, and that last. -/
theorem Breaks.ends (h : Breaks t steps s E s') (hs : Scan.Honest s.pending) :
    Ends (reportOf E) := by
  induction h with
  | matching _ h => exact (h.ends hs).reportOf_news
  | selecting _ h => exact (h.ends hs).reportOf_news
  | first _ ih => exact ih hs
  | later h _ ih =>
      rw [reportOf_append]
      exact (h.spares rfl hs).ends (ih (hs.of_suffix (h.runs.respects respected_pending)))
  | inside _ hsel _ ih =>
      have hselects := selects_of_select_eq hsel
      rw [reportOf_append]
      exact (hselects.spares (fun h => nomatch h) hs).reportOf_news.ends
        (ih (hs.of_suffix (respected_pending.selects hselects)))

/-! ## Whole programs -/

/-- The parse of a program breaks down.  This is what it has done until then, and the state right
behind it. -/
inductive Breakdown (t : Table) (source : String) : List Event → State → Prop
  /-- A lexeme is cut short before there is any token. -/
  | atOnce {s : State} (h : (State.ofSource source).MeetsCut s) :
      Breakdown t source ((State.ofSource source).news s) s
  /-- It breaks down while the start symbol is derived. -/
  | parsing {s s' : State} {E : List Event}
      (ha : (State.ofSource source).advance = (.proceed, s))
      (h : Breaks t [.expand t.start] s E s') :
      Breakdown t source ((State.ofSource source).news s ++ E) s'

namespace Breakdown

/-- The history of the parse ends there, and so does what comes of it, up to the nodes that are
left. -/
theorem history (h : Breakdown t source E s) : History t source E s.outcome ∧
    ∃ n, finalState t (.ofSource source) = some (s.leaveAll n) := by
  cases h with
  | atOnce h =>
      have ha := State.meetsCut_iff.1 h
      exact ⟨.cut ha, 0, by rw [finalState, ha]; rfl⟩
  | @parsing s s' _ ha h =>
      obtain ⟨n, hlogs⟩ := h.exists_logs
      have hist := History.parsed ha hlogs
      rw [State.outcome_leaveAll] at hist
      exact ⟨hist, n, finalState_of_runs ha hlogs.runs⟩

/-- It has found one fatal thing, and that last. -/
theorem ends (h : Breakdown t source E s) : Ends (reportOf E) := by
  have honest := Scan.honest_ofSource source
  cases h with
  | atOnce h => exact (h.ends honest).reportOf_news
  | parsing ha h =>
      obtain ⟨hs, hspares⟩ := State.spares_advance honest ha
      rw [reportOf_append]
      exact hspares.reportOf_news.ends (h.ends hs)

end Breakdown

/-- A parse has broken down, or nothing fatal is reported. -/
theorem History.spares_or_breakdown (h : History t source E o) :
    Spares (reportOf E) ∨ ∃ s, Breakdown t source E s := by
  have honest := Scan.honest_ofSource source
  cases h with
  | cut ha => exact .inr ⟨_, .atOnce (State.meetsCut_iff.2 ha)⟩
  | @parsed s E r ha h =>
      rcases hflow : r.1 with _ | _
      · obtain ⟨hs, hspares⟩ := State.spares_advance honest ha
        rw [reportOf_append]
        exact .inl (hspares.reportOf_news.append (h.spares hflow hs))
      · obtain ⟨_, s', hbreaks, _⟩ := h.exists_breaks hflow
        exact .inr ⟨s', .parsing ha hbreaks⟩

/-- When a parse breaks down, then what it has done until then is all that it does, and the state
at the end is the one right behind the fatal moment, but for the nodes that are left: nothing more
is reported or performed, no scan is looked at, and no leaf is added.  So something fatal can only
be the last thing in a report, and where there is such a thing, the parse has broken down. -/
theorem run_breakdown (hr : run t source = some o) :
    (∀ E s, Breakdown t source E s →
      History t source E o ∧ o = s.outcome ∧ Ends o.report.toList ∧
        ∃ n, finalState t (.ofSource source) = some (s.leaveAll n)) ∧
      ∀ l d l', o.report.toList = l ++ d :: l' → d.IsFatal →
        l' = [] ∧ ∃ E s, Breakdown t source E s := by
  refine ⟨fun E s h => ?_, fun l d l' hreport hd => ?_⟩
  · obtain ⟨hist, hfinal⟩ := h.history
    have ho : o = s.outcome := by
      have hrun := hist.run_eq
      rw [hr] at hrun
      exact Option.some.inj hrun
    rw [ho]
    refine ⟨hist, rfl, ?_, hfinal⟩
    rw [hist.report_eq]
    exact h.ends
  · obtain ⟨E, hist⟩ := exists_history hr
    rw [hist.report_eq] at hreport
    rcases hist.spares_or_breakdown with hspares | ⟨s, hbreak⟩
    · exact absurd hd (hspares d (by rw [hreport]; simp))
    · have hends := hbreak.ends
      rw [hreport] at hends
      exact ⟨hends.eq_nil hd, E, s, hbreak⟩

/-- A literal is cut short deep inside of an expression, behind a foreign character. -/
theorem run_breakdown_literal :
    ∃ o E s l, run .tone "x = (\"o\" * 2 + @ \"oa" = some o ∧
      o.report.toList = l ++ [⟨1, .lexeme .truncation "\"oa"⟩] ∧
      Breakdown .tone "x = (\"o\" * 2 + @ \"oa" E s ∧
      History .tone "x = (\"o\" * 2 + @ \"oa" E o ∧ o = s.outcome := by
  obtain ⟨o, hr⟩ := exists_run Table.build_tone Grammar.anchored_tone.conclusive
    "x = (\"o\" * 2 + @ \"oa"
  obtain ⟨E, hist⟩ := exists_history hr
  obtain ⟨_, _, _, _, hlexical⟩ :=
    hist.parts_tokens Grammar.closing_tone (by decide) (by decide)
  have htokens : (tokenize "x = (\"o\" * 2 + @ \"oa").diagnostics =
      [⟨1, .lexeme .input "@"⟩, ⟨1, .lexeme .truncation "\"oa"⟩] := by
    decide +kernel
  have hmem : ⟨1, .lexeme .truncation "\"oa"⟩ ∈ o.report.toList := by
    refine (List.mem_filter (p := fun d => decide (d.kind = .lexical)).1 ?_).1
    rw [hlexical, htokens]
    simp
  obtain ⟨l, l', hreport⟩ := List.append_of_mem hmem
  obtain ⟨hbefore, hlast⟩ := run_breakdown hr
  obtain ⟨rfl, E', s, hbreak⟩ := hlast l _ l' hreport (Diagnostic.isFatal_lexeme_iff.2 rfl)
  obtain ⟨hist', ho, _⟩ := hbefore E' s hbreak
  exact ⟨o, E', s, l, hr, hreport, hbreak, hist', ho⟩

end Parse

end ToneScript
