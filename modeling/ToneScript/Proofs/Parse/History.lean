import ToneScript.Proofs.Parse.Depth

/-!
# The history of a parse

What a parse does can be written down in the order in which it happens: the tokens that are
matched, the end of the program, the actions with what they are performed on, and what is
found wrong.  The outcome of a parse tells what was found wrong, but not after how many
tokens; its history does.

The history is given along the relation `Runs`.  Every parse has one, and only one.

## Main definitions

* `Parse.Event` — what is written down.
* `Parse.Logs` — what a parse does, with its history.
* `Parse.History` — the history of the parse of a whole program.
* `Parse.Clean`, `Parse.Blames` — nothing in a history is out of place, or something is first.

## Main statements

* `Parse.exists_history`, `Parse.History.run_eq`, `Parse.History.unique` — every parse that
  has an outcome has one history.
* `Parse.History.report_eq` — the report of the outcome is in it.
-/

namespace ToneScript.Parse

variable {t : Table} {e : Entry} {x : Step} {steps rest : List Step} {s s' s₁ s₂ : State}
  {r r' : Flow × State} {q : Except Flow Alternative × State}

/-! ## Events -/

/-- Something that a parse does. -/
inductive Event where
  /-- A token is matched. -/
  | matched (k : Token)
  /-- The end of the program is matched. -/
  | ended
  /-- An action is performed on a lexeme. -/
  | performed (a : Action) (lexeme : String) (line : Nat)
  /-- Something is found wrong. -/
  | reported (d : Diagnostic)
deriving DecidableEq, Repr

namespace Event

/-- The token that is matched. -/
def token? : Event → Option Token
  | matched k => some k
  | _ => none

/-- The symbol that is matched. -/
def symbol? : Event → Option Symbol
  | matched k => some (.terminal k.terminal)
  | ended => some .endMark
  | _ => none

/-- What is found wrong. -/
def diagnostic? : Event → Option Diagnostic
  | reported d => some d
  | _ => none

end Event

variable {E E₁ E₂ : List Event} {d : Diagnostic}

/-- The tokens that are matched. -/
def tokensOf (E : List Event) : List Token := E.filterMap Event.token?

/-- The symbols that are matched. -/
def wordOf (E : List Event) : List Symbol := E.filterMap Event.symbol?

/-- What is found wrong. -/
def reportOf (E : List Event) : List Diagnostic := E.filterMap Event.diagnostic?

/-- No token is out of place, and none is missing. -/
def Clean (E : List Event) : Prop := ∀ d, .reported d ∈ E → d.kind ≠ .semantic

@[simp] theorem tokensOf_nil : tokensOf [] = [] := rfl

@[simp] theorem reportOf_nil : reportOf [] = [] := rfl

@[simp] theorem tokensOf_append (E₁ E₂ : List Event) :
    tokensOf (E₁ ++ E₂) = tokensOf E₁ ++ tokensOf E₂ := List.filterMap_append ..

@[simp] theorem wordOf_append (E₁ E₂ : List Event) :
    wordOf (E₁ ++ E₂) = wordOf E₁ ++ wordOf E₂ := List.filterMap_append ..

@[simp] theorem reportOf_append (E₁ E₂ : List Event) :
    reportOf (E₁ ++ E₂) = reportOf E₁ ++ reportOf E₂ := List.filterMap_append ..

@[simp] theorem tokensOf_map_reported (l : List Diagnostic) : tokensOf (l.map .reported) = [] := by
  simp [tokensOf, Event.token?]

@[simp] theorem wordOf_map_reported (l : List Diagnostic) : wordOf (l.map .reported) = [] := by
  simp [wordOf, Event.symbol?]

@[simp] theorem reportOf_map_reported (l : List Diagnostic) : reportOf (l.map .reported) = l := by
  simp [reportOf, List.filterMap_map, Function.comp_def, Event.diagnostic?]

@[simp] theorem clean_nil : Clean [] := fun _ h => absurd h List.not_mem_nil

@[simp] theorem clean_append : Clean (E₁ ++ E₂) ↔ Clean E₁ ∧ Clean E₂ := by
  simp [Clean, or_imp, forall_and]

theorem mem_reportOf : d ∈ reportOf E ↔ .reported d ∈ E := by
  rw [reportOf, List.mem_filterMap]
  constructor
  · rintro ⟨v, hv, hd⟩
    cases v <;> cases hd
    exact hv
  · exact fun h => ⟨_, h, rfl⟩

theorem clean_reported {d : Diagnostic} : Clean [.reported d] ↔ d.kind ≠ .semantic := by
  simp [Clean]

/-! ## The first thing out of place -/

/-- The first thing out of place in the history `E` is `d`, and `E₁` has happened before. -/
def Blames (E E₁ : List Event) (d : Diagnostic) : Prop :=
  ∃ E₂, E = E₁ ++ .reported d :: E₂ ∧ Clean E₁ ∧ d.kind = .semantic

/-- Either nothing is out of place, or there is something that is so first. -/
theorem clean_or_blames (E : List Event) : Clean E ∨ ∃ E₁ d, Blames E E₁ d := by
  induction E with
  | nil => exact .inl clean_nil
  | cons v E ih =>
      by_cases hv : Clean [v]
      · refine ih.imp (fun h => clean_append.2 ⟨hv, h⟩) ?_
        rintro ⟨E₁, d, E₂, rfl, hE₁, hd⟩
        exact ⟨v :: E₁, d, E₂, rfl, clean_append.2 ⟨hv, hE₁⟩, hd⟩
      · obtain ⟨d, hd, hk⟩ : ∃ d, v = .reported d ∧ d.kind = .semantic := by
          simpa [Clean, eq_comm] using hv
        exact .inr ⟨[], d, E, by rw [hd]; rfl, clean_nil, hk⟩

namespace Blames

theorem not_clean (h : Blames E E₁ d) : ¬ Clean E := by
  obtain ⟨E₂, rfl, _, hd⟩ := h
  exact fun hc => hc d (by simp) hd

/-- What is out of place first in the history is so in the report. -/
theorem find?_reportOf (h : Blames E E₁ d) :
    (reportOf E).find? (·.kind = .semantic) = some d := by
  obtain ⟨E₂, rfl, hE₁, hd⟩ := h
  have hnone : (reportOf E₁).find? (·.kind = .semantic) = none := by
    rw [List.find?_eq_none]
    intro d' hd'
    simpa using hE₁ d' (mem_reportOf.1 hd')
  rw [reportOf_append, List.find?_append, hnone, Option.none_or]
  exact List.find?_cons_of_pos (by simpa using hd)

/-- It comes in the first part of a history, or behind it. -/
theorem of_append {E' : List Event} (h : Blames (E ++ E') E₁ d) :
    Blames E E₁ d ∨ Clean E ∧ ∃ E₁', E₁ = E ++ E₁' ∧ Blames E' E₁' d := by
  obtain ⟨E₂, heq, hE₁, hd⟩ := h
  rcases List.append_eq_append_iff.1 heq with ⟨E₁', rfl, rfl⟩ | ⟨c, rfl, hc⟩
  · rw [clean_append] at hE₁
    exact .inr ⟨hE₁.1, E₁', rfl, E₂, rfl, hE₁.2, hd⟩
  · rcases List.cons_eq_append_iff.1 hc with ⟨rfl, rfl⟩ | ⟨c, rfl, _⟩
    · rw [List.append_nil]
      exact .inr ⟨hE₁, [], (List.append_nil _).symm, E₂, rfl, clean_nil, hd⟩
    · exact .inl ⟨c, rfl, hE₁, hd⟩

theorem append_left (hc : Clean E) (h : Blames E₂ E₁ d) : Blames (E ++ E₂) (E ++ E₁) d := by
  obtain ⟨E₃, rfl, hE₁, hd⟩ := h
  exact ⟨E₃, (List.append_assoc ..).symm, clean_append.2 ⟨hc, hE₁⟩, hd⟩

/-- Where a history begins with something out of place, nothing has happened before. -/
theorem of_cons {d' : Diagnostic} (h : Blames (.reported d' :: E) E₁ d) (hd' : d'.kind = .semantic) :
    E₁ = [] ∧ d = d' := by
  rcases h.of_append (E := [.reported d']) with ⟨E₂, heq, _, _⟩ | ⟨hc, _⟩
  · cases E₁ with
    | nil =>
        cases heq
        exact ⟨rfl, rfl⟩
    | cons v E₁ => simp at heq
  · exact absurd hd' (clean_reported.1 hc)

/-- What has happened before goes on at least as long as any clean beginning. -/
theorem exists_append (h : Blames (E ++ E₂) E₁ d) (hE : Clean E) : ∃ E', E₁ = E ++ E' := by
  rcases h.of_append with h | ⟨_, E', rfl, _⟩
  · exact absurd hE h.not_clean
  · exact ⟨E', rfl⟩

end Blames

/-! ## What a step does -/

namespace State

/-- What is reported between two states. -/
def news (s s' : State) : List Event :=
  (s'.report.toList.drop s.report.toList.length).map .reported

/-- What a step does in a state, apart from what it reports. -/
def deed (s : State) : Step → List Event
  | .consume x =>
    match s.current with
    | some k => if k.terminal = x then [.matched k] else []
    | none => []
  | .expectEnd => if s.current = none then [.ended] else []
  | .fire a => [.performed a s.lexeme s.line]
  | .empty | .expand _ => []

@[simp] theorem tokensOf_news (s s' : State) : tokensOf (s.news s') = [] :=
  tokensOf_map_reported _

@[simp] theorem wordOf_news (s s' : State) : wordOf (s.news s') = [] :=
  wordOf_map_reported _

theorem reportOf_news (s s' : State) :
    reportOf (s.news s') = s'.report.toList.drop s.report.toList.length :=
  reportOf_map_reported _

@[simp] theorem reportOf_deed (s : State) (x : Step) : reportOf (s.deed x) = [] := by
  cases x <;> simp only [deed] <;> (repeat' split) <;> rfl

theorem news_of_report_eq {l : List Diagnostic} (h : s'.report.toList = s.report.toList ++ l) :
    s.news s' = l.map .reported := by
  rw [news, h, List.drop_left]

theorem news_eq_nil (h : s'.report = s.report) : s.news s' = [] := by
  rw [news_of_report_eq (l := []) (by rw [h, List.append_nil]), List.map_nil]

/-- What is reported in between comes behind what has been reported before. -/
theorem report_eq_of_prefix (h : s.report.toList <+: s'.report.toList) :
    s'.report.toList = s.report.toList ++ reportOf (s.news s') := by
  rw [reportOf_news]
  exact (List.prefix_iff_eq_append.1 h).symm

end State

/-! ## What a parse does, with its history -/

/-- What a list of steps does from a state on, and what is to be written down of it. -/
inductive Logs (t : Table) : List Step → State → List Event → Flow × State → Prop
  /-- No steps do nothing. -/
  | nil (s : State) : Logs t [] s [] (.proceed, s)
  /-- The first step is done, and the others follow. -/
  | cons {x : Step} {rest : List Step} {s s' : State} {r : Flow × State} {E E' : List Event}
      (h : Logs t [x] s E (.proceed, s')) (hr : Logs t rest s' E' r) :
      Logs t (x :: rest) s (E ++ E') r
  /-- The parse is over with the first step. -/
  | halt {x : Step} {s s' : State} {E : List Event} (rest : List Step)
      (h : Logs t [x] s E (.halt, s')) : Logs t (x :: rest) s E (.halt, s')
  /-- A step on its own. -/
  | act {x : Step} {s : State} {r : Flow × State} (h : Acts x s r) :
      Logs t [x] s (s.deed x ++ s.news r.2) r
  /-- A nonterminal for which there is no alternative. -/
  | astray {id : Nat} {e : Entry} {s s' : State} {flow : Flow} (he : t.entries[id]? = some e)
      (hs : s.select e = (.error flow, s')) : Logs t [.expand id] s (s.news s') (flow, s')
  /-- A nonterminal for which there is one. -/
  | chosen {id : Nat} {e : Entry} {a : Alternative} {s s' : State} {r : Flow × State}
      {E : List Event} (he : t.entries[id]? = some e) (hs : s.select e = (.ok a, s'))
      (hr : Logs t a.steps (s'.enter e.name) E r) :
      Logs t [.expand id] s (s.news s' ++ E) (r.1, r.2.leaveAll 1)

theorem Logs.runs (h : Logs t steps s E r) : Runs t steps s r := by
  induction h with
  | nil s => exact .nil s
  | cons _ _ ih ihr => exact .cons ih ihr
  | halt rest _ ih => exact .halt rest ih
  | act h => exact .act h
  | astray he hs => exact .astray he hs
  | chosen he hs _ ih => exact .chosen he hs ih

theorem Runs.exists_logs (h : Runs t steps s r) : ∃ E, Logs t steps s E r := by
  induction h with
  | nil s => exact ⟨_, .nil s⟩
  | cons _ _ ih ihr =>
      obtain ⟨_, h⟩ := ih
      obtain ⟨_, hr⟩ := ihr
      exact ⟨_, .cons h hr⟩
  | halt rest _ ih =>
      obtain ⟨_, h⟩ := ih
      exact ⟨_, .halt rest h⟩
  | act h => exact ⟨_, .act h⟩
  | astray he hs => exact ⟨_, .astray he hs⟩
  | chosen he hs _ ih =>
      obtain ⟨_, h⟩ := ih
      exact ⟨_, .chosen he hs h⟩

/-- What has been reported in the end is what had been before, and what is in the history. -/
theorem Logs.report_eq (h : Logs t steps s E r) :
    r.2.report.toList = s.report.toList ++ reportOf E := by
  induction h with
  | nil s => simp
  | cons _ _ ih ihr =>
      rw [ihr, ih, reportOf_append, List.append_assoc]
  | halt _ _ ih => exact ih
  | act h =>
      rw [reportOf_append, State.reportOf_deed, List.nil_append]
      exact State.report_eq_of_prefix (respected_report.acts h)
  | astray _ hs =>
      exact State.report_eq_of_prefix (respected_report.selects (selects_of_select_eq hs))
  | @chosen _ _ _ _ s' r _ _ hs _ ih =>
      have h := respected_report.selects (selects_of_select_eq hs)
      have hbody : r.2.report.toList = s'.report.toList ++ _ := ih
      rw [reportOf_append, ← List.append_assoc, ← State.report_eq_of_prefix h]
      exact hbody

/-! ## There is one history -/

theorem Acts.eq (h : Acts x s r) (h' : Acts x s r') : r = r' := by
  cases h <;> cases h' <;> rfl

theorem Logs.of_nil (h : Logs t [] s E r) : E = [] ∧ r = (.proceed, s) := by
  cases h
  exact ⟨rfl, rfl⟩

/-- What a single step does. -/
theorem Logs.of_singleton (h : Logs t [x] s E r) :
    (Acts x s r ∧ E = s.deed x ++ s.news r.2) ∨
      ∃ id e, x = .expand id ∧ t.entries[id]? = some e ∧
        ((∃ flow s', s.select e = (.error flow, s') ∧ E = s.news s' ∧ r = (flow, s')) ∨
          ∃ a s' E' r', s.select e = (.ok a, s') ∧ Logs t a.steps (s'.enter e.name) E' r' ∧
            E = s.news s' ++ E' ∧ r = (r'.1, r'.2.leaveAll 1)) := by
  generalize hx : [x] = steps at h
  induction h with
  | nil s => cases hx
  | cons _ hr ih _ =>
      cases hx
      obtain ⟨rfl, rfl⟩ := hr.of_nil
      rw [List.append_nil]
      exact ih rfl
  | halt _ _ ih =>
      cases hx
      exact ih rfl
  | act h =>
      cases hx
      exact .inl ⟨h, rfl⟩
  | astray he hs =>
      cases hx
      exact .inr ⟨_, _, rfl, he, .inl ⟨_, _, hs, rfl, rfl⟩⟩
  | chosen he hs hr _ =>
      cases hx
      exact .inr ⟨_, _, rfl, he, .inr ⟨_, _, _, _, hs, hr, rfl, rfl⟩⟩

/-- What a list of steps does: the first one, and then the others if the parse goes on. -/
theorem Logs.of_cons (h : Logs t (x :: rest) s E r) :
    (∃ E₁ s' E₂, E = E₁ ++ E₂ ∧ Logs t [x] s E₁ (.proceed, s') ∧ Logs t rest s' E₂ r) ∨
      ∃ s', r = (.halt, s') ∧ Logs t [x] s E (.halt, s') := by
  have hsingle : Logs t [x] s E r → rest = [] →
      (∃ E₁ s' E₂, E = E₁ ++ E₂ ∧ Logs t [x] s E₁ (.proceed, s') ∧ Logs t rest s' E₂ r) ∨
        ∃ s', r = (.halt, s') ∧ Logs t [x] s E (.halt, s') := by
    rintro h rfl
    obtain ⟨flow | flow, s'⟩ := r
    · exact .inl ⟨E, s', [], (List.append_nil _).symm, h, .nil s'⟩
    · exact .inr ⟨s', rfl, h⟩
  cases h with
  | cons h hr => exact .inl ⟨_, _, _, rfl, h, hr⟩
  | halt _ h => exact .inr ⟨_, rfl, h⟩
  | act h => exact hsingle (.act h) rfl
  | astray he hs => exact hsingle (.astray he hs) rfl
  | chosen he hs hr => exact hsingle (.chosen he hs hr) rfl

/-- The steps and the state before them decide what is done and what comes of it. -/
theorem Logs.unique (h : Logs t steps s E r) {E' : List Event} (h' : Logs t steps s E' r') :
    E = E' ∧ r = r' := by
  induction h generalizing E' r' with
  | nil s =>
      obtain ⟨rfl, rfl⟩ := h'.of_nil
      exact ⟨rfl, rfl⟩
  | cons _ _ ih ihr =>
      rcases h'.of_cons with ⟨E₁, s', E₂, rfl, h₁, h₂⟩ | ⟨s', rfl, h₁⟩
      · obtain ⟨rfl, heq⟩ := ih h₁
        cases heq
        obtain ⟨rfl, rfl⟩ := ihr h₂
        exact ⟨rfl, rfl⟩
      · cases (ih h₁).2
  | halt _ _ ih =>
      rcases h'.of_cons with ⟨E₁, s', E₂, rfl, h₁, _⟩ | ⟨s', rfl, h₁⟩
      · cases (ih h₁).2
      · exact ih h₁
  | act h =>
      rcases h'.of_singleton with ⟨h₁, rfl⟩ | ⟨id, e, rfl, _⟩
      · cases h.eq h₁
        exact ⟨rfl, rfl⟩
      · cases h
  | astray he hs =>
      rcases h'.of_singleton with ⟨h₁, _⟩ | ⟨id, e, hid, he', h₁⟩
      · cases h₁
      · cases hid
        rw [he] at he'
        cases he'
        rcases h₁ with ⟨flow, s', hs', rfl, rfl⟩ | ⟨a, s', _, _, hs', _⟩
        · rw [hs] at hs'
          cases hs'
          exact ⟨rfl, rfl⟩
        · rw [hs] at hs'
          cases hs'
  | chosen he hs _ ih =>
      rcases h'.of_singleton with ⟨h₁, _⟩ | ⟨id, e, hid, he', h₁⟩
      · cases h₁
      · cases hid
        rw [he] at he'
        cases he'
        rcases h₁ with ⟨flow, s', hs', _⟩ | ⟨a, s', E₁, r₁, hs', h₁, rfl, rfl⟩
        · rw [hs] at hs'
          cases hs'
        · rw [hs] at hs'
          cases hs'
          obtain ⟨rfl, rfl⟩ := ih h₁
          exact ⟨rfl, rfl⟩

/-! ## Whole programs -/

variable {source : String} {o o' : Outcome}

/-- The history and the outcome of the parse of a program. -/
inductive History (t : Table) (source : String) : List Event → Outcome → Prop
  /-- The program is cut short before its first token. -/
  | cut {s : State} (ha : (State.ofSource source).advance = (.halt, s)) :
      History t source ((State.ofSource source).news s) s.outcome
  /-- The start symbol is derived from the first token on. -/
  | parsed {s : State} {E : List Event} {r : Flow × State}
      (ha : (State.ofSource source).advance = (.proceed, s))
      (h : Logs t [.expand t.start] s E r) :
      History t source ((State.ofSource source).news s ++ E) r.2.outcome

/-- What has a history is what the parser does. -/
theorem History.run_eq (h : History t source E o) : run t source = some o := by
  cases h with
  | cut ha => rw [run, finalState, ha, Option.map_some]
  | parsed ha h => rw [run, finalState_of_runs ha h.runs, Option.map_some]

/-- Whatever the parser does has a history. -/
theorem exists_history (h : run t source = some o) : ∃ E, History t source E o := by
  rw [run, Option.map_eq_some_iff] at h
  obtain ⟨s', h, rfl⟩ := h
  rcases runs_of_finalState h with ha | ⟨s, flow, ha, hr⟩
  · exact ⟨_, .cut ha⟩
  · obtain ⟨E, hE⟩ := hr.exists_logs
    exact ⟨_, .parsed ha hE⟩

/-- No program has two histories. -/
theorem History.unique {E' : List Event} (h : History t source E o)
    (h' : History t source E' o') : E = E' := by
  cases h with
  | cut ha =>
      cases h' with
      | cut ha' =>
          rw [ha] at ha'
          cases ha'
          rfl
      | parsed ha' _ =>
          rw [ha] at ha'
          cases ha'
  | parsed ha hE =>
      cases h' with
      | cut ha' =>
          rw [ha] at ha'
          cases ha'
      | parsed ha' hE' =>
          rw [ha] at ha'
          cases ha'
          rw [(hE.unique hE').1]

/-- The report is what is found wrong in the history. -/
theorem History.report_eq (h : History t source E o) : o.report.toList = reportOf E := by
  have hfirst {flow : Flow} {s : State} (ha : (State.ofSource source).advance = (flow, s)) :
      s.report.toList = reportOf ((State.ofSource source).news s) :=
    State.report_eq_of_prefix (State.prefix_of_advance_eq ha)
  cases h with
  | cut ha => exact hfirst ha
  | parsed ha hE =>
      rw [reportOf_append, ← hfirst ha]
      exact hE.report_eq

end ToneScript.Parse
