import ToneScript.Proofs.Parse.Calls

/-!
# The moments of a parse

A parse is over when it has an outcome, but much can be said of the states that it passes on the
way.  Here they are given along the steps, each with the history up to then.  The history of a
whole parse goes on from there, whatever comes next, and the evaluator is what the calls so far
have made of it.

In search of an alternative, and on the way to the next token, a parse passes further states.
They differ from the one before only in the place and in the report.

## Main definitions

* `Parse.Passes` — a state is passed on the way along some steps.
* `Parse.Visits` — a state is passed in the parse of a whole program.

## Main statements

* `Parse.Visits.prefix_of_history` — the history so far is the beginning of the whole one.
* `Parse.Visits.machine_eq` — the evaluator is what the calls so far have made of it.
* `Parse.History.exists_visits` — right behind every call a state is passed.
* `Parse.exists_visits_of_finalState` — the state at the end is one of those that are passed.
-/

namespace ToneScript.Parse

variable {t : Table} {steps : List Step} {s s' : State} {r : Flow × State}
  {E E' : List Event} {source : String} {o : Outcome}

/-- On the way along some steps a parse passes the second state, and this is what it has done
until then. -/
inductive Passes (t : Table) : List Step → State → List Event → State → Prop
  /-- Nothing is done yet. -/
  | start (steps : List Step) (s : State) : Passes t steps s [] s
  /-- All steps are done, or the parse is over early. -/
  | stop {steps : List Step} {s : State} {E : List Event} {r : Flow × State}
      (h : Logs t steps s E r) : Passes t steps s E r.2
  /-- The first step is under way. -/
  | first {x : Step} {rest : List Step} {s s' : State} {E : List Event}
      (h : Passes t [x] s E s') : Passes t (x :: rest) s E s'
  /-- The first step is done, and the others are under way. -/
  | later {x : Step} {rest : List Step} {s s₁ s' : State} {E E' : List Event}
      (h : Logs t [x] s E (.proceed, s₁)) (hr : Passes t rest s₁ E' s') :
      Passes t (x :: rest) s (E ++ E') s'
  /-- A nonterminal is being derived. -/
  | inside {id : Nat} {e : Entry} {a : Alternative} {s s₁ s' : State} {E : List Event}
      (he : t.entries[id]? = some e) (hs : s.select e = (.ok a, s₁))
      (h : Passes t a.steps (s₁.enter e.name) E s') :
      Passes t [.expand id] s (s.news s₁ ++ E) s'

/-- The whole history goes on from there. -/
theorem Passes.prefix_of_logs (h : Passes t steps s E s') (h' : Logs t steps s E' r) :
    E <+: E' := by
  induction h generalizing E' r with
  | start steps s => exact List.nil_prefix
  | stop h => rw [(h.unique h').1]
  | first _ ih =>
      rcases h'.of_cons with ⟨E₁, s₁, E₂, rfl, h₁, _⟩ | ⟨s₁, _, h₁⟩
      · exact (ih h₁).trans (List.prefix_append _ _)
      · exact ih h₁
  | later h _ ih =>
      rcases h'.of_cons with ⟨E₁, s₁, E₂, rfl, h₁, h₂⟩ | ⟨s₁, _, h₁⟩
      · obtain ⟨rfl, heq⟩ := h.unique h₁
        cases heq
        exact (List.prefix_append_right_inj _).2 (ih h₂)
      · cases (h.unique h₁).2
  | inside he hs _ ih =>
      rcases h'.of_singleton with ⟨hact, _⟩ | ⟨_, e', hid, he', hcase⟩
      · cases hact
      · cases hid
        rw [he] at he'
        cases he'
        rcases hcase with ⟨flow, s₁, hs', _⟩ | ⟨a, s₁, E₁, r₁, hs', h₁, rfl, _⟩
        · rw [hs] at hs'
          cases hs'
        · rw [hs] at hs'
          cases hs'
          exact (List.prefix_append_right_inj _).2 (ih h₁)

/-- The evaluator is what the calls so far have made of it. -/
theorem Passes.machine_eq (h : Passes t steps s E s') :
    s'.machine = (s.machine.performAll (callsOf E)).1 := by
  induction h with
  | start steps s => rfl
  | stop h => rw [h.performAll_eq]
  | first _ ih => exact ih
  | later h _ ih =>
      rw [ih, callsOf_append, Machine.performAll_append, h.performAll_eq]
  | inside _ hs _ ih =>
      have hidle := (selects_of_select_eq hs).idles.machine_eq
      rw [ih, callsOf_append, callsOf_news, List.nil_append, ← hidle]
      rfl

/-- Right behind every call a state is passed. -/
theorem Logs.exists_passes (h : Logs t steps s E r) {c : Machine.Call} (hc : c ∈ callsOf E) :
    ∃ E' s' m, Passes t steps s E' s' ∧ s'.machine = (Machine.perform m c.action c.lexeme).1 := by
  induction h with
  | nil s => exact absurd hc List.not_mem_nil
  | cons h _ ih ihr =>
      rw [callsOf_append, List.mem_append] at hc
      rcases hc with hc | hc
      · obtain ⟨E', s', m, hpass, hm⟩ := ih hc
        exact ⟨E', s', m, .first hpass, hm⟩
      · obtain ⟨E', s', m, hpass, hm⟩ := ihr hc
        exact ⟨_, s', m, .later h hpass, hm⟩
  | halt _ _ ih =>
      obtain ⟨E', s', m, hpass, hm⟩ := ih hc
      exact ⟨E', s', m, .first hpass, hm⟩
  | @act x s r h =>
      rw [callsOf_append, callsOf_news, List.append_nil] at hc
      obtain ⟨a, rfl, rfl⟩ := State.exists_of_mem_callsOf_deed hc
      exact ⟨_, r.2, s.machine, .stop (.act h), (congrArg Prod.fst h.performAll_eq).symm⟩
  | astray _ _ =>
      rw [callsOf_news] at hc
      exact absurd hc List.not_mem_nil
  | chosen he hs _ ih =>
      rw [callsOf_append, callsOf_news, List.nil_append] at hc
      obtain ⟨E', s', m, hpass, hm⟩ := ih hc
      exact ⟨_, s', m, .inside he hs hpass, hm⟩

/-! ## Whole programs -/

/-- In the parse of a program the state is passed, and this is what has been done until then. -/
inductive Visits (t : Table) (source : String) : List Event → State → Prop
  /-- Nothing has been looked at yet. -/
  | start : Visits t source [] (.ofSource source)
  /-- The program is cut short before its first token. -/
  | cut {s : State} (ha : (State.ofSource source).advance = (.halt, s)) :
      Visits t source ((State.ofSource source).news s) s
  /-- The start symbol is being derived. -/
  | parsing {s s' : State} {E : List Event}
      (ha : (State.ofSource source).advance = (.proceed, s))
      (h : Passes t [.expand t.start] s E s') :
      Visits t source ((State.ofSource source).news s ++ E) s'

/-- The whole history goes on from there. -/
theorem Visits.prefix_of_history (h : Visits t source E s) (h' : History t source E' o) :
    E <+: E' := by
  cases h with
  | start => exact List.nil_prefix
  | cut ha =>
      cases h' with
      | cut ha' =>
          rw [ha] at ha'
          cases ha'
          exact List.prefix_rfl
      | parsed ha' _ =>
          rw [ha] at ha'
          cases ha'
  | parsing ha h =>
      cases h' with
      | cut ha' =>
          rw [ha] at ha'
          cases ha'
      | parsed ha' h' =>
          rw [ha] at ha'
          cases ha'
          exact (List.prefix_append_right_inj _).2 (h.prefix_of_logs h')

/-- The evaluator is what the calls so far have made of it. -/
theorem Visits.machine_eq (h : Visits t source E s) :
    s.machine = (Machine.performAll {} (callsOf E)).1 := by
  have hfirst := State.Idles.advance (.ofSource source)
  cases h with
  | start => rfl
  | cut ha =>
      rw [ha] at hfirst
      rw [callsOf_news]
      exact hfirst.machine_eq
  | @parsing s _ _ ha h =>
      rw [ha] at hfirst
      have hm : s.machine = {} := hfirst.machine_eq
      rw [callsOf_append, callsOf_news, List.nil_append, ← hm]
      exact h.machine_eq

/-- Right behind every call a state is passed. -/
theorem History.exists_visits (h : History t source E o) {c : Machine.Call} (hc : c ∈ callsOf E) :
    ∃ E' s m, Visits t source E' s ∧ s.machine = (Machine.perform m c.action c.lexeme).1 := by
  cases h with
  | cut ha =>
      rw [callsOf_news] at hc
      exact absurd hc List.not_mem_nil
  | parsed ha h =>
      rw [callsOf_append, callsOf_news, List.nil_append] at hc
      obtain ⟨E', s', m, hpass, hm⟩ := h.exists_passes hc
      exact ⟨_, s', m, .parsing ha hpass, hm⟩

/-- The state at the end is one that is passed. -/
theorem exists_visits_of_finalState (h : finalState t (.ofSource source) = some s) :
    ∃ E, Visits t source E s := by
  rcases ha : (State.ofSource source).advance with ⟨flow | flow, s₁⟩
  · simp only [finalState, ha, expand_eq_descend, Option.map_eq_some_iff] at h
    obtain ⟨r, hr, rfl⟩ := h
    obtain ⟨E, hE⟩ := (runs_of_descend hr).exists_logs
    exact ⟨_, .parsing ha (.stop hE)⟩
  · simp only [finalState, ha, Option.some.injEq] at h
    cases h
    exact ⟨_, .cut ha⟩

end ToneScript.Parse
