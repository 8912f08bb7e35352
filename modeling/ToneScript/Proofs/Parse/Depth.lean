import Mathlib.Data.Finset.Card
import ToneScript.Proofs.Parse.Runs

/-!
# Depth

The descent derives no more than a given number of nonterminals inside one another.  Here
it is compared with `Runs`, which knows no such bound.

First the loop is undone: `descend` derives the last nonterminal of an alternative like
any other, and leaves the same nodes.  A result that is found at some depth is found at
every greater depth.  And a depth of the number of nonterminals times the number of
places suffices: what is done next depends on the place alone, so a nonterminal that comes
up inside itself at the same place does so at every depth, and no result is ever found.

## Main definitions

* `Parse.takeSteps`, `Parse.descend` — the plain recursive descent.
* `Parse.Simulation` — relations between states that a parse cannot tell apart.
* `Parse.ended` — the nonterminals that come to an end at a place.

## Main statements

* `Parse.expandInside_eq_descend` — the loop and the plain descent do the same.
* `Parse.Runs.exists_takeSteps` — what runs is found at some depth.
* `Parse.descend_of_descend` — what is found at some depth is found at a depth that is
  known beforehand.
* `Parse.finalState_of_runs` — whatever runs to an end is what the parser does.
* `Parse.expand_agrees` — the loop and the plain descent come to the same end, or both to none.
-/

namespace ToneScript.Parse

variable {t : Table} {e : Entry} {x : Step} {steps : List Step} {s s' s₁ s₂ : State}
  {r : Flow × State}

/-! ## Without the loop -/

/-- Takes the steps of an alternative, the last one like the others. -/
def takeSteps (expand : Nat → State → Option (Flow × State)) :
    List Step → State → Option (Flow × State)
  | [], s => some (.proceed, s)
  | x :: rest, s =>
    match takeStep expand x s with
    | none => none
    | some (.halt, s') => some (.halt, s')
    | some (.proceed, s') => takeSteps expand rest s'

/-- Derives the nonterminal `id`, with a call for every nonterminal inside. -/
def descend (t : Table) : (depth : Nat) → (id : Nat) → State → Option (Flow × State)
  | 0, _, _ => none
  | depth + 1, id, s =>
    match t.entries[id]? with
    | none => none
    | some e =>
      match s.select e with
      | (.error flow, s') => some (flow, s')
      | (.ok a, s') =>
        (takeSteps (descend t depth) a.steps (s'.enter e.name)).map fun r => (r.1, r.2.leaveAll 1)

/-- Stopping before the last nonterminal and deriving it then is taking all steps. -/
theorem takeSteps_eq_derive (f : Nat → State → Option (Flow × State)) (steps : List Step)
    (s : State) :
    takeSteps f steps s = match derive f steps s with
      | none => none
      | some (.done flow, s') => some (flow, s')
      | some (.tail id, s') => f id s' := by
  fun_induction derive f steps s with
  | case1 s => rfl
  | case2 s id =>
      simp only [takeSteps, takeStep]
      split <;> simp_all
  | case3 x rest s _ h => simp only [takeSteps, h]
  | case4 x rest s _ s' h => simp only [takeSteps, h]
  | case5 x rest s _ s' h ih => simp only [takeSteps, h, ih]

theorem expandInside_eq_descend (t : Table) (depth id entered : Nat) (s : State) :
    expandInside t depth id entered s =
      (descend t depth id s).map fun r => (r.1, r.2.leaveAll entered) := by
  induction depth generalizing id entered s with
  | zero => rfl
  | succ depth ih =>
      have hf : (fun id s => expandInside t depth id 0 s) = descend t depth := by
        funext id s
        rw [ih]
        cases descend t depth id s <;> rfl
      rw [expandInside, descend, hf]
      cases t.entries[id]? with
      | none => rfl
      | some e =>
          dsimp only
          rcases hsel : s.select e with ⟨flow | a, s'⟩
          · rfl
          · simp only [takeSteps_eq_derive]
            rcases derive (descend t depth) a.steps (s'.enter e.name) with _ | ⟨flow | next, s''⟩
            · rfl
            · rfl
            · simp only [ih, Option.map_map]
              rfl

theorem expand_eq_descend (t : Table) (depth id : Nat) (s : State) :
    expand t depth id s = descend t depth id s := by
  rw [expand, expandInside_eq_descend]
  cases descend t depth id s <;> rfl

/-! ## Greater depths -/

theorem Acts.takeStep_eq (f : Nat → State → Option (Flow × State)) (h : Acts x s r) :
    takeStep f x s = some r := by
  cases h <;> rfl

/-- Two ways to derive nonterminals that agree on every state that is met on the way lead
to the same result.  `P` is what is known of these states. -/
theorem takeSteps_of_takeSteps {f g : Nat → State → Option (Flow × State)} {P : State → Prop}
    (hP : ∀ {x s r}, P s → Acts x s r → P r.2)
    (hf : ∀ {id s r}, P s → f id s = some r → P r.2 ∧ g id s = some r) (hs : P s)
    (h : takeSteps f steps s = some r) : takeSteps g steps s = some r := by
  induction steps generalizing s with
  | nil => exact h
  | cons x rest ih =>
      have hstep : ∀ {q}, takeStep f x s = some q → P q.2 ∧ takeStep g x s = some q := by
        intro q hq
        rcases expand_or_acts x s with ⟨id, rfl⟩ | ⟨q', hact⟩
        · exact hf hs hq
        · rw [hact.takeStep_eq f] at hq
          cases hq
          exact ⟨hP hs hact, hact.takeStep_eq g⟩
      rw [takeSteps] at h
      cases hq : takeStep f x s with
      | none => simp [hq] at h
      | some q =>
          obtain ⟨hPq, hg⟩ := hstep hq
          rw [takeSteps, hg]
          rw [hq] at h
          obtain ⟨flow | flow, s'⟩ := q
          · exact ih hPq h
          · exact h

/-- What a descent of one more level amounts to. -/
theorem descend_eq_some_iff {d id : Nat} :
    descend t (d + 1) id s = some r ↔ ∃ e, t.entries[id]? = some e ∧
      ((∃ flow s', s.select e = (.error flow, s') ∧ r = (flow, s')) ∨
        ∃ a s' q, s.select e = (.ok a, s') ∧
          takeSteps (descend t d) a.steps (s'.enter e.name) = some q ∧
          r = (q.1, q.2.leaveAll 1)) := by
  constructor
  · intro h
    rw [descend] at h
    split at h
    · cases h
    · rename_i e he
      refine ⟨e, he, ?_⟩
      split at h
      · rename_i flow s' hs
        exact .inl ⟨flow, s', hs, (Option.some.inj h).symm⟩
      · rename_i a s' hs
        obtain ⟨q, hq, hr⟩ := Option.map_eq_some_iff.1 h
        exact .inr ⟨a, s', q, hs, hq, hr.symm⟩
  · rintro ⟨e, he, ⟨flow, s', hs, rfl⟩ | ⟨a, s', q, hs, hq, rfl⟩⟩
    · simp only [descend, he, hs]
    · simp only [descend, he, hs, hq, Option.map_some]

theorem descend_succ {d id : Nat} (h : descend t d id s = some r) :
    descend t (d + 1) id s = some r := by
  induction d generalizing id s r with
  | zero => exact absurd h (by simp [descend])
  | succ d ih =>
      obtain ⟨e, he, h⟩ := descend_eq_some_iff.1 h
      refine descend_eq_some_iff.2 ⟨e, he, h.imp_right ?_⟩
      rintro ⟨a, s', q, hs, hq, hr⟩
      refine ⟨a, s', q, hs, ?_, hr⟩
      exact takeSteps_of_takeSteps (P := fun _ => True) (fun _ _ => trivial)
        (fun _ h => ⟨trivial, ih h⟩) trivial hq

theorem descend_mono {d d' id : Nat} (hd : d ≤ d') (h : descend t d id s = some r) :
    descend t d' id s = some r := by
  induction hd with
  | refl => exact h
  | step _ ih => exact descend_succ ih

theorem takeSteps_mono {d d' : Nat} (hd : d ≤ d') (h : takeSteps (descend t d) steps s = some r) :
    takeSteps (descend t d') steps s = some r :=
  takeSteps_of_takeSteps (P := fun _ => True) (fun _ _ => trivial)
    (fun _ h => ⟨trivial, descend_mono hd h⟩) trivial h

theorem takeSteps_singleton (f : Nat → State → Option (Flow × State)) (x : Step) (s : State) :
    takeSteps f [x] s = takeStep f x s := by
  rw [takeSteps]
  rcases takeStep f x s with _ | ⟨flow | flow, s'⟩ <;> rfl

/-- What runs is found at some depth. -/
theorem Runs.exists_takeSteps (h : Runs t steps s r) :
    ∃ d, takeSteps (descend t d) steps s = some r := by
  induction h with
  | nil s => exact ⟨0, rfl⟩
  | cons _ _ ih ihr =>
      obtain ⟨d, h⟩ := ih
      obtain ⟨d', h'⟩ := ihr
      have hx := takeSteps_mono (Nat.le_max_left d d') h
      have hrest := takeSteps_mono (Nat.le_max_right d d') h'
      rw [takeSteps_singleton] at hx
      exact ⟨max d d', by simp only [takeSteps, hx, hrest]⟩
  | halt rest _ ih =>
      obtain ⟨d, h⟩ := ih
      rw [takeSteps_singleton] at h
      exact ⟨d, by simp only [takeSteps, h]⟩
  | act h => exact ⟨0, by rw [takeSteps_singleton, h.takeStep_eq]⟩
  | @astray id e s s' flow he hs =>
      refine ⟨1, ?_⟩
      rw [takeSteps_singleton]
      exact descend_eq_some_iff.2 ⟨e, he, .inl ⟨flow, s', hs, rfl⟩⟩
  | @chosen id e a s s' r he hs _ ih =>
      obtain ⟨d, h⟩ := ih
      refine ⟨d + 1, ?_⟩
      rw [takeSteps_singleton]
      exact descend_eq_some_iff.2 ⟨e, he, .inr ⟨a, s', r, hs, h, rfl⟩⟩

theorem runs_of_takeSteps_of {f : Nat → State → Option (Flow × State)}
    (hf : ∀ {id s r}, f id s = some r → Runs t [.expand id] s r)
    (h : takeSteps f steps s = some r) : Runs t steps s r := by
  induction steps generalizing s with
  | nil =>
      cases h
      exact .nil s
  | cons x rest ih =>
      have hstep : ∀ {q}, takeStep f x s = some q → Runs t [x] s q := by
        intro q hq
        rcases expand_or_acts x s with ⟨id, rfl⟩ | ⟨q', hact⟩
        · exact hf hq
        · rw [hact.takeStep_eq f] at hq
          cases hq
          exact .act hact
      rw [takeSteps] at h
      split at h
      · cases h
      · rename_i s' hq
        cases h
        exact .halt rest (hstep hq)
      · rename_i s' hq
        exact .cons (hstep hq) (ih h)

/-- What is found at some depth runs. -/
theorem runs_of_descend {d id : Nat} (h : descend t d id s = some r) :
    Runs t [.expand id] s r := by
  induction d generalizing id s r with
  | zero => cases h
  | succ d ih =>
      obtain ⟨e, he, ⟨flow, s', hs, rfl⟩ | ⟨a, s', q, hs, hq, rfl⟩⟩ := descend_eq_some_iff.1 h
      · exact .astray he hs
      · exact .chosen he hs (runs_of_takeSteps_of ih hq)

/-! ## Simulation -/

/-- A relation between states at which a parse does the same. -/
structure Simulation (R : State → State → Prop) : Prop where
  act : ∀ {x s s' r}, R s s' → Acts x s r → ∃ r', Acts x s' r' ∧ r'.1 = r.1 ∧ R r.2 r'.2
  select : ∀ (e : Entry) {s s' : State}, R s s' →
    (s'.select e).1 = (s.select e).1 ∧ R (s.select e).2 (s'.select e).2
  enter : ∀ (label : String) {s s' : State}, R s s' → R (s.enter label) (s'.enter label)
  leaveAll : ∀ (n : Nat) {s s' : State}, R s s' → R (s.leaveAll n) (s'.leaveAll n)

namespace Simulation

variable {R : State → State → Prop}

theorem takeSteps (hR : Simulation R) {f : Nat → State → Option (Flow × State)}
    (hf : ∀ {id s s' r}, R s s' → f id s = some r →
      ∃ r', f id s' = some r' ∧ r'.1 = r.1 ∧ R r.2 r'.2)
    (hs : R s s') (h : Parse.takeSteps f steps s = some r) :
    ∃ r', Parse.takeSteps f steps s' = some r' ∧ r'.1 = r.1 ∧ R r.2 r'.2 := by
  induction steps generalizing s s' with
  | nil =>
      cases h
      exact ⟨_, rfl, rfl, hs⟩
  | cons x rest ih =>
      have hstep : ∀ {q}, takeStep f x s = some q →
          ∃ q', takeStep f x s' = some q' ∧ q'.1 = q.1 ∧ R q.2 q'.2 := by
        intro q hq
        rcases expand_or_acts x s with ⟨id, rfl⟩ | ⟨q', hact⟩
        · exact hf hs hq
        · rw [hact.takeStep_eq f] at hq
          cases hq
          obtain ⟨q', hact', hflow, hq'⟩ := hR.act hs hact
          exact ⟨q', hact'.takeStep_eq f, hflow, hq'⟩
      rw [Parse.takeSteps] at h ⊢
      split at h
      · cases h
      · rename_i s₁ hq
        cases h
        obtain ⟨⟨_, s₂⟩, hq', rfl, hs'⟩ := hstep hq
        exact ⟨(.halt, s₂), by rw [hq'], rfl, hs'⟩
      · rename_i s₁ hq
        obtain ⟨⟨_, s₂⟩, hq', rfl, hs'⟩ := hstep hq
        obtain ⟨r', hr, hflow, hr'⟩ := ih hs' h
        exact ⟨r', by rw [hq']; exact hr, hflow, hr'⟩

theorem descend (hR : Simulation R) {d id : Nat} (hs : R s s')
    (h : Parse.descend t d id s = some r) :
    ∃ r', Parse.descend t d id s' = some r' ∧ r'.1 = r.1 ∧ R r.2 r'.2 := by
  induction d generalizing id s s' r with
  | zero => cases h
  | succ d ih =>
      obtain ⟨e, he, h⟩ := descend_eq_some_iff.1 h
      obtain ⟨hsel, hs'⟩ := hR.select e hs
      rcases h with ⟨flow, s₁, hs₁, rfl⟩ | ⟨a, s₁, q, hs₁, hq, rfl⟩
      · rw [hs₁] at hsel hs'
        have hsel' : s'.select e = (.error flow, (s'.select e).2) := Prod.ext hsel rfl
        exact ⟨_, descend_eq_some_iff.2 ⟨e, he, .inl ⟨flow, _, hsel', rfl⟩⟩, rfl, hs'⟩
      · rw [hs₁] at hsel hs'
        have hsel' : s'.select e = (.ok a, (s'.select e).2) := Prod.ext hsel rfl
        obtain ⟨q', hq', hflow, hr⟩ :=
          hR.takeSteps (f := Parse.descend t d) ih (hR.enter e.name hs') hq
        exact ⟨_, descend_eq_some_iff.2 ⟨e, he, .inr ⟨a, _, q', hsel', hq', rfl⟩⟩, hflow,
          hR.leaveAll 1 hr⟩

/-- Where a nonterminal runs from one of two related states, it does the same from the other. -/
theorem runs (hR : Simulation R) {id : Nat} (hs : R s s') (h : Runs t [.expand id] s r) :
    ∃ r', Runs t [.expand id] s' r' ∧ r'.1 = r.1 ∧ R r.2 r'.2 := by
  obtain ⟨d, hd⟩ := h.exists_takeSteps
  rw [takeSteps_singleton] at hd
  obtain ⟨r', hr', hflow, hend⟩ := hR.descend hs hd
  exact ⟨r', runs_of_descend hr', hflow, hend⟩

end Simulation

/-! ## Places -/

namespace State

theorem samePlace_advanceOver (s s' : State) (scans : List Scan) :
    (s'.advanceOver scans).1 = (s.advanceOver scans).1 ∧
      (s.advanceOver scans).2.SamePlace (s'.advanceOver scans).2 := by
  induction scans generalizing s s' with
  | nil => exact ⟨rfl, rfl, rfl⟩
  | cons c scans ih =>
      cases c with
      | token k =>
          rw [advanceOver, advanceOver]
          split
          · exact ih s s'
          · exact ⟨rfl, rfl, rfl⟩
      | invalid f x n =>
          rw [advanceOver, advanceOver]
          exact ih _ _
      | truncated x n => exact ⟨rfl, rfl, rfl⟩
      | done => exact ⟨rfl, rfl, rfl⟩

theorem SamePlace.advance (h : s.SamePlace s') :
    s'.advance.1 = s.advance.1 ∧ s.advance.2.SamePlace s'.advance.2 := by
  rw [State.advance, State.advance, h.1]
  exact samePlace_advanceOver s s' s.pending

theorem SamePlace.advance_illegal {flow : Flow} {k : Token} (h : s.SamePlace s')
    (ha : { s with report := s.report.illegal k.terminal s.line }.advance = (flow, s₁)) :
    ∃ s₂, { s' with report := s'.report.illegal k.terminal s'.line }.advance = (flow, s₂) ∧
      s₁.SamePlace s₂ := by
  have hreport : SamePlace { s with report := s.report.illegal k.terminal s.line }
      { s' with report := s'.report.illegal k.terminal s'.line } := h
  obtain ⟨hflow, hplace⟩ := hreport.advance
  rw [ha] at hflow hplace
  generalize { s' with report := s'.report.illegal k.terminal s'.line }.advance = r at hflow hplace
  exact ⟨r.2, Prod.ext hflow rfl, hplace⟩

theorem SamePlace.consume (h : s.SamePlace s') (x : String) :
    (s'.consume x).1 = (s.consume x).1 ∧ (s.consume x).2.SamePlace (s'.consume x).2 := by
  unfold State.consume
  rw [h.2]
  split
  · split
    · exact SamePlace.advance ⟨h.1, rfl⟩
    · exact ⟨rfl, h.1, rfl⟩
  · exact ⟨rfl, h.1, rfl⟩

theorem SamePlace.selects {q : Except Flow Alternative × State} (h : s.SamePlace s')
    (hs : Selects e s q) : ∃ q', Selects e s' q' ∧ q'.1 = q.1 ∧ q.2.SamePlace q'.2 := by
  induction hs generalizing s' with
  | @chosen s a hsel =>
      rw [← h.lookahead_eq] at hsel
      exact ⟨_, .chosen hsel, rfl, h⟩
  | @missing s hsel hf =>
      rw [← h.lookahead_eq] at hsel hf
      exact ⟨_, .missing hsel hf, rfl, h⟩
  | @ended s hsel hf hc =>
      rw [← h.lookahead_eq] at hsel hf
      exact ⟨_, .ended hsel hf (h.2.trans hc), rfl, h⟩
  | @cut s s₁ k hsel hf hc ha =>
      rw [← h.lookahead_eq] at hsel hf
      obtain ⟨s₂, ha', hplace⟩ := h.advance_illegal ha
      exact ⟨_, .cut hsel hf (h.2.trans hc) ha', rfl, hplace⟩
  | @skip s s₁ k q hsel hf hc ha _ ih =>
      rw [← h.lookahead_eq] at hsel hf
      obtain ⟨s₂, ha', hplace⟩ := h.advance_illegal ha
      obtain ⟨q', hq', hflow, hplace'⟩ := ih hplace
      exact ⟨q', .skip hsel hf (h.2.trans hc) ha' hq', hflow, hplace'⟩

end State

/-- What a parse does next depends on its place alone. -/
theorem simulation_samePlace : Simulation State.SamePlace where
  act := by
    intro x s s' r h hact
    cases hact with
    | consume x s =>
        obtain ⟨hflow, hplace⟩ := h.consume x
        exact ⟨_, .consume x s', hflow, hplace⟩
    | expectEnd s =>
        refine ⟨_, .expectEnd s', rfl, ?_⟩
        exact (State.samePlace_expectEnd s).symm.trans (h.trans (State.samePlace_expectEnd s'))
    | empty s => exact ⟨_, .empty s', rfl, h⟩
    | fire a s =>
        refine ⟨_, .fire a s', rfl, ?_⟩
        exact (State.samePlace_fire s a).symm.trans (h.trans (State.samePlace_fire s' a))
  select := by
    intro e s s' h
    obtain ⟨q', hq', hflow, hplace⟩ := h.selects (selects_select e s)
    rw [hq'.eq]
    exact ⟨hflow, hplace⟩
  enter _ := fun h => h
  leaveAll _ := fun h => h

/-! ## The depth that suffices -/

/-- The nonterminals that come to an end at this place within the given depth. -/
def ended (t : Table) (d : Nat) (s : State) : Finset Nat :=
  (Finset.range t.entries.size).filter fun id => (descend t d id s).isSome

theorem mem_ended_iff {d id : Nat} : id ∈ ended t d s ↔ ∃ r, descend t d id s = some r := by
  rw [ended, Finset.mem_filter, Finset.mem_range, Option.isSome_iff_exists]
  constructor
  · exact And.right
  · rintro ⟨r, h⟩
    refine ⟨?_, r, h⟩
    cases d with
    | zero => cases h
    | succ d =>
        obtain ⟨e, he, _⟩ := descend_eq_some_iff.1 h
        exact (Array.getElem?_eq_some_iff.1 he).1

theorem card_ended_le (t : Table) (d : Nat) (s : State) : (ended t d s).card ≤ t.entries.size := by
  have h := Finset.card_filter_le (Finset.range t.entries.size)
    fun id => (descend t d id s).isSome = true
  rwa [Finset.card_range] at h

theorem State.SamePlace.ended_eq (h : s.SamePlace s') (d : Nat) : ended t d s' = ended t d s := by
  ext id
  rw [mem_ended_iff, mem_ended_iff]
  constructor
  · rintro ⟨r, hr⟩
    obtain ⟨r', hr', _⟩ := simulation_samePlace.descend h.symm hr
    exact ⟨r', hr'⟩
  · rintro ⟨r, hr⟩
    obtain ⟨r', hr', _⟩ := simulation_samePlace.descend h hr
    exact ⟨r', hr'⟩

theorem ended_subset_succ (t : Table) (d : Nat) (s : State) : ended t d s ⊆ ended t (d + 1) s := by
  intro id h
  obtain ⟨r, hr⟩ := mem_ended_iff.1 h
  exact mem_ended_iff.2 ⟨r, descend_succ hr⟩

/-- A depth at which a result is found: every nonterminal that ends at this place counts
once, and all of them count for every place behind it. -/
theorem descend_of_descend {d id : Nat} (h : descend t d id s = some r) :
    descend t (t.entries.size * s.remaining + (ended t d s).card) id s = some r := by
  induction d generalizing id s r with
  | zero => cases h
  | succ d ih =>
      by_cases hd : ∃ r', descend t d id s = some r'
      · obtain ⟨r', hr'⟩ := hd
        rw [descend_succ hr'] at h
        cases h
        refine descend_mono ?_ (ih hr')
        exact Nat.add_le_add_left (Finset.card_le_card (ended_subset_succ t d s)) _
      · -- `id` is counted at this depth and was not before, which leaves room for one level
        have hcard : (ended t d s).card < (ended t (d + 1) s).card := by
          refine Finset.card_lt_card ⟨ended_subset_succ t d s, ?_⟩
          intro hsub
          exact hd (mem_ended_iff.1 (hsub (mem_ended_iff.2 ⟨r, h⟩)))
        obtain ⟨n, hn⟩ : ∃ n, t.entries.size * s.remaining + (ended t (d + 1) s).card = n + 1 :=
          Nat.exists_eq_succ_of_ne_zero (by omega)
        rw [hn]
        obtain ⟨e, he, h⟩ := descend_eq_some_iff.1 h
        refine descend_eq_some_iff.2 ⟨e, he, h.imp_right ?_⟩
        rintro ⟨a, s₁, q, hs₁, hq, hr⟩
        refine ⟨a, s₁, q, hs₁, ?_, hr⟩
        have hsel : s.Precedes s₁ := respected_precedes.selects (selects_of_select_eq hs₁)
        refine takeSteps_of_takeSteps (P := s.Precedes) ?_ ?_
          (respected_precedes.trans hsel (respected_precedes.tree s₁ _)) hq
        · intro x s₂ r' hs₂ hact
          exact respected_precedes.trans hs₂ (respected_precedes.acts hact)
        · intro B s₂ r' hs₂ hr'
          refine ⟨respected_precedes.trans hs₂ ((runs_of_descend hr').respects respected_precedes),
            descend_mono ?_ (ih hr')⟩
          rcases hs₂ with hlt | hplace
          · have hmul := Nat.mul_le_mul_left t.entries.size hlt
            have hle := card_ended_le t d s₂
            rw [Nat.mul_succ] at hmul
            omega
          · rw [hplace.remaining_eq, hplace.ended_eq]
            omega

/-- A depth that suffices and does not depend on what has been found. -/
theorem descend_of_le {d d' id : Nat} (h : descend t d id s = some r)
    (hd : t.entries.size * (s.remaining + 1) ≤ d') : descend t d' id s = some r := by
  refine descend_mono ?_ (descend_of_descend h)
  have hcard := card_ended_le t d s
  rw [Nat.mul_succ] at hd
  omega

/-- The parser goes deep enough: where the start symbol runs to an end, the parser does
what runs. -/
theorem finalState_of_runs (ha : s.advance = (.proceed, s')) (h : Runs t [.expand t.start] s' r) :
    finalState t s = some r.2 := by
  obtain ⟨d, hd⟩ := h.exists_takeSteps
  rw [takeSteps_singleton] at hd
  have hle : t.entries.size * (s'.remaining + 1) ≤ maxDepth t s := by
    have hrem : s'.remaining ≤ s.pending.length := by
      have h := State.remaining_advanceOver_le s s.pending
      rwa [← State.advance, ha] at h
    have hmul : t.entries.size * (s'.remaining + 1) ≤ t.entries.size * (s.pending.length + 2) :=
      Nat.mul_le_mul_left _ (by omega)
    rw [maxDepth]
    omega
  have hexpand : expand t (maxDepth t s) t.start s' = some r := by
    rw [expand_eq_descend]
    exact descend_of_le hd hle
  simp only [finalState, ha, hexpand, Option.map_some]

/-- What the parser does is over with the way to the first token, or the start symbol runs from
there. -/
theorem runs_of_finalState (h : finalState t s = some s₂) :
    s.advance = (.halt, s₂) ∨
      ∃ s₁ flow, s.advance = (.proceed, s₁) ∧ Runs t [.expand t.start] s₁ (flow, s₂) := by
  rcases ha : s.advance with ⟨flow | flow, s₁⟩
  · simp only [finalState, ha, expand_eq_descend, Option.map_eq_some_iff] at h
    obtain ⟨⟨flow, s₂⟩, hr, rfl⟩ := h
    exact .inr ⟨s₁, flow, rfl, runs_of_descend hr⟩
  · simp only [finalState, ha, Option.some.injEq] at h
    exact .inl (by rw [h])

/-! ## The loop and the calls -/

/-- From every state on, the loop that derives the last nonterminal in place and leaves all nodes
at the end does what is done by a call for every nonterminal that enters a node and leaves it:
either both find no end, however deep they go, or both come to the same end. -/
theorem expand_agrees (t : Table) (id : Nat) (s : State) :
    (∀ depth, expand t depth id s = descend t depth id s) ∧
      ((∀ depth, expand t depth id s = none ∧ descend t depth id s = none) ∨
        ∃ flow s', Runs t [.expand id] s (flow, s') ∧
          ∀ depth, t.entries.size * (s.remaining + 1) ≤ depth →
            expand t depth id s = some (flow, s') ∧ descend t depth id s = some (flow, s')) := by
  refine ⟨fun depth => expand_eq_descend t depth id s, ?_⟩
  by_cases h : ∃ d r, descend t d id s = some r
  · obtain ⟨d, ⟨flow, s'⟩, hd⟩ := h
    refine .inr ⟨flow, s', runs_of_descend hd, fun depth hle => ?_⟩
    have hdepth := descend_of_le hd hle
    exact ⟨by rw [expand_eq_descend, hdepth], hdepth⟩
  · refine .inl fun depth => ?_
    have hnone : descend t depth id s = none :=
      Option.eq_none_iff_forall_ne_some.2 fun r hr => h ⟨depth, r, hr⟩
    exact ⟨by rw [expand_eq_descend, hnone], hnone⟩

end ToneScript.Parse
