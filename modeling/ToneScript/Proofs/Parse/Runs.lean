import ToneScript.Parse.Descent

/-!
# What a parse does

The descent is given here as relations, with no bound on its depth and no loop: `Selects`
for the search for an alternative, `Acts` for the steps that derive no nonterminal, and
`Runs` for whole lists of steps.  What holds of every parse is proved by induction on
them.

A relation between states that every single step of a parse respects is respected by the
whole of it.  Two such relations are used throughout: the part of the program that is
left only shrinks, and the report only grows.

## Main definitions

* `Parse.Selects`, `Parse.Acts`, `Parse.Runs` — what a parse does.
* `Parse.Respected` — relations between the states before and after every step.
* `Parse.State.SamePlace`, `Parse.State.Precedes` — the parse stands where it stood, or has
  moved on.

## Main statements

* `Parse.selects_select` — what selecting an alternative does.
* `Parse.Runs.respects` — single steps and whole parses respect the same relations.
-/

namespace ToneScript.Parse

variable {t : Table} {e : Entry} {x : Step} {steps : List Step} {s s' s₁ s₂ : State}

/-! ## Selecting -/

/-- What the search for an alternative of `e` does from a state on. -/
inductive Selects (e : Entry) : State → Except Flow Alternative × State → Prop
  /-- The current token calls for an alternative. -/
  | chosen {s : State} {a : Alternative} (h : e.select? s.lookahead = some a) :
      Selects e s (.ok a, s)
  /-- The nonterminal is taken as read. -/
  | missing {s : State} (h : e.select? s.lookahead = none) (hf : s.lookahead ∈ e.follow) :
      Selects e s (.error .proceed, { s with report := s.report.missing e.name s.line })
  /-- The program is over. -/
  | ended {s : State} (h : e.select? s.lookahead = none) (hf : s.lookahead ∉ e.follow)
      (hc : s.current = none) :
      Selects e s (.error .halt, { s with report := s.report.unexpectedEnd s.line })
  /-- The current token is skipped, and the next one is cut short. -/
  | cut {s s' : State} {k : Token} (h : e.select? s.lookahead = none)
      (hf : s.lookahead ∉ e.follow) (hc : s.current = some k)
      (ha : { s with report := s.report.illegal k.terminal s.line }.advance = (.halt, s')) :
      Selects e s (.error .halt, s')
  /-- The current token is skipped, and the search goes on. -/
  | skip {s s' : State} {k : Token} {r : Except Flow Alternative × State}
      (h : e.select? s.lookahead = none) (hf : s.lookahead ∉ e.follow)
      (hc : s.current = some k)
      (ha : { s with report := s.report.illegal k.terminal s.line }.advance = (.proceed, s'))
      (hr : Selects e s' r) : Selects e s r

theorem selects_select (e : Entry) (s : State) : Selects e s (s.select e) := by
  fun_induction State.select e s with
  | case1 s a h => exact .chosen h
  | case2 s h hf => exact .missing h hf
  | case3 s h hf hc => exact .ended h hf hc
  | case4 s h hf k hc s' ha => exact .cut h hf hc ha
  | case5 s h hf k hc s' ha ih => exact .skip h hf hc ha ih

/-- The search has one result. -/
theorem Selects.eq {r : Except Flow Alternative × State} (h : Selects e s r) :
    s.select e = r := by
  have h' := selects_select e s
  generalize s.select e = r' at h'
  induction h with
  | chosen h => cases h' <;> simp_all
  | missing h hf => cases h' <;> simp_all
  | ended h hf hc => cases h' <;> simp_all
  | cut h hf hc ha => cases h' <;> simp_all
  | skip h hf hc ha _ ih =>
      cases h' with
      | skip _ _ hc' ha' hr' =>
          rw [hc] at hc'
          cases hc'
          rw [ha] at ha'
          cases ha'
          exact ih hr'
      | _ => simp_all

theorem selects_of_select_eq {r : Except Flow Alternative × State} (h : s.select e = r) :
    Selects e s r := by
  rw [← h]
  exact selects_select e s

theorem Selects.select?_eq {a : Alternative} (h : Selects e s (.ok a, s')) :
    e.select? s'.lookahead = some a := by
  generalize hr : (Except.ok a, s') = r at h
  induction h with
  | chosen h =>
      cases hr
      exact h
  | missing _ _ => cases hr
  | ended _ _ _ => cases hr
  | cut _ _ _ _ => cases hr
  | skip _ _ _ _ _ ih => exact ih hr

/-! ## Running -/

/-- What a step does that derives no nonterminal. -/
inductive Acts : Step → State → Flow × State → Prop
  /-- A terminal is matched. -/
  | consume (x : String) (s : State) : Acts (.consume x) s (s.consume x)
  /-- The end of the program is matched. -/
  | expectEnd (s : State) : Acts .expectEnd s (.proceed, s.expectEnd)
  /-- The empty sequence is matched. -/
  | empty (s : State) : Acts .empty s (.proceed, s.deriveEmpty)
  /-- An action is performed. -/
  | fire (a : Action) (s : State) : Acts (.fire a) s (.proceed, s.fire a)

/-- A step is a nonterminal, or it acts. -/
theorem expand_or_acts (x : Step) (s : State) : (∃ id, x = .expand id) ∨ ∃ r, Acts x s r := by
  cases x with
  | consume x => exact .inr ⟨_, .consume x s⟩
  | expectEnd => exact .inr ⟨_, .expectEnd s⟩
  | expand id => exact .inl ⟨id, rfl⟩
  | empty => exact .inr ⟨_, .empty s⟩
  | fire a => exact .inr ⟨_, .fire a s⟩

/-- What a list of steps does from a state on. -/
inductive Runs (t : Table) : List Step → State → Flow × State → Prop
  /-- No steps do nothing. -/
  | nil (s : State) : Runs t [] s (.proceed, s)
  /-- The first step is done, and the others follow. -/
  | cons {x : Step} {rest : List Step} {s s' : State} {r : Flow × State}
      (h : Runs t [x] s (.proceed, s')) (hr : Runs t rest s' r) : Runs t (x :: rest) s r
  /-- The parse is over with the first step. -/
  | halt {x : Step} {s s' : State} (rest : List Step) (h : Runs t [x] s (.halt, s')) :
      Runs t (x :: rest) s (.halt, s')
  /-- A step on its own. -/
  | act {x : Step} {s : State} {r : Flow × State} (h : Acts x s r) : Runs t [x] s r
  /-- A nonterminal for which there is no alternative. -/
  | astray {id : Nat} {e : Entry} {s s' : State} {flow : Flow} (he : t.entries[id]? = some e)
      (hs : s.select e = (.error flow, s')) : Runs t [.expand id] s (flow, s')
  /-- A nonterminal for which there is one. -/
  | chosen {id : Nat} {e : Entry} {a : Alternative} {s s' : State} {r : Flow × State}
      (he : t.entries[id]? = some e) (hs : s.select e = (.ok a, s'))
      (hr : Runs t a.steps (s'.enter e.name) r) :
      Runs t [.expand id] s (r.1, r.2.leaveAll 1)

/-! ## Respected relations -/

/-- A relation between two states of a parse that holds across every change that a parse
makes, and across any number of them. -/
structure Respected (R : State → State → Prop) : Prop where
  refl : ∀ s, R s s
  trans : ∀ {s₁ s₂ s₃}, R s₁ s₂ → R s₂ s₃ → R s₁ s₃
  push : ∀ (s : State) (d : Diagnostic), d.line = s.line →
    R s { s with report := s.report.push d }
  machine : ∀ (s : State) (m : Machine), R s { s with machine := m }
  tree : ∀ (s : State) (b : Tree.Builder), R s { s with tree := b }
  advance : ∀ {s : State} {k : Token}, s.current = some k → R s s.advance.2

namespace Respected

variable {R : State → State → Prop}

theorem illegal (hR : Respected R) {k : Token} (hc : s.current = some k) :
    R s { s with report := s.report.illegal k.terminal s.line }.advance.2 :=
  hR.trans (hR.push s _ rfl) (hR.advance (s := { s with report := _ }) hc)

theorem selects (hR : Respected R) {r : Except Flow Alternative × State} (h : Selects e s r) :
    R s r.2 := by
  induction h with
  | chosen _ => exact hR.refl _
  | missing _ _ => exact hR.push _ _ rfl
  | ended _ _ _ => exact hR.push _ _ rfl
  | cut _ _ hc ha =>
      have h := hR.illegal hc
      rwa [ha] at h
  | skip _ _ hc ha _ ih =>
      have h := hR.illegal hc
      rw [ha] at h
      exact hR.trans h ih

theorem consume (hR : Respected R) (s : State) (x : String) : R s (s.consume x).2 := by
  unfold State.consume
  split
  · rename_i k hc
    split
    · exact hR.trans (hR.tree s _) (hR.advance (s := { s with tree := _ }) hc)
    · exact hR.push s _ (by simp [State.line, hc])
  · rename_i hc
    exact hR.push s _ (by simp [State.line, hc])

theorem fire (hR : Respected R) (s : State) (a : Action) : R s (s.fire a) := by
  unfold State.fire
  split
  · exact hR.machine s _
  · exact hR.trans (hR.push s _ rfl) (hR.machine { s with report := _ } _)

theorem acts (hR : Respected R) {r : Flow × State} (h : Acts x s r) : R s r.2 := by
  cases h with
  | consume x s => exact hR.consume s x
  | expectEnd s =>
      unfold State.expectEnd
      split
      · exact hR.tree s _
      · rename_i k hc
        exact hR.push s _ (by simp [State.line, hc])
  | empty s => exact hR.tree s _
  | fire a s => exact hR.fire s a

end Respected

/-- A whole parse respects what its steps respect. -/
theorem Runs.respects {R : State → State → Prop} {r : Flow × State} (h : Runs t steps s r)
    (hR : Respected R) : R s r.2 := by
  induction h with
  | nil s => exact hR.refl s
  | cons _ _ ih ihr => exact hR.trans ih ihr
  | halt _ _ ih => exact ih
  | act h => exact hR.acts h
  | astray _ hs => exact hR.selects (selects_of_select_eq hs)
  | chosen _ hs _ ih =>
      have h := hR.selects (selects_of_select_eq hs)
      exact hR.trans (hR.trans h (hR.tree _ _)) (hR.trans ih (hR.tree _ _))

/-! ## Progress and reports -/

namespace State

/-- The same is left of the program. -/
def SamePlace (s s' : State) : Prop := s'.pending = s.pending ∧ s'.current = s.current

theorem SamePlace.symm (h : s.SamePlace s') : s'.SamePlace s := ⟨h.1.symm, h.2.symm⟩

theorem SamePlace.trans (h : s.SamePlace s₁) (h' : s₁.SamePlace s₂) : s.SamePlace s₂ :=
  ⟨h'.1.trans h.1, h'.2.trans h.2⟩

theorem SamePlace.remaining_eq (h : s.SamePlace s') : s'.remaining = s.remaining := by
  rw [remaining, remaining, h.1, h.2]

theorem SamePlace.lookahead_eq (h : s.SamePlace s') : s'.lookahead = s.lookahead := by
  rw [lookahead, lookahead, h.2]

theorem samePlace_deriveEmpty (s : State) : s.SamePlace s.deriveEmpty := ⟨rfl, rfl⟩

theorem samePlace_enter (s : State) (label : String) : s.SamePlace (s.enter label) := ⟨rfl, rfl⟩

theorem samePlace_leaveAll (s : State) (n : Nat) : s.SamePlace (s.leaveAll n) := ⟨rfl, rfl⟩

theorem samePlace_expectEnd (s : State) : s.SamePlace s.expectEnd := by
  unfold expectEnd
  split <;> exact ⟨rfl, rfl⟩

theorem samePlace_fire (s : State) (a : Action) : s.SamePlace (s.fire a) := by
  unfold fire
  split <;> exact ⟨rfl, rfl⟩

theorem remaining_consume_lt {k : Token} (hc : s.current = some k) :
    (s.consume k.terminal).2.remaining < s.remaining := by
  have hlt := remaining_advance_lt
    (s := { s with current := some k, tree := s.tree.addLeaf (toString k) }) rfl
  have hrem : s.remaining = s.pending.length + 1 := by
    rw [remaining, hc]
    rfl
  rw [consume, hc, hrem]
  simp only [if_pos]
  exact hlt

/-- The parse has come further, or it still stands at the same place. -/
def Precedes (s s' : State) : Prop := s'.remaining < s.remaining ∨ s.SamePlace s'

theorem Precedes.remaining_le (h : Precedes s s') : s'.remaining ≤ s.remaining := by
  rcases h with h | h
  · exact Nat.le_of_lt h
  · exact Nat.le_of_eq h.remaining_eq

theorem prefix_advanceOver (s : State) (scans : List Scan) :
    s.report.toList <+: (s.advanceOver scans).2.report.toList := by
  fun_induction advanceOver s scans with
  | case1 s => exact List.prefix_rfl
  | case2 s => exact List.prefix_rfl
  | case3 s t rest _ ih => exact ih
  | case4 s t rest _ => exact List.prefix_rfl
  | case5 s f x n rest ih =>
      rw [Report.toList_push] at ih
      exact (List.prefix_append _ _).trans ih
  | case6 s x n rest =>
      rw [Report.toList_push]
      exact List.prefix_append _ _

theorem prefix_of_advance_eq {flow : Flow} (h : s.advance = (flow, s')) :
    s.report.toList <+: s'.report.toList := by
  have hp := prefix_advanceOver s s.pending
  rwa [← advance, h] at hp

theorem suffix_advanceOver (s : State) (scans : List Scan) :
    (s.advanceOver scans).2.pending <:+ scans := by
  fun_induction advanceOver s scans with
  | case1 s => exact List.suffix_rfl
  | case2 s => exact List.nil_suffix
  | case3 s t rest _ ih => exact ih.trans (List.suffix_cons _ _)
  | case4 s t rest _ => exact List.suffix_cons _ _
  | case5 s f x n rest ih => exact ih.trans (List.suffix_cons _ _)
  | case6 s x n rest => exact List.suffix_cons _ _

end State

theorem respected_precedes : Respected State.Precedes where
  refl s := .inr ⟨rfl, rfl⟩
  trans := by
    rintro s₁ s₂ s₃ h₁ h₂
    rcases h₂ with h₂ | h₂
    · exact .inl (Nat.lt_of_lt_of_le h₂ h₁.remaining_le)
    · rcases h₁ with h₁ | h₁
      · rw [← h₂.remaining_eq] at h₁
        exact .inl h₁
      · exact .inr (h₁.trans h₂)
  push _ _ _ := .inr ⟨rfl, rfl⟩
  machine _ _ := .inr ⟨rfl, rfl⟩
  tree _ _ := .inr ⟨rfl, rfl⟩
  advance hc := .inl (State.remaining_advance_lt hc)

/-- Nothing is ever taken back from the report. -/
theorem respected_report :
    Respected fun s s' => s.report.toList <+: s'.report.toList where
  refl _ := List.prefix_rfl
  trans := List.IsPrefix.trans
  push s d _ := by
    rw [Report.toList_push]
    exact List.prefix_append _ _
  machine _ _ := List.prefix_rfl
  tree _ _ := List.prefix_rfl
  advance _ := State.prefix_advanceOver _ _

/-- The scans are looked at one after the other. -/
theorem respected_pending : Respected fun s s' => s'.pending <:+ s.pending where
  refl _ := List.suffix_rfl
  trans h₁ h₂ := h₂.trans h₁
  push _ _ _ := List.suffix_rfl
  machine _ _ := List.suffix_rfl
  tree _ _ := List.suffix_rfl
  advance _ := State.suffix_advanceOver _ _

end ToneScript.Parse
