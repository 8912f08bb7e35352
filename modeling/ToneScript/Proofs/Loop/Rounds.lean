import Mathlib.Data.Nat.Notation

/-!
# Loops and their rounds

A loop repeats a step, which either goes on with another state or comes to a result.  It need not
come to one, so a loop is a relation, which counts the rounds on the way: the steps that went on.

Such a loop has at most one result, and one number of rounds.  It has a result if every round
lowers some measure, and then the measure of the state in which it began is a bound on the rounds.

## Main definitions

* `Loops` — a loop comes to a result after some rounds.

## Main statements

* `Loops.iff` — a loop that comes to a result comes to no other.
* `Loops.exists_stop` — what every round preserves holds in the last state.
* `exists_loops` — a loop comes to a result if its rounds lower a measure.
* `Loops.le_measure` — there are no more rounds than the measure allows.
-/

namespace ToneScript

/-- Repeating the step from a state comes to a result after some rounds. -/
inductive Loops {σ ρ : Type} (step : σ → ρ ⊕ σ) : (rounds : ℕ) → σ → ρ → Prop
  /-- The step comes to a result at once. -/
  | stop {s r} (h : step s = .inl r) : Loops step 0 s r
  /-- The step goes on, and the loop comes to a result from there. -/
  | round {n s s' r} (h : step s = .inr s') (hs : Loops step n s' r) : Loops step (n + 1) s r

variable {σ ρ : Type} {step : σ → ρ ⊕ σ} {s : σ} {r q : ρ} {n k : ℕ} {P : σ → Prop} {μ : σ → ℕ}

namespace Loops

/-- What is repeated leaves no choice. -/
theorem unique (h : Loops step n s r) (h' : Loops step k s q) : k = n ∧ q = r := by
  induction h generalizing k with
  | stop hr =>
      cases h' with
      | stop hq => exact ⟨rfl, Sum.inl.inj (hq.symm.trans hr)⟩
      | round hq _ => exact absurd (hr.symm.trans hq) Sum.inl_ne_inr
  | round hr _ ih =>
      cases h' with
      | stop hq => exact absurd (hq.symm.trans hr) Sum.inl_ne_inr
      | round hq hloop =>
          cases Sum.inr.inj (hr.symm.trans hq)
          obtain ⟨rfl, rfl⟩ := ih hloop
          exact ⟨rfl, rfl⟩

/-- A loop that comes to a result comes to no other, and in no other number of rounds. -/
protected theorem iff (h : Loops step n s r) : Loops step k s q ↔ k = n ∧ q = r := by
  refine ⟨h.unique, ?_⟩
  rintro ⟨rfl, rfl⟩
  exact h

/-- What every round preserves holds in the state in which the loop stops. -/
theorem exists_stop (hstep : ∀ s s', P s → step s = .inr s' → P s') (h : Loops step n s r)
    (hs : P s) : ∃ s', P s' ∧ step s' = .inl r := by
  induction h with
  | stop hr => exact ⟨_, hs, hr⟩
  | round hr _ ih => exact ih (hstep _ _ hs hr)

/-- If every round lowers a measure, then there are no more rounds than the measure allows. -/
theorem le_measure (hstep : ∀ s s', P s → step s = .inr s' → P s' ∧ μ s' < μ s)
    (h : Loops step n s r) (hs : P s) : n ≤ μ s := by
  induction h with
  | stop _ => exact Nat.zero_le _
  | round hr _ ih =>
      obtain ⟨hs', hlt⟩ := hstep _ _ hs hr
      have hle := ih hs'
      omega

end Loops

/-- If every round lowers a measure, then the loop comes to a result. -/
theorem exists_loops (hstep : ∀ s s', P s → step s = .inr s' → P s' ∧ μ s' < μ s) (hs : P s) :
    ∃ n r, Loops step n s r := by
  induction hm : μ s using Nat.strongRecOn generalizing s with
  | ind m ih =>
      cases hr : step s with
      | inl r => exact ⟨0, r, .stop hr⟩
      | inr s' =>
          obtain ⟨hs', hlt⟩ := hstep s s' hs hr
          obtain ⟨n, r, hloop⟩ := ih (μ s') (hm ▸ hlt) hs' rfl
          exact ⟨n + 1, r, .round hr hloop⟩

end ToneScript
