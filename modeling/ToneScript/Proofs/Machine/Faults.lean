import ToneScript.Proofs.Parse.Calls

/-!
# How actions fail

Every action has its own ways to fail, and some failures tell what the evaluator was like before.
That there is no name to look up means that none lay on top of the stack.  So this never happens
as long as a name is looked up only right behind the call that saves it: then the name is still
there, for there is no other call in between.

## Main definitions

* `Machine.FailsWith` — how an action can fail, and when.
* `Machine.Heralded` — calls among which a name is looked up only right behind where it is saved.

## Main statements

* `Machine.failsWith_of_perform` — no action fails in another way.
* `Machine.Heralded.cause_ne_noName` — heralded calls always find the name.
-/

namespace ToneScript.Machine

variable {m : Machine} {a : Action} {lexeme x : String} {f : Value.Fault}
  {r : Except Value.Fault Value} {c : Call} {cs cs' : List Call} {d : Diagnostic} {ready : Bool}

/-! ## Single actions -/

/-- How an action can fail on a lexeme. -/
inductive FailsWith (m : Machine) (lexeme : String) : Action → Value.Fault → Prop
  /-- There is no text to take as the result. -/
  | noText : FailsWith m lexeme .printFinalResult .noText
  /-- The lexeme denotes no number. -/
  | badNumber (h : readNumber? lexeme = none) : FailsWith m lexeme .pushNumber (.badNumber lexeme)
  /-- There is no sum. -/
  | add {f : Value.Fault} (h : f = .noSum ∨ f = .overflow ∨ f = .tooLong) :
      FailsWith m lexeme .add f
  /-- There is no product. -/
  | multiply {f : Value.Fault} (h : f = .noProduct ∨ f = .overflow ∨ f = .tooManyCopies) :
      FailsWith m lexeme .multiply f
  /-- A variable has no value. -/
  | undefined {a : Action} {x : String} (ha : a = .lookupAndPushValue ∨ a = .lookupSavedId)
      (h : m.store[x]? = none) : FailsWith m lexeme a (.undefinedVariable x)
  /-- There is no name on top of the stack. -/
  | noName (h : ∀ x rest, m.stack ≠ .name x :: rest) : FailsWith m lexeme .lookupSavedId .noName
  /-- There is no value to assign. -/
  | noValue : FailsWith m lexeme .assign .noValue
  /-- There is no name to assign it to. -/
  | noTarget : FailsWith m lexeme .assign .noTarget

theorem eq_error_of_conclude (h : (m.conclude r).2 = some f) : r = .error f := by
  cases r with
  | ok v => cases h
  | error e =>
      cases h
      rfl

theorem getElem?_eq_none_of_lookup (h : (m.lookup x).2 = some f) :
    f = .undefinedVariable x ∧ m.store[x]? = none := by
  have herror := eq_error_of_conclude h
  split at herror
  · cases herror
  · rename_i hnone
    cases herror
    exact ⟨rfl, hnone⟩

theorem fault_of_add {v w : Value} (h : Value.add v w = .error f) :
    f = .noSum ∨ f = .overflow ∨ f = .tooLong := by
  unfold Value.add at h
  split at h
  · split at h
    · cases h
    · cases h
      exact .inr (.inl rfl)
  · split at h
    · cases h
    · cases h
      exact .inr (.inr rfl)
  · cases h
    exact .inl rfl

theorem fault_of_ofRepeated {k : Int} (h : Value.ofRepeated x k = .error f) :
    f = .tooManyCopies := by
  unfold Value.ofRepeated at h
  split at h
  · cases h
  · cases h
    rfl

theorem fault_of_mul {v w : Value} (h : Value.mul v w = .error f) :
    f = .noProduct ∨ f = .overflow ∨ f = .tooManyCopies := by
  unfold Value.mul at h
  split at h
  · split at h
    · cases h
    · cases h
      exact .inr (.inl rfl)
  · exact .inr (.inr (fault_of_ofRepeated h))
  · exact .inr (.inr (fault_of_ofRepeated h))
  · cases h
    exact .inl rfl

/-- An operator fails on two values, or there are no two values. -/
theorem fault_of_combine {op : Value → Value → Except Value.Fault Value} {e : Value.Fault}
    (h : (m.combine op e).2 = some f) : f = e ∨ ∃ v w, op v w = .error f := by
  have herror := eq_error_of_conclude h
  split at herror
  · exact .inr ⟨_, _, herror⟩
  · cases herror
    exact .inl rfl

/-- No action fails in another way. -/
theorem failsWith_of_perform (h : (m.perform a lexeme).2 = some f) : m.FailsWith lexeme a f := by
  cases a with
  | printFinalResult =>
      simp only [perform] at h
      split at h
      · cases h
      · cases h
        exact .noText
  | saveId => cases h
  | assign =>
      simp only [perform] at h
      split at h
      · cases h
      · cases h
        exact .noTarget
      · cases h
        exact .noValue
  | pushNumber =>
      have herror := eq_error_of_conclude h
      split at herror
      · cases herror
      · rename_i hread
        cases herror
        exact .badNumber hread
  | pushString => cases h
  | add =>
      rcases fault_of_combine h with rfl | ⟨v, w, hadd⟩
      · exact .add (.inl rfl)
      · exact .add (fault_of_add hadd)
  | multiply =>
      rcases fault_of_combine h with rfl | ⟨v, w, hmul⟩
      · exact .multiply (.inl rfl)
      · exact .multiply (fault_of_mul hmul)
  | lookupAndPushValue =>
      obtain ⟨rfl, hnone⟩ := getElem?_eq_none_of_lookup h
      exact .undefined (.inl rfl) hnone
  | lookupSavedId =>
      simp only [perform] at h
      split at h
      · obtain ⟨rfl, hnone⟩ := getElem?_eq_none_of_lookup h
        exact .undefined (.inr rfl) hnone
      · rename_i hstack
        cases h
        exact .noName hstack

/-- What is reported is the failure of the first call, or it is reported of the others. -/
theorem mem_performAll_cons : d ∈ (m.performAll (c :: cs)).2 ↔
    (∃ f, (m.perform c.action c.lexeme).2 = some f ∧ d = ⟨c.line, .action f⟩) ∨
      d ∈ ((m.perform c.action c.lexeme).1.performAll cs).2 := by
  simp [performAll, eq_comm]

/-- What some calls report is the failure of one of them. -/
theorem exists_of_mem_performAll (h : d ∈ (m.performAll cs).2) :
    ∃ c ∈ cs, ∃ m' f, d = ⟨c.line, .action f⟩ ∧ FailsWith m' c.lexeme c.action f := by
  induction cs generalizing m with
  | nil => cases h
  | cons c cs ih =>
      rcases mem_performAll_cons.1 h with ⟨f, hf, rfl⟩ | h
      · exact ⟨c, List.mem_cons_self, m, f, rfl, failsWith_of_perform hf⟩
      · obtain ⟨c', hc', hfails⟩ := ih h
        exact ⟨c', List.mem_cons_of_mem c hc', hfails⟩

/-! ## Heralded calls -/

/-- A name is looked up only right behind the call that saves it.  That call may have been the last
one before these calls, which is then `ready`. -/
def Heralded : (ready : Bool) → List Call → Prop
  | _, [] => True
  | ready, c :: cs =>
    (c.action = .lookupSavedId → ready = true) ∧ Heralded (c.action = .saveId) cs

namespace Heralded

theorem of_false (h : Heralded false cs) (ready : Bool) : Heralded ready cs := by
  cases cs with
  | nil => trivial
  | cons c cs => exact ⟨fun hc => absurd (h.1 hc) Bool.false_ne_true, h.2⟩

theorem append (h : Heralded ready cs) (h' : Heralded false cs') :
    Heralded ready (cs ++ cs') := by
  induction cs generalizing ready with
  | nil => exact h'.of_false ready
  | cons c cs ih => exact ⟨h.1, ih h.2⟩

/-- Heralded calls always find the name. -/
theorem cause_ne_noName (h : Heralded ready cs)
    (hm : ready = true → ∃ x rest, m.stack = .name x :: rest) :
    ∀ d ∈ (m.performAll cs).2, d.cause ≠ .action .noName := by
  induction cs generalizing m ready with
  | nil => exact fun d hd => absurd hd List.not_mem_nil
  | cons c cs ih =>
      intro d hd
      rcases mem_performAll_cons.1 hd with ⟨f, hf, rfl⟩ | hd
      · intro hcause
        obtain rfl : f = .noName := by simpa using hcause
        generalize ha : c.action = a at hf
        cases failsWith_of_perform hf with
        | noName hstack =>
            obtain ⟨x, rest, htop⟩ := hm (h.1 ha)
            exact hstack x rest htop
        | add h => simp at h
        | multiply h => simp at h
      · refine ih h.2 (fun hsave => ?_) d hd
        rw [of_decide_eq_true hsave]
        exact ⟨c.lexeme, m.stack, rfl⟩

end Heralded

end ToneScript.Machine
