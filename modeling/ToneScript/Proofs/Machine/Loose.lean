import Mathlib.Data.Set.Defs
import Mathlib.Logic.Function.Basic
import ToneScript.Proofs.Parse.Calls

/-!
# Actions, operand by operand

The evaluator looks at the operands of an action together, and its store has room for values
only.  Here is an evaluator that is told neither: it takes its operands off the stack one by one
before it looks at them, it ends an action early when one of them is of no use, it writes its own
report, and its variables may hold names as well.  Still no action leaves it with half of its work
done: an action that reports a fault has taken its operands and changed nothing else, and one
that reports none has done all that it is for.

Nothing but values ever comes into the store.  So, from the beginning on, this evaluator is the
other one.

## Main definitions

* `Action.taken`, `Action.given`, `Action.balance` — the operands that an action takes and gives.
* `Machine.Loose` — an evaluator that works operand by operand.
* `Machine.Loose.Performs` — what an action may do.
* `Machine.Loose.ofMachine` — the evaluator and its report, seen in that way.

## Main statements

* `Machine.Loose.performs_perform` — an action does what it may, whatever the state.
* `Machine.Loose.performAll_ofMachine` — the evaluator, operand by operand.
* `Machine.Loose.performAll_performs` — all of it, along all sequences of actions.
-/

namespace ToneScript

namespace Action

/-- The number of operands that an action takes off the stack. -/
def taken : Action → ℕ
  | add | multiply | assign => 2
  | printFinalResult | lookupSavedId => 1
  | saveId | pushNumber | pushString | lookupAndPushValue => 0

/-- The number of operands that an action puts on the stack, unless it fails. -/
def given : Action → ℕ
  | printFinalResult | assign => 0
  | saveId | pushNumber | pushString | add | multiply | lookupAndPushValue | lookupSavedId => 1

/-- By how much the stack grows with an action, unless it fails. -/
def balance : Action → ℤ
  | saveId | pushNumber | pushString | lookupAndPushValue => 1
  | lookupSavedId => 0
  | add | multiply | printFinalResult => -1
  | assign => -2

theorem balance_eq (a : Action) : a.balance = a.given - a.taken := by cases a <;> rfl

/-- Whether there is anything about the action that may fail. -/
def canFail : Action → Bool
  | saveId | pushString => false
  | _ => true

end Action

namespace Machine

/-- An evaluator whose variables may hold anything that can lie on the stack, with its report. -/
structure Loose where
  /-- The operands, the topmost first. -/
  stack : List Operand := []
  /-- What the variables hold that have been assigned. -/
  store : String → Option Operand := fun _ => none
  /-- The text of the program. -/
  output : Option String := none
  /-- What has been found wrong. -/
  report : List Diagnostic := []

namespace Loose

/-- Pushes an operand. -/
def push (e : Loose) (x : Operand) : Loose := { e with stack := x :: e.stack }

/-- Takes the topmost operand, if there is any. -/
def pop (e : Loose) : Option Operand × Loose := (e.stack.head?, { e with stack := e.stack.tail })

/-- Reports a fault. -/
def fail (e : Loose) (f : Value.Fault) (line : ℕ) : Loose :=
  { e with report := e.report ++ [⟨line, .action f⟩] }

/-- Pushes a result, or reports why there is none. -/
def conclude (e : Loose) (r : Except Value.Fault Value) (line : ℕ) : Loose :=
  match r with
  | .ok v => e.push (.value v)
  | .error f => e.fail f line

/-- Pushes what a variable holds. -/
def lookup (e : Loose) (x : String) (line : ℕ) : Loose :=
  match e.store x with
  | some a => e.push a
  | none => e.fail (.undefinedVariable x) line

/-- Takes two operands, and replaces them by what `f` makes of them, if they are values. -/
def combine (e : Loose) (f : Value → Value → Except Value.Fault Value) (other : Value.Fault)
    (line : ℕ) : Loose :=
  let (rhs, e) := e.pop
  let (lhs, e) := e.pop
  match lhs, rhs with
  | some (.value v), some (.value w) => e.conclude (f v w) line
  | _, _ => e.fail other line

/-- Performs an action. -/
def perform (e : Loose) (c : Call) : Loose :=
  match c.action with
  | .printFinalResult =>
    let (x, e) := e.pop
    match x with
    | some (.value (.text s)) => { e with output := some s }
    | _ => e.fail .noText c.line
  | .saveId => e.push (.name c.lexeme)
  | .pushNumber =>
    match readNumber? c.lexeme with
    | some n => e.push (.value (.number n))
    | none => e.fail (.badNumber c.lexeme) c.line
  | .pushString => e.push (.value (.text (unquote c.lexeme)))
  | .add => e.combine Value.add .noSum c.line
  | .multiply => e.combine Value.mul .noProduct c.line
  | .lookupAndPushValue => e.lookup c.lexeme c.line
  | .lookupSavedId =>
    let (x, e) := e.pop
    match x with
    | some (.name x) => e.lookup x c.line
    | _ => e.fail .noName c.line
  | .assign =>
    let (v, e) := e.pop
    let (x, e) := e.pop
    match v with
    | some (.value v) =>
      match x with
      | some (.name x) => { e with store := Function.update e.store x (some (.value v)) }
      | _ => e.fail .noTarget c.line
    | _ => e.fail .noValue c.line

/-- Performs some actions, one after the other. -/
def performAll (e : Loose) (cs : List Call) : Loose := cs.foldl perform e

/-- The variables that have been assigned. -/
def assigned (e : Loose) : Set String := {x | (e.store x).isSome}

/-! ## What an action may do -/

/-- What an action may do to the evaluator. -/
inductive Performs (c : Call) (e e' : Loose) : Prop
  /-- One fault is reported, and the operands are gone, as far as there have been any. -/
  | failed (fallible : c.action.canFail)
      (report : ∃ d, e'.report = e.report ++ [d] ∧ d.kind = .logical ∧ d.line = c.line)
      (stack : e'.stack = e.stack.drop (min c.action.taken e.stack.length))
      (store : e'.store = e.store) (output : e'.output = e.output)
  /-- No fault is reported.  There have been operands enough, and what was below them is still
  there; only a final text is put out, and only a value is assigned, to the name below it. -/
  | done (report : e'.report = e.report) (operands : c.action.taken ≤ e.stack.length)
      (stack : ∃ l, l.length = c.action.given ∧ e'.stack = l ++ e.stack.drop c.action.taken)
      (height : (e'.stack.length : ℤ) = e.stack.length + c.action.balance)
      (output : e'.output = e.output ∨ c.action = .printFinalResult ∧ ∃ s rest,
        e.stack = .value (.text s) :: rest ∧ e'.output = some s)
      (store : e'.store = e.store ∨ c.action = .assign ∧ ∃ v x rest,
        e.stack = .value v :: .name x :: rest ∧
          e'.store = Function.update e.store x (some (.value v)))

variable {c : Call} {cs : List Call} {e e' e₁ : Loose}

/-- The operands of the action have been taken, and nothing else has been done. -/
def Taken (c : Call) (e e₁ : Loose) : Prop :=
  e₁ = { e with stack := e.stack.drop c.action.taken }

theorem taken_zero (h : c.action.taken = 0) : Taken c e e := by
  rw [Taken, h, List.drop_zero]

theorem taken_one (h : c.action.taken = 1) : Taken c e e.pop.2 := by
  rw [Taken, h, List.drop_one]
  rfl

theorem taken_two (h : c.action.taken = 2) : Taken c e e.pop.2.pop.2 := by
  rw [Taken, h, ← List.tail_drop, List.drop_one]
  rfl

/-- What has been popped was on top. -/
theorem stack_eq_of_pop {x : Operand} (h : e.pop.1 = some x) : e.stack = x :: e.pop.2.stack :=
  List.eq_cons_of_mem_head? h

theorem height_eq {l : List Operand} (hlength : c.action.taken ≤ e.stack.length)
    (hl : l.length = c.action.given) (h : e'.stack = l ++ e.stack.drop c.action.taken) :
    (e'.stack.length : ℤ) = e.stack.length + c.action.balance := by
  rw [h, c.action.balance_eq, List.length_append, List.length_drop, hl]
  omega

namespace Performs

theorem of_fail (h : Taken c e e₁) (hc : c.action.canFail) (f : Value.Fault) :
    Performs c e (e₁.fail f c.line) := by
  subst h
  refine .failed hc ⟨_, rfl, rfl, rfl⟩ ?_ rfl rfl
  rcases Nat.le_total c.action.taken e.stack.length with hle | hle
  · rw [Nat.min_eq_left hle]
    rfl
  · rw [Nat.min_eq_right hle, List.drop_length]
    exact List.drop_eq_nil_of_le hle

theorem of_push (h : Taken c e e₁) (hlength : c.action.taken ≤ e.stack.length)
    (hgiven : c.action.given = 1) (x : Operand) : Performs c e (e₁.push x) := by
  subst h
  have hl : [x].length = c.action.given := hgiven.symm
  exact .done rfl hlength ⟨[x], hl, rfl⟩ (height_eq hlength hl rfl) (.inl rfl) (.inl rfl)

theorem of_conclude (h : Taken c e e₁) (hlength : c.action.taken ≤ e.stack.length)
    (hgiven : c.action.given = 1) (hc : c.action.canFail) (r : Except Value.Fault Value) :
    Performs c e (e₁.conclude r c.line) := by
  cases r with
  | ok v => exact of_push h hlength hgiven _
  | error f => exact of_fail h hc f

theorem of_lookup (h : Taken c e e₁) (hlength : c.action.taken ≤ e.stack.length)
    (hgiven : c.action.given = 1) (hc : c.action.canFail) (x : String) :
    Performs c e (e₁.lookup x c.line) := by
  rw [lookup]
  split
  · exact of_push h hlength hgiven _
  · exact of_fail h hc _

theorem of_combine (h : c.action.taken = 2) (hgiven : c.action.given = 1)
    (hc : c.action.canFail) (f : Value → Value → Except Value.Fault Value)
    (other : Value.Fault) : Performs c e (e.combine f other c.line) := by
  simp only [combine]
  split
  · rename_i v w hlhs hrhs
    have hlength : c.action.taken ≤ e.stack.length := by
      rw [h, stack_eq_of_pop hrhs, stack_eq_of_pop hlhs]
      simp
    exact of_conclude (taken_two h) hlength hgiven hc _
  · exact of_fail (taken_two h) hc _

end Performs

/-- Whatever the state of the evaluator, an action does what it may. -/
theorem performs_perform (e : Loose) (c : Call) : Performs c e (e.perform c) := by
  obtain ⟨a, lexeme, line⟩ := c
  cases a with
  | printFinalResult =>
      simp only [perform]
      split
      · rename_i s hs
        have hstack := stack_eq_of_pop hs
        have hlength : 1 ≤ e.stack.length := by simp [hstack]
        have hrest : e.pop.2.stack = [] ++ e.stack.drop 1 := by simp [hstack]
        exact .done rfl hlength ⟨[], rfl, hrest⟩ (height_eq hlength rfl hrest)
          (.inr ⟨rfl, s, _, hstack, rfl⟩) (.inl rfl)
      · exact .of_fail (taken_one rfl) rfl _
  | saveId => exact .of_push (taken_zero rfl) (Nat.zero_le _) rfl _
  | assign =>
      simp only [perform]
      split
      · rename_i v hv
        split
        · rename_i x hx
          have hstack : e.stack = .value v :: .name x :: e.pop.2.pop.2.stack := by
            rw [stack_eq_of_pop hv, stack_eq_of_pop hx]
          have hlength : 2 ≤ e.stack.length := by simp [hstack]
          have hrest : e.pop.2.pop.2.stack = [] ++ e.stack.drop 2 := by simp [hstack]
          exact .done rfl hlength ⟨[], rfl, hrest⟩ (height_eq hlength rfl hrest) (.inl rfl)
            (.inr ⟨rfl, v, x, _, hstack, rfl⟩)
        · exact .of_fail (taken_two rfl) rfl _
      · exact .of_fail (taken_two rfl) rfl _
  | pushNumber =>
      simp only [perform]
      split
      · exact .of_push (taken_zero rfl) (Nat.zero_le _) rfl _
      · exact .of_fail (taken_zero rfl) rfl _
  | pushString => exact .of_push (taken_zero rfl) (Nat.zero_le _) rfl _
  | add => exact .of_combine rfl rfl rfl Value.add .noSum
  | multiply => exact .of_combine rfl rfl rfl Value.mul .noProduct
  | lookupAndPushValue => exact .of_lookup (taken_zero rfl) (Nat.zero_le _) rfl rfl lexeme
  | lookupSavedId =>
      simp only [perform]
      split
      · rename_i x hx
        have hlength : 1 ≤ e.stack.length := by simp [stack_eq_of_pop hx]
        exact .of_lookup (c := ⟨.lookupSavedId, lexeme, line⟩) (taken_one rfl) hlength rfl rfl x
      · exact .of_fail (taken_one rfl) rfl _

/-! ## What becomes of the variables -/

/-- No variable holds a name. -/
def Plain (e : Loose) : Prop := ∀ x y, e.store x ≠ some (.name y)

namespace Performs

/-- A variable that has been assigned stays so. -/
theorem assigned_subset (h : Performs c e e') : e.assigned ⊆ e'.assigned := by
  intro y hy
  cases h with
  | failed _ _ _ store _ => rwa [assigned, store]
  | done _ _ _ _ _ store =>
      rcases store with hstore | ⟨_, v, x, rest, _, hstore⟩
      · rwa [assigned, hstore]
      · rw [assigned, Set.mem_ofPred_eq, hstore]
        by_cases hyx : y = x
        · simp [hyx]
        · rwa [Function.update_of_ne hyx]

/-- Only values are assigned. -/
theorem plain (h : Performs c e e') (he : e.Plain) : e'.Plain := by
  intro y z
  cases h with
  | failed _ _ _ store _ =>
      rw [store]
      exact he y z
  | done _ _ _ _ _ store =>
      rcases store with hstore | ⟨_, v, x, rest, _, hstore⟩
      · rw [hstore]
        exact he y z
      · rw [hstore]
        by_cases hyx : y = x
        · simp [hyx]
        · rw [Function.update_of_ne hyx]
          exact he y z

end Performs

theorem assigned_subset_performAll (e : Loose) (cs : List Call) :
    e.assigned ⊆ (e.performAll cs).assigned := by
  induction cs generalizing e with
  | nil => exact fun x hx => hx
  | cons c cs ih => exact fun x hx => ih (e.perform c) ((performs_perform e c).assigned_subset hx)

theorem Plain.performAll (h : e.Plain) (cs : List Call) : (e.performAll cs).Plain := by
  induction cs generalizing e with
  | nil => exact h
  | cons c cs ih => exact ih ((performs_perform e c).plain h)

/-! ## The evaluator, operand by operand -/

/-- The evaluator with its report. -/
def ofMachine (m : Machine) (report : List Diagnostic) : Loose where
  stack := m.stack
  store x := m.store[x]?.map .value
  output := m.output
  report := report

/-- The evaluator after an action, with the report of the fault behind what has been reported. -/
def ofEffect (report : List Diagnostic) (line : ℕ) (r : Effect) : Loose :=
  ofMachine r.1 (report ++ (r.2.map fun f => ⟨line, .action f⟩).toList)

variable {m : Machine} {l : List Diagnostic} {line : ℕ}

theorem ofEffect_none (m : Machine) (l : List Diagnostic) (line : ℕ) :
    ofEffect l line (m, none) = ofMachine m l := by
  rw [ofEffect, Option.map_none, Option.toList_none, List.append_nil]

theorem pop_ofMachine (m : Machine) (l : List Diagnostic) :
    (ofMachine m l).pop = (m.stack.head?, ofMachine (m.drop 1) l) := by
  rw [pop, ofMachine, ofMachine, stack_drop, List.drop_one]
  rfl

theorem drop_drop (m : Machine) (i j : ℕ) : (m.drop i).drop j = m.drop (i + j) := by
  rw [drop, drop, drop, List.drop_drop]

theorem conclude_ofMachine (m : Machine) (l : List Diagnostic) (r : Except Value.Fault Value)
    (line : ℕ) : (ofMachine m l).conclude r line = ofEffect l line (m.conclude r) := by
  cases r with
  | ok v =>
      rw [Machine.conclude, ofEffect_none]
      rfl
  | error f => rfl

theorem lookup_ofMachine (m : Machine) (l : List Diagnostic) (x : String) (line : ℕ) :
    (ofMachine m l).lookup x line = ofEffect l line (m.lookup x) := by
  have hstore : (ofMachine m l).store x = m.store[x]?.map .value := rfl
  rw [Machine.lookup, ← conclude_ofMachine, lookup, hstore]
  cases m.store[x]? with
  | none => rfl
  | some v => rfl

theorem combine_ofMachine (m : Machine) (l : List Diagnostic)
    (f : Value → Value → Except Value.Fault Value) (other : Value.Fault) (line : ℕ) :
    (ofMachine m l).combine f other line = ofEffect l line (m.combine f other) := by
  simp only [combine, pop_ofMachine, Machine.combine, ← conclude_ofMachine, stack_drop, drop_drop]
  rcases m.stack with _ | ⟨⟨w⟩ | y, _ | ⟨⟨v⟩ | x, rest⟩⟩ <;> rfl

/-- A value is assigned to a name. -/
theorem ofMachine_insert (m : Machine) (l : List Diagnostic) (x : String) (v : Value) :
    ofMachine { m with store := m.store.insert x v } l =
      { ofMachine m l with
        store := Function.update (ofMachine m l).store x (some (.value v)) } := by
  have hstore : (fun y => (m.store.insert x v)[y]?.map Operand.value) =
      Function.update (fun y => m.store[y]?.map .value) x (some (.value v)) := by
    funext y
    rw [Std.TreeMap.getElem?_insert, Function.update_apply]
    by_cases hyx : y = x
    · simp [hyx]
    · simp [hyx, Ne.symm hyx]
  rw [ofMachine, hstore]
  rfl

/-- What an action does to the evaluator, it does operand by operand. -/
theorem perform_ofMachine (m : Machine) (l : List Diagnostic) (c : Call) :
    (ofMachine m l).perform c = ofEffect l c.line (m.perform c.action c.lexeme) := by
  obtain ⟨a, lexeme, line⟩ := c
  cases a with
  | printFinalResult =>
      simp only [perform, pop_ofMachine, Machine.perform]
      rcases m.stack with _ | ⟨⟨n | s⟩ | x, rest⟩
      · rfl
      · rfl
      · exact (ofEffect_none { m.drop 1 with output := some s } l line).symm
      · rfl
  | saveId => exact (ofEffect_none (m.push (.name lexeme)) l line).symm
  | assign =>
      obtain ⟨stack, store, output⟩ := m
      rcases stack with _ | ⟨⟨v⟩ | y, _ | ⟨⟨w⟩ | x, rest⟩⟩
      case cons.value.cons.name =>
        have heffect := ofEffect_none ⟨rest, store.insert x v, output⟩ l line
        exact (heffect.trans (ofMachine_insert ⟨rest, store, output⟩ l x v)).symm
      all_goals rfl
  | pushNumber =>
      simp only [perform, Machine.perform]
      rw [← conclude_ofMachine]
      cases readNumber? lexeme with
      | none => rfl
      | some n => rfl
  | pushString => exact (ofEffect_none (m.push (.value (.text (unquote lexeme)))) l line).symm
  | add => exact combine_ofMachine m l Value.add .noSum line
  | multiply => exact combine_ofMachine m l Value.mul .noProduct line
  | lookupAndPushValue => exact lookup_ofMachine m l lexeme line
  | lookupSavedId =>
      simp only [perform, pop_ofMachine, Machine.perform]
      rcases m.stack with _ | ⟨⟨v⟩ | x, rest⟩
      · rfl
      · rfl
      · exact lookup_ofMachine (m.drop 1) l x line

/-- The evaluator after some calls, with their report, is the evaluator that makes them operand by
operand. -/
theorem performAll_ofMachine (m : Machine) (l : List Diagnostic) (cs : List Call) :
    (ofMachine m l).performAll cs = ofMachine (m.performAll cs).1 (l ++ (m.performAll cs).2) := by
  induction cs generalizing m l with
  | nil =>
      rw [Machine.performAll_nil, List.append_nil]
      rfl
  | cons c cs ih =>
      have hrest := ih (m.perform c.action c.lexeme).1
        (l ++ ((m.perform c.action c.lexeme).2.map fun f => ⟨c.line, .action f⟩).toList)
      rw [List.append_assoc] at hrest
      rw [performAll, List.foldl_cons, perform_ofMachine]
      exact hrest

theorem ofMachine_empty : ofMachine {} [] = {} := by
  have hstore : (fun x : String => (∅ : Store)[x]?.map Operand.value) = fun _ => none := by
    funext x
    rw [Std.TreeMap.getElem?_emptyc, Option.map_none]
  rw [ofMachine, hstore]

/-- Along all sequences of actions, whatever their order and whatever the evaluator holds in the
beginning, each action does what it may, and no variable is lost.  From the beginning on, no
variable ever holds a name.  And all that goes for the evaluator of the compiler, which does the
same, with the same report. -/
theorem performAll_performs (e : Loose) (cs : List Call) :
    (∀ c, Performs c (e.performAll cs) (e.performAll (cs ++ [c]))) ∧
      e.assigned ⊆ (e.performAll cs).assigned ∧
      Plain (performAll {} cs) ∧ ofMachine {} [] = {} ∧
      ∀ m l, (ofMachine m l).performAll cs =
          ofMachine (m.performAll cs).1 (l ++ (m.performAll cs).2) ∧
        ∀ c, Performs c (ofMachine (m.performAll cs).1 (l ++ (m.performAll cs).2))
          (ofMachine (m.performAll (cs ++ [c])).1 (l ++ (m.performAll (cs ++ [c])).2)) := by
  have hstep (e : Loose) (c : Call) : Performs c (e.performAll cs) (e.performAll (cs ++ [c])) := by
    rw [performAll, performAll, List.foldl_append]
    exact performs_perform (e.performAll cs) c
  have hempty : Plain {} := fun _ _ h => nomatch h
  refine ⟨hstep e, e.assigned_subset_performAll cs, hempty.performAll cs, ofMachine_empty, ?_⟩
  intro m l
  refine ⟨performAll_ofMachine m l cs, fun c => ?_⟩
  rw [← performAll_ofMachine, ← performAll_ofMachine]
  exact hstep (ofMachine m l) c

end Loose

end Machine

end ToneScript
