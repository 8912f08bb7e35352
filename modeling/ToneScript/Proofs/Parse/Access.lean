import ToneScript.Proofs.Parse.Depth
import ToneScript.Proofs.Table.Assembly

/-!
# What a parse takes from the table

The descent asks the table for an entry by its number, and the entry for an alternative by its
position.  A table that has none there and a search that is not deep enough both leave the descent
without a result, so that the two cannot be told apart in what it returns.  Here every access has
a failure of its own.  In a table that stands for a grammar none of them comes up, at any depth and
from any state, and the depth is the one reason that is left.  This goes for a parse without an end
too, whose accesses all are made at some depth.

## Main definitions

* `Parse.Stop` — the reasons to have no result.
* `Table.entryAt`, `Table.alternativeAt` — access to a table.
* `Parse.State.selectAt`, `Parse.deriveAt`, `Parse.expandAt` — the descent with checked access.

## Main statements

* `Parse.Selects.selectAt_eq` — the search finds the position of the alternative.
* `Parse.expandAt_eq` — in a table that stands for a grammar no access fails.
* `Parse.lookups_succeed` — no lookup fails while a table is put together, nor while it is used.
-/

namespace ToneScript

namespace Parse

/-- Why there is no result. -/
inductive Stop where
  /-- The search would have had to go deeper. -/
  | depth
  /-- The table has no entry of this number. -/
  | noEntry (id : Nat)
  /-- The entry has no alternative at this position. -/
  | noAlternative (id position : Nat)
deriving DecidableEq, Repr

/-- Without a result, what is to blame is the depth. -/
def orDepth {α : Type} : Option α → Except Stop α
  | some a => .ok a
  | none => .error .depth

end Parse

open Parse (Stop)

namespace Table

/-- The entry of a number. -/
def entryAt (t : Table) (id : Nat) : Except Stop Entry :=
  match t.entries[id]? with
  | some e => .ok e
  | none => .error (.noEntry id)

/-- The alternative at a position of the entry of a number. -/
def alternativeAt (t : Table) (id position : Nat) : Except Stop Alternative := do
  let e ← t.entryAt id
  match e.alternatives[position]? with
  | some a => .ok a
  | none => .error (.noAlternative id position)

end Table

/-- The position of the alternative that is chosen on a look-ahead. -/
def Entry.position? (e : Entry) (l : Lookahead) : Option Nat :=
  e.alternatives.findIdx? fun a => l ∈ a.predict

namespace Parse

variable {t : Table} {e : Entry} {g : Grammar} {s : State}

/-! ## The descent with checked access -/

/-- Finds the position of the alternative that the current token calls for. -/
def State.selectAt (t : Table) (id : Nat) (s : State) : Except Stop (Except Flow Nat × State) :=
  match t.entryAt id with
  | .error f => .error f
  | .ok e =>
    match e.position? s.lookahead with
    | some i => .ok (.ok i, s)
    | none =>
      if s.lookahead ∈ e.follow then
        .ok (.error .proceed, { s with report := s.report.missing e.name s.line })
      else
        match _h : s.current with
        | none => .ok (.error .halt, { s with report := s.report.unexpectedEnd s.line })
        | some k =>
          match _ha : { s with report := s.report.illegal k.terminal s.line }.advance with
          | (.halt, s') => .ok (.error .halt, s')
          | (.proceed, s') => selectAt t id s'
termination_by s.remaining
decreasing_by
  have := State.remaining_advance_lt (s := { s with report := s.report.illegal k.terminal s.line }) _h
  rwa [_ha] at this

/-- Takes one step; nonterminals are derived by `expand`. -/
def takeStepAt (expand : Nat → State → Except Stop (Flow × State)) (x : Step) (s : State) :
    Except Stop (Flow × State) :=
  match x with
  | .consume y => .ok (s.consume y)
  | .expectEnd => .ok (.proceed, s.expectEnd)
  | .empty => .ok (.proceed, s.deriveEmpty)
  | .fire a => .ok (.proceed, s.fire a)
  | .expand id => expand id s

/-- Goes through the steps of an alternative and stops before a nonterminal that is the last of
them. -/
def deriveAt (expand : Nat → State → Except Stop (Flow × State)) :
    List Step → State → Except Stop (Derived × State)
  | [], s => .ok (.done .proceed, s)
  | [.expand id], s => .ok (.tail id, s)
  | x :: rest, s =>
    match takeStepAt expand x s with
    | .error f => .error f
    | .ok (.halt, s') => .ok (.done .halt, s')
    | .ok (.proceed, s') => deriveAt expand rest s'

/-- Derives the nonterminal `id` inside of `entered` nodes that are to be left with it.  The entry
is taken from the table for the search, for its name and for its alternative. -/
def expandAt (t : Table) : (depth : Nat) → (id entered : Nat) → State →
    Except Stop (Flow × State)
  | 0, _, _, _ => .error .depth
  | depth + 1, id, entered, s =>
    match s.selectAt t id with
    | .error f => .error f
    | .ok (.error flow, s') => .ok (flow, s'.leaveAll entered)
    | .ok (.ok i, s') =>
      match t.entryAt id, t.alternativeAt id i with
      | .error f, _ => .error f
      | .ok _, .error f => .error f
      | .ok e, .ok a =>
        match deriveAt (fun id s => expandAt t depth id 0 s) a.steps (s'.enter e.name) with
        | .error f => .error f
        | .ok (.tail next, s'') => expandAt t depth next (entered + 1) s''
        | .ok (.done flow, s'') => .ok (flow, s''.leaveAll (entered + 1))

/-! ## Access that does not fail -/

theorem entryAt_eq {id : Nat} (he : t.entries[id]? = some e) : t.entryAt id = .ok e := by
  simp [Table.entryAt, he]

theorem alternativeAt_eq {id : Nat} (he : t.entries[id]? = some e) {a : Alternative}
    (ha : a ∈ e.alternatives) : t.alternativeAt id (e.alternatives.idxOf a) = .ok a := by
  simp [Table.alternativeAt, entryAt_eq he, List.getElem?_idxOf ha, bind, Except.bind]

/-- The first element that passes stands at the first position that does. -/
theorem findIdx?_eq_idxOf {α : Type} [DecidableEq α] {q : α → Bool} {l : List α} {a : α}
    (h : l.find? q = some a) : l.findIdx? q = some (l.idxOf a) := by
  induction l with
  | nil => simp at h
  | cons b l ih =>
      by_cases hb : q b
      · have hab : b = a := by simpa [List.find?_cons, hb] using h
        simp [List.findIdx?_cons, ← hab, hb]
      · have hrest : l.find? q = some a := by simpa [List.find?_cons, hb] using h
        have hab : b ≠ a := by
          rintro rfl
          exact hb (List.find?_some hrest)
        simp [List.findIdx?_cons, hb, ih hrest, List.idxOf_cons_ne _ hab]

theorem position?_of_select? {l : Lookahead} {a : Alternative} (h : e.select? l = some a) :
    e.position? l = some (e.alternatives.idxOf a) :=
  findIdx?_eq_idxOf h

theorem position?_of_select?_eq_none {l : Lookahead} (h : e.select? l = none) :
    e.position? l = none := by
  rw [Entry.select?, List.find?_eq_none] at h
  rw [Entry.position?, List.findIdx?_eq_none_iff]
  simpa using h

/-- A token that is out of place is reported, and the search goes on behind it. -/
theorem selectAt_of_current {id : Nat} {k : Token} (he : t.entries[id]? = some e)
    (h : e.select? s.lookahead = none) (hf : s.lookahead ∉ e.follow) (hc : s.current = some k) :
    s.selectAt t id =
      match { s with report := s.report.illegal k.terminal s.line }.advance with
      | (.halt, s') => .ok (.error .halt, s')
      | (.proceed, s') => s'.selectAt t id := by
  rw [State.selectAt]
  simp only [entryAt_eq he, position?_of_select?_eq_none h, if_neg hf]
  split
  · simp_all
  · rename_i k' hk
    rw [hc] at hk
    cases hk
    split <;> simp_all

/-- The search finds the position of the alternative. -/
theorem Selects.selectAt_eq {id : Nat} (he : t.entries[id]? = some e)
    {r : Except Flow Alternative × State} (h : Selects e s r) :
    s.selectAt t id = .ok (r.1.map e.alternatives.idxOf, r.2) := by
  induction h with
  | chosen h =>
      rw [State.selectAt]
      simp [entryAt_eq he, position?_of_select? h, Except.map]
  | missing h hf =>
      rw [State.selectAt]
      simp [entryAt_eq he, position?_of_select?_eq_none h, hf, Except.map]
  | ended h hf hc =>
      rw [State.selectAt]
      simp only [entryAt_eq he, position?_of_select?_eq_none h, if_neg hf]
      split
      · rfl
      · simp_all
  | cut h hf hc ha =>
      rw [selectAt_of_current he h hf hc, ha]
      rfl
  | skip h hf hc ha _ ih =>
      rw [selectAt_of_current he h hf hc, ha]
      exact ih

/-- Where nonterminals are derived alike, so are the steps of an alternative. -/
theorem deriveAt_eq {f : Nat → State → Option (Flow × State)}
    {f' : Nat → State → Except Stop (Flow × State)} {steps : List Step}
    (hf : ∀ id, .expand id ∈ steps → ∀ s, f' id s = orDepth (f id s)) (s : State) :
    deriveAt f' steps s = orDepth (derive f steps s) := by
  have hstep : ∀ x ∈ steps, ∀ s, takeStepAt f' x s = orDepth (takeStep f x s) := by
    intro x hx s
    cases x with
    | expand id => exact hf id hx s
    | consume y => rfl
    | expectEnd => rfl
    | empty => rfl
    | fire a => rfl
  clear hf
  fun_induction derive f steps s with
  | case1 s => rfl
  | case2 s id => rfl
  | case3 x rest s hlast h =>
      rw [List.forall_mem_cons] at hstep
      rw [deriveAt, hstep.1, h]
      · rfl
      · exact hlast
  | case4 x rest s hlast s' h =>
      rw [List.forall_mem_cons] at hstep
      rw [deriveAt, hstep.1, h]
      · rfl
      · exact hlast
  | case5 x rest s hlast s' h ih =>
      rw [List.forall_mem_cons] at hstep
      rw [deriveAt, hstep.1, h]
      · exact ih hstep.2
      · exact hlast

/-- A nonterminal that is left to be derived is one of the steps. -/
theorem expand_mem_of_derive {f : Nat → State → Option (Flow × State)} {steps : List Step}
    {s s' : State} {id : Nat} (h : derive f steps s = some (.tail id, s')) :
    .expand id ∈ steps := by
  fun_induction derive f steps s with
  | case1 s => simp at h
  | case2 s id' => simp_all
  | case3 x rest s _ _ => simp at h
  | case4 x rest s _ s'' _ => simp at h
  | case5 x rest s _ s'' _ ih => exact List.mem_cons_of_mem x (ih h)

/-- In a table that stands for a grammar no access fails. -/
theorem expandAt_eq (h : t.Represents g) {id : Nat} (hid : id < t.entries.size)
    (depth entered : Nat) (s : State) :
    expandAt t depth id entered s = orDepth (expandInside t depth id entered s) := by
  induction depth generalizing id entered s with
  | zero => rfl
  | succ depth ih =>
      have he : t.entries[id]? = some t.entries[id] := Array.getElem?_eq_getElem hid
      generalize t.entries[id] = e at he
      have hmem : e ∈ t.entries := Array.mem_of_getElem? he
      rw [expandAt, expandInside, (selects_select e s).selectAt_eq he, he]
      dsimp only
      rcases hsel : s.select e with ⟨flow | a, s'⟩
      · rfl
      · have ha : a ∈ e.alternatives := by
          have hselect := (selects_of_select_eq hsel).select?_eq
          exact List.mem_of_find?_eq_some hselect
        have hrange : ∀ next, .expand next ∈ a.steps → next < t.entries.size := by
          intro next hnext
          exact h.lt_size hmem ha hnext
        have hderive := deriveAt_eq (f := fun id s => expandInside t depth id 0 s)
          (fun next hnext s => ih (hrange next hnext) 0 s) (s'.enter e.name)
        simp only [Except.map, entryAt_eq he, alternativeAt_eq he ha, hderive]
        rcases hd : derive (fun id s => expandInside t depth id 0 s) a.steps (s'.enter e.name) with
          _ | ⟨flow | next, s''⟩
        · rfl
        · rfl
        · exact ih (hrange next (expand_mem_of_derive hd)) (entered + 1) s''

/-- No name is missing when the table of a grammar is put together, the table stands for the
grammar, and in no parse with it is an access out of range: from any state and at any depth, the
descent that checks every access does what the parser does, and if it stops, it is for the depth. -/
theorem lookups_succeed (g : Grammar) :
    Table.assemble? g = some (.compute g) ∧ (Table.compute g).Represents g ∧
      ∀ depth s, expandAt (.compute g) depth (Table.compute g).start 0 s =
        orDepth (expand (.compute g) depth (Table.compute g).start s) := by
  refine ⟨Table.assemble?_eq g, Table.represents_compute g, ?_⟩
  intro depth s
  have hrepresents := Table.represents_compute g
  obtain ⟨e, p, he, _⟩ := hrepresents.start
  have hstart := (Array.getElem?_eq_some_iff.1 he).1
  exact expandAt_eq hrepresents hstart depth 0 s

end Parse

end ToneScript
