import Mathlib.Data.List.Forall2
import Mathlib.Data.List.Induction
import Mathlib.Data.List.Nodup
import ToneScript.Grammar.Text
import ToneScript.Proofs.Table.Predictive

/-!
# Putting a table together

A table is put together in passes: the names are numbered, every name gets an entry without
alternatives, and then the alternatives are added production by production, to the entry whose
number is found under the name on the left, with the numbers of the names on the right for steps.
The names, the numbers and the entries are joined by lookups alone.  Here every lookup can fail,
and it is shown that none does, and that what comes out is the table that is computed at once.

## Main definitions

* `Table.index` — the numbers of the names.
* `Table.assemble?` — the table, pass by pass.
* `Table.Means`, `Table.Represents` — a step stands for a symbol, a table for a grammar.

## Main statements

* `Grammar.pairwise_nonterminals` — nonterminals come in the order of their first declaration.
* `Table.assemble?_eq` — no name is missing.
* `Table.represents_compute` — the table that is computed stands for the grammar.
-/

namespace ToneScript

variable {g : Grammar} {names : List String} {x : String} {p : Production} {ps qs : List Production}

/-! ## The order of the names -/

/-- Of a list without its repetitions, what comes first has come up first. -/
theorem pairwise_idxOf_eraseDups {α : Type} [BEq α] [LawfulBEq α] (l : List α) :
    l.eraseDups.Pairwise fun a b => l.idxOf a < l.idxOf b := by
  induction l using List.reverseRecOn with
  | nil => simp
  | append_singleton l a ih =>
      have hmem : ∀ {b}, b ∈ l.eraseDups → (l ++ [a]).idxOf b = l.idxOf b := by
        intro b hb
        exact List.idxOf_append_of_mem (List.mem_eraseDups.1 hb)
      have hleft : l.eraseDups.Pairwise fun b c => (l ++ [a]).idxOf b < (l ++ [a]).idxOf c := by
        refine ih.imp_of_mem ?_
        intro b c hb hc h
        rwa [hmem hb, hmem hc]
      by_cases ha : a ∈ l
      · have hnone : [a].removeAll l = [] := by simp [List.removeAll, ha]
        rw [List.eraseDups_append, hnone]
        simpa using hleft
      · have hone : [a].removeAll l = [a] := by simp [List.removeAll, ha]
        have hsingle : [a].eraseDups = [a] := by simp [List.eraseDups_cons]
        rw [List.eraseDups_append, hone, hsingle, List.pairwise_append]
        refine ⟨hleft, List.pairwise_singleton .., ?_⟩
        intro b hb c hc
        rw [List.mem_singleton.1 hc, hmem hb, List.idxOf_append_of_notMem ha]
        have hlt := List.idxOf_lt_length_of_mem (List.mem_eraseDups.1 hb)
        omega

namespace Grammar

/-- What the productions are about, in the order of the file. -/
def declarations (g : Grammar) : List String := g.productions.map Production.lhs

/-- Nonterminals come in the order of their first declaration. -/
theorem pairwise_nonterminals (g : Grammar) :
    g.nonterminals.Pairwise fun x y => g.declarations.idxOf x < g.declarations.idxOf y :=
  pairwise_idxOf_eraseDups g.declarations

theorem nodup_nonterminals (g : Grammar) : g.nonterminals.Nodup := by
  refine g.pairwise_nonterminals.imp ?_
  rintro x y h rfl
  omega

end Grammar

namespace Table

/-! ## Lookups -/

/-- The numbers of the names.  If a name came up again, its last number would be found. -/
def index (names : List String) : List (String × Nat) := names.zipIdx.reverse

/-- If no name comes up again, the number that is found is its position. -/
theorem lookup_index (h : names.Nodup) (hx : x ∈ names) :
    (index names).lookup x = some (names.idxOf x) := by
  have hmem : (x, names.idxOf x) ∈ index names := by
    rw [index, List.mem_reverse, List.mk_mem_zipIdx_iff_getElem?]
    exact List.getElem?_idxOf hx
  obtain ⟨l₁, l₂, heq⟩ := List.append_of_mem hmem
  refine List.lookup_eq_some_iff.2 ⟨l₁, l₂, heq, ?_⟩
  have hnodup : ((index names).map Prod.fst).Nodup := by
    simpa [index, List.map_reverse, List.nodup_reverse] using h
  rw [heq, List.map_append, List.map_cons, List.nodup_append] at hnodup
  intro q hq
  rw [bne_iff_ne]
  exact (hnodup.2.2 q.1 (List.mem_map_of_mem hq) x List.mem_cons_self).symm

/-- The step for a symbol, with the number of a nonterminal looked up. -/
def step? (numbers : List (String × Nat)) : Symbol → Option Step
  | .terminal t => some (.consume t)
  | .endMark => some .expectEnd
  | .nonterminal x => (numbers.lookup x).map .expand
  | .epsilon => some .empty
  | .action a => some (.fire a)

theorem step?_index (h : names.Nodup) {y : Symbol} (hy : ∀ x, y = .nonterminal x → x ∈ names) :
    step? (index names) y = some (step names y) := by
  cases y with
  | nonterminal x => simp [step?, step, lookup_index h (hy x rfl)]
  | terminal t => rfl
  | action a => rfl
  | epsilon => rfl
  | endMark => rfl

theorem mapM_eq_some_map {α β : Type} {f : α → Option β} {f' : α → β} {l : List α}
    (h : ∀ a ∈ l, f a = some (f' a)) : l.mapM f = some (l.map f') := by
  induction l with
  | nil => rfl
  | cons a l ih =>
      rw [List.forall_mem_cons] at h
      simp [List.mapM_cons, h.1, ih h.2]

theorem mapM_step?_index (hp : p ∈ g.productions) :
    p.rhs.mapM (step? (index g.nonterminals)) = some (p.rhs.map (step g.nonterminals)) := by
  apply mapM_eq_some_map
  intro y hy
  apply step?_index g.nodup_nonterminals
  rintro x rfl
  exact Grammar.mem_nonterminals_of_mem_rhs hp hy

/-! ## The passes -/

/-- The entry of a nonterminal before any production has been added. -/
def blankEntry (g : Grammar) (x : String) : Entry := ⟨x, g.firstSets.getD x, g.follow x, []⟩

/-- Adds one production to the entry that is found under its nonterminal. -/
def addProduction? (g : Grammar) (entries : List Entry) (p : Production) :
    Option (List Entry) := do
  let steps ← p.rhs.mapM (step? (index g.nonterminals))
  let id ← (index g.nonterminals).lookup p.lhs
  let e ← entries[id]?
  pure (entries.set id { e with alternatives := e.alternatives ++ [⟨p, g.predict p, steps⟩] })

/-- The table of a grammar, pass by pass, unless a lookup fails. -/
def assemble? (g : Grammar) : Option Table := do
  let entries ← g.productions.foldlM (addProduction? g) (g.nonterminals.map (blankEntry g))
  let start ← (index g.nonterminals).lookup g.start
  pure ⟨entries.toArray, start⟩

/-- The entry of a nonterminal when only some of the productions have been added. -/
def entryAfter (g : Grammar) (ps : List Production) (x : String) : Entry :=
  ⟨x, g.firstSets.getD x, g.follow x, (ps.filter (·.lhs == x)).map (alternativeOf g)⟩

/-- A change at the place of one name is a change of what is said of that name. -/
theorem set_idxOf_map {α : Type} (f f' : String → α) (h : names.Nodup)
    (hne : ∀ y ∈ names, y ≠ x → f' y = f y) :
    (names.map f).set (names.idxOf x) (f' x) = names.map f' := by
  induction names with
  | nil => rfl
  | cons y names ih =>
      rw [List.nodup_cons] at h
      rw [List.forall_mem_cons] at hne
      by_cases hxy : y = x
      · subst hxy
        have hrest : names.map f = names.map f' := by
          apply List.map_congr_left
          intro z hz
          refine (hne.2 z hz ?_).symm
          rintro rfl
          exact h.1 hz
        simp [hrest]
      · rw [List.idxOf_cons_ne _ (by simpa using hxy)]
        simp [hne.1 hxy, ih h.2 hne.2]

theorem addProduction?_eq (hp : p ∈ g.productions) :
    addProduction? g (g.nonterminals.map (entryAfter g ps)) p =
      some (g.nonterminals.map (entryAfter g (ps ++ [p]))) := by
  have hlhs : p.lhs ∈ g.nonterminals := Grammar.mem_nonterminals.2 ⟨p, hp, rfl⟩
  have hentry : (g.nonterminals.map (entryAfter g ps))[g.nonterminals.idxOf p.lhs]? =
      some (entryAfter g ps p.lhs) := by
    simp [List.getElem?_idxOf hlhs]
  have hother : ∀ y ∈ g.nonterminals, y ≠ p.lhs →
      entryAfter g (ps ++ [p]) y = entryAfter g ps y := by
    intro y _ hy
    simp [entryAfter, Ne.symm hy]
  have hset := set_idxOf_map (entryAfter g ps) (entryAfter g (ps ++ [p])) g.nodup_nonterminals
    hother
  have hnew : entryAfter g (ps ++ [p]) p.lhs = { entryAfter g ps p.lhs with
      alternatives := (entryAfter g ps p.lhs).alternatives ++ [alternativeOf g p] } := by
    simp [entryAfter]
  rw [hnew] at hset
  simp only [addProduction?, mapM_step?_index hp, lookup_index g.nodup_nonterminals hlhs, hentry,
    Option.bind_eq_bind, Option.bind_some, Option.pure_def]
  exact congrArg some hset

/-- After each production the entries hold what has been declared so far. -/
theorem foldlM_addProduction? (h : ∀ q ∈ qs, q ∈ g.productions) :
    qs.foldlM (addProduction? g) (g.nonterminals.map (entryAfter g ps)) =
      some (g.nonterminals.map (entryAfter g (ps ++ qs))) := by
  induction qs generalizing ps with
  | nil => simp
  | cons q qs ih =>
      rw [List.forall_mem_cons] at h
      rw [List.foldlM_cons, addProduction?_eq h.1, Option.bind_eq_bind, Option.bind_some, ih h.2,
        List.append_assoc, List.singleton_append]

/-- No name is missing when a table is put together. -/
theorem assemble?_eq (g : Grammar) : assemble? g = some (compute g) := by
  -- before the first production the entries are blank, and after the last they are complete
  have hentries : g.productions.foldlM (addProduction? g) (g.nonterminals.map (blankEntry g)) =
      some (g.nonterminals.map (entryOf g)) :=
    @foldlM_addProduction? g [] g.productions fun _ hq => hq
  have hstart := lookup_index g.nodup_nonterminals g.start_mem_nonterminals
  simp [assemble?, hentries, hstart, ← entries_compute, ← start_compute]

/-! ## What the table stands for -/

/-- What a parser does for a symbol, where the number of a nonterminal is that of its entry. -/
inductive Means (t : Table) : Symbol → Step → Prop
  /-- A token is matched. -/
  | terminal (x : String) : Means t (.terminal x) (.consume x)
  /-- The end is matched. -/
  | endMark : Means t .endMark .expectEnd
  /-- The nonterminal of an entry is derived. -/
  | nonterminal {id : Nat} {e : Entry} (he : t.entries[id]? = some e) :
      Means t (.nonterminal e.name) (.expand id)
  /-- The empty sequence is derived. -/
  | epsilon : Means t .epsilon .empty
  /-- An action is performed. -/
  | action (a : Action) : Means t (.action a) (.fire a)

/-- A table stands for a grammar. -/
structure Represents (t : Table) (g : Grammar) : Prop where
  /-- The entries are about what the productions are about. -/
  mem_names_iff : ∀ x, x ∈ t.entries.toList.map Entry.name ↔ ∃ p ∈ g.productions, p.lhs = x
  /-- They are distinct, in the order of the first declaration. -/
  names_pairwise : (t.entries.toList.map Entry.name).Pairwise fun x y =>
    g.declarations.idxOf x < g.declarations.idxOf y
  /-- The start is the entry of the first production. -/
  start : ∃ e p, t.entries[t.start]? = some e ∧ g.productions.head? = some p ∧ e.name = p.lhs
  /-- There is something to choose. -/
  alternatives_ne_nil : ∀ e ∈ t.entries, e.alternatives ≠ []
  /-- The alternatives are the productions of that name, in the order of their declaration. -/
  productions : ∀ e ∈ t.entries,
    e.alternatives.map Alternative.production = g.productions.filter fun p => p.lhs = e.name
  /-- The steps stand for the symbols on the right, one by one. -/
  steps : ∀ e ∈ t.entries, ∀ a ∈ e.alternatives, List.Forall₂ t.Means a.production.rhs a.steps

theorem mem_entries_compute {e : Entry} :
    e ∈ (compute g).entries ↔ ∃ x ∈ g.nonterminals, entryOf g x = e := by
  simp [entries_compute]

theorem means_step {y : Symbol} (hy : ∀ x, y = .nonterminal x → x ∈ g.nonterminals) :
    (compute g).Means y (step g.nonterminals y) := by
  cases y with
  | terminal t => exact .terminal t
  | endMark => exact .endMark
  | nonterminal x => exact .nonterminal (getElem?_entries_compute (hy x rfl))
  | epsilon => exact .epsilon
  | action a => exact .action a

/-- The table that is computed stands for the grammar. -/
theorem represents_compute (g : Grammar) : (compute g).Represents g := by
  have hnames : (compute g).entries.toList.map Entry.name = g.nonterminals := by
    simp [entries_compute, Function.comp_def, entryOf]
  constructor
  case mem_names_iff =>
    intro x
    rw [hnames, Grammar.mem_nonterminals]
  case names_pairwise =>
    rw [hnames]
    exact g.pairwise_nonterminals
  case start =>
    exact ⟨_, _, getElem?_entries_compute g.start_mem_nonterminals,
      List.head?_eq_some_head g.productions_ne_nil, rfl⟩
  case alternatives_ne_nil =>
    intro e he
    obtain ⟨x, hx, rfl⟩ := mem_entries_compute.1 he
    obtain ⟨p, hp⟩ := Grammar.mem_nonterminals.1 hx
    have hmem : p ∈ g.alternatives x := Grammar.mem_alternatives.2 hp
    simp [entryOf, List.ne_nil_of_mem hmem]
  case productions =>
    intro e he
    obtain ⟨x, _, rfl⟩ := mem_entries_compute.1 he
    simp [entryOf, alternativeOf, Function.comp_def, Grammar.alternatives, beq_eq_decide]
  case steps =>
    intro e he a ha
    obtain ⟨x, _, rfl⟩ := mem_entries_compute.1 he
    obtain ⟨p, hp, rfl⟩ := List.mem_map.1 ha
    have hmem : p ∈ g.productions := (Grammar.mem_alternatives.1 hp).1
    rw [alternativeOf, List.forall₂_map_right_iff, List.forall₂_same]
    intro y hy
    apply means_step
    rintro x rfl
    exact Grammar.mem_nonterminals_of_mem_rhs hmem hy

-- declared in turns, and referred to before that
example : (Grammar.ofText "S -> B $\nA -> /a\nB -> A B\nA -> /b\nB -> $").toOption.map
    (fun g => (compute g).entries.toList.map fun e => (e.name, e.alternatives.map (·.steps))) =
    some [("S", [[.expand 2, .expectEnd]]), ("A", [[.consume "a"], [.consume "b"]]),
      ("B", [[.expand 1, .expand 2], [.expectEnd]])] := by
  decide +kernel

/-- A number that a step refers to is in range. -/
theorem Represents.lt_size {t : Table} (h : t.Represents g) {e : Entry} {a : Alternative} {id : Nat}
    (he : e ∈ t.entries) (ha : a ∈ e.alternatives) (hid : .expand id ∈ a.steps) :
    id < t.entries.size := by
  have hexists : ∀ {w steps}, List.Forall₂ t.Means w steps → .expand id ∈ steps →
      ∃ y, t.Means y (.expand id) := by
    intro w steps hw hid
    induction hw with
    | nil => cases hid
    | cons hy _ ih =>
        rw [List.mem_cons] at hid
        rcases hid with rfl | hid
        · exact ⟨_, hy⟩
        · exact ih hid
  obtain ⟨y, hy⟩ := hexists (h.steps e he a ha) hid
  cases hy with
  | nonterminal he => exact (Array.getElem?_eq_some_iff.1 he).1

end Table

end ToneScript
