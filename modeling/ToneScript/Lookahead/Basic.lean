/-!
# Look-ahead sets

What a predictive parser can see of the rest of a program is one token or the end of
it.  A look-ahead set holds such glimpses; a FIRST set may hold in addition the mark
that says that nothing need follow at all.

Sets are kept as strictly increasing lists: terminals by their text, then the end of
the program, then the mark of the empty sequence.  So equal sets are equal as lists,
and listings of them are in a fixed order.

## Main definitions

* `Lookahead` — a terminal, the end of the program, or the empty sequence.
* `LookaheadSet` — finite sets of them, with `insert`, `∪` and `erase`.
* `LookaheadMap` — a look-ahead set for each of some names.

## Main statements

* `LookaheadSet.ext` — sets with the same members are equal.
-/

namespace ToneScript

/-- What can come next. -/
inductive Lookahead where
  /-- A token of this terminal. -/
  | terminal (text : String)
  /-- The end of the program. -/
  | endMark
  /-- Nothing: the sequence in question can be empty. -/
  | empty
deriving DecidableEq, Repr

namespace Lookahead

/-- How a look-ahead is listed. -/
instance : ToString Lookahead where
  toString
    | terminal t => t
    | endMark => "$"
    | empty => "EPSILON"

/-- The order of listings: terminals by their text, then the end, then the empty sequence. -/
def Precedes : Lookahead → Lookahead → Prop
  | terminal s, terminal t => s < t
  | terminal _, _ => True
  | endMark, empty => True
  | _, _ => False

instance : LT Lookahead := ⟨Precedes⟩

instance (a b : Lookahead) : Decidable (a < b) :=
  match a, b with
  | terminal s, terminal t => inferInstanceAs (Decidable (s < t))
  | terminal _, endMark | terminal _, empty | endMark, empty => isTrue trivial
  | endMark, terminal _ | endMark, endMark | empty, terminal _ | empty, endMark
  | empty, empty => isFalse id

variable {a b c : Lookahead}

theorem lt_irrefl (a : Lookahead) : ¬ a < a := by
  cases a with
  | terminal s => exact String.lt_irrefl s
  | endMark | empty => exact id

theorem lt_trans (h : a < b) (h' : b < c) : a < c := by
  cases a <;> cases b <;> cases c <;>
    first | exact String.lt_trans h h' | exact trivial | exact h.elim | exact h'.elim

theorem lt_or_eq_or_gt (a b : Lookahead) : a < b ∨ a = b ∨ b < a := by
  cases a with
  | terminal s =>
    cases b with
    | terminal t =>
      by_cases h : s < t
      · exact .inl h
      · by_cases h' : t < s
        · exact .inr (.inr h')
        · exact .inr (.inl (congrArg terminal
            (String.le_antisymm (String.not_lt.1 h') (String.not_lt.1 h))))
    | endMark | empty => exact .inl trivial
  | endMark =>
    cases b with
    | terminal t => exact .inr (.inr trivial)
    | endMark => exact .inr (.inl rfl)
    | empty => exact .inl trivial
  | empty =>
    cases b with
    | terminal t => exact .inr (.inr trivial)
    | endMark => exact .inr (.inr trivial)
    | empty => exact .inr (.inl rfl)

/-- Inserts into an increasing list, unless the element is there already. -/
def insertInto (a : Lookahead) : List Lookahead → List Lookahead
  | [] => [a]
  | b :: l => if a < b then a :: b :: l else if a = b then b :: l else b :: insertInto a l

theorem mem_insertInto {l : List Lookahead} : c ∈ insertInto a l ↔ c = a ∨ c ∈ l := by
  induction l with
  | nil => simp [insertInto]
  | cons b l ih => grind [insertInto]

theorem pairwise_insertInto {l : List Lookahead} (h : l.Pairwise (· < ·)) :
    (insertInto a l).Pairwise (· < ·) := by
  induction l with
  | nil => simp [insertInto]
  | cons b l ih =>
    rw [List.pairwise_cons] at h
    simp only [insertInto]
    split
    · rename_i hab
      exact List.pairwise_cons.2 ⟨fun c hc => (List.mem_cons.1 hc).elim (· ▸ hab)
        fun hc => lt_trans hab (h.1 c hc), List.pairwise_cons.2 h⟩
    · split
      · exact List.pairwise_cons.2 h
      · rename_i hab hne
        have hba : b < a := ((lt_or_eq_or_gt a b).resolve_left hab).resolve_left hne
        exact List.pairwise_cons.2 ⟨fun c hc => (mem_insertInto.1 hc).elim (· ▸ hba) (h.1 c),
          ih h.2⟩

end Lookahead

/-- A finite set of look-aheads. -/
structure LookaheadSet where
  /-- The members in increasing order. -/
  toList : List Lookahead
  /-- The order is strict, so no member occurs twice. -/
  increasing : toList.Pairwise (· < ·)
deriving DecidableEq, Repr

namespace LookaheadSet

variable {a b : Lookahead} {s t : LookaheadSet}

instance : Membership Lookahead LookaheadSet where
  mem s a := a ∈ s.toList

instance (a : Lookahead) (s : LookaheadSet) : Decidable (a ∈ s) :=
  inferInstanceAs (Decidable (a ∈ s.toList))

@[simp, grind =] theorem mem_toList : a ∈ s.toList ↔ a ∈ s := Iff.rfl

theorem eq_of_pairwise {l m : List Lookahead} (hl : l.Pairwise (· < ·))
    (hm : m.Pairwise (· < ·)) (h : ∀ a, a ∈ l ↔ a ∈ m) : l = m := by
  induction l generalizing m with
  | nil =>
    cases m with
    | nil => rfl
    | cons b m => exact absurd ((h b).2 List.mem_cons_self) List.not_mem_nil
  | cons a l ih =>
    cases m with
    | nil => exact absurd ((h a).1 List.mem_cons_self) List.not_mem_nil
    | cons b m =>
      rw [List.pairwise_cons] at hl hm
      -- each head is the least element of both lists
      have hab : a = b := by
        rcases List.mem_cons.1 ((h a).1 List.mem_cons_self) with e | ha
        · exact e
        · rcases List.mem_cons.1 ((h b).2 List.mem_cons_self) with e | hb
          · exact e.symm
          · exact absurd (Lookahead.lt_trans (hl.1 b hb) (hm.1 a ha)) (Lookahead.lt_irrefl a)
      subst hab
      refine congrArg _ (ih hl.2 hm.2 fun c => ⟨fun hc => ?_, fun hc => ?_⟩)
      · rcases List.mem_cons.1 ((h c).1 (List.mem_cons_of_mem _ hc)) with e | hc'
        · exact absurd (e ▸ hl.1 c hc) (Lookahead.lt_irrefl _)
        · exact hc'
      · rcases List.mem_cons.1 ((h c).2 (List.mem_cons_of_mem _ hc)) with e | hc'
        · exact absurd (e ▸ hm.1 c hc) (Lookahead.lt_irrefl _)
        · exact hc'

/-- Sets with the same members are equal. -/
@[ext] theorem ext (h : ∀ a, a ∈ s ↔ a ∈ t) : s = t := by
  obtain ⟨l, hl⟩ := s
  obtain ⟨m, hm⟩ := t
  simp only [mk.injEq]
  exact eq_of_pairwise hl hm h

instance : EmptyCollection LookaheadSet := ⟨⟨[], List.Pairwise.nil⟩⟩

/-- Adds a member. -/
def insert (s : LookaheadSet) (a : Lookahead) : LookaheadSet :=
  ⟨a.insertInto s.toList, Lookahead.pairwise_insertInto s.increasing⟩

/-- The set of a single member. -/
def singleton (a : Lookahead) : LookaheadSet := insert ∅ a

/-- The set of the members of a list. -/
def ofList (l : List Lookahead) : LookaheadSet := l.foldl insert ∅

instance : Union LookaheadSet where
  union s t := t.toList.foldl insert s

/-- The members of both sets. -/
instance : Inter LookaheadSet where
  inter s t := ⟨s.toList.filter (· ∈ t), s.increasing.filter _⟩

/-- Removes a member. -/
def erase (s : LookaheadSet) (a : Lookahead) : LookaheadSet :=
  ⟨s.toList.filter (· ≠ a), s.increasing.filter _⟩

/-- The number of members. -/
def size (s : LookaheadSet) : Nat := s.toList.length

instance : HasSubset LookaheadSet where
  Subset s t := ∀ a, a ∈ s → a ∈ t

@[simp, grind ←] theorem not_mem_empty (a : Lookahead) : a ∉ (∅ : LookaheadSet) :=
  List.not_mem_nil

@[simp, grind =] theorem mem_insert : b ∈ s.insert a ↔ b = a ∨ b ∈ s := Lookahead.mem_insertInto

@[simp, grind =] theorem mem_singleton : b ∈ singleton a ↔ b = a := by
  simp [singleton]

theorem mem_foldl_insert {l : List Lookahead} : b ∈ l.foldl insert s ↔ b ∈ s ∨ b ∈ l := by
  induction l generalizing s with
  | nil => simp
  | cons c l ih => grind

@[simp, grind =] theorem mem_ofList {l : List Lookahead} : b ∈ ofList l ↔ b ∈ l := by
  simp [ofList, mem_foldl_insert]

@[simp, grind =] theorem mem_union : b ∈ s ∪ t ↔ b ∈ s ∨ b ∈ t := mem_foldl_insert

@[simp, grind =] theorem mem_inter : b ∈ s ∩ t ↔ b ∈ s ∧ b ∈ t := by
  change b ∈ s.toList.filter (· ∈ t) ↔ _
  simp

@[simp, grind =] theorem mem_erase : b ∈ s.erase a ↔ b ∈ s ∧ b ≠ a := by
  change b ∈ s.toList.filter (· ≠ a) ↔ _
  simp

/-- How a set is listed: its members with single spaces between them. -/
instance : ToString LookaheadSet where
  toString s := " ".intercalate (s.toList.map toString)

end LookaheadSet

/-- A look-ahead set for each of some names. -/
structure LookaheadMap where
  /-- The names with their sets. -/
  entries : List (String × LookaheadSet)
deriving DecidableEq, Repr

namespace LookaheadMap

/-- The map that gives every name the empty set. -/
def ofNames (names : List String) : LookaheadMap := ⟨names.map (·, ∅)⟩

/-- The set of a name, if the name has one. -/
def get? (m : LookaheadMap) (x : String) : Option LookaheadSet := m.entries.lookup x

/-- The set of a name, empty for a name without one. -/
def getD (m : LookaheadMap) (x : String) : LookaheadSet := (m.get? x).getD ∅

/-- Enlarges the set of `x` in a list of entries by the members of `s`; a name that is
not there yet is put at the end. -/
def growIn (x : String) (s : LookaheadSet) :
    List (String × LookaheadSet) → List (String × LookaheadSet)
  | [] => [(x, s)]
  | (y, t) :: m => if x = y then (y, t ∪ s) :: m else (y, t) :: growIn x s m

/-- Enlarges the set of a name by the members of `s`. -/
def grow (m : LookaheadMap) (x : String) (s : LookaheadSet) : LookaheadMap :=
  ⟨growIn x s m.entries⟩

theorem lookup_growIn (x y : String) (s : LookaheadSet) (l : List (String × LookaheadSet)) :
    (growIn x s l).lookup y = if y = x then some ((l.lookup x).getD ∅ ∪ s) else l.lookup y := by
  induction l with
  | nil =>
    have h : (∅ : LookaheadSet) ∪ s = s := by ext; simp
    simp only [growIn, List.lookup_cons, List.lookup_nil, Option.getD_none, h]
    grind
  | cons e l ih =>
    obtain ⟨z, t⟩ := e
    simp only [growIn]
    grind

@[simp, grind =] theorem get?_grow (m : LookaheadMap) (x y : String) (s : LookaheadSet) :
    (m.grow x s).get? y = if y = x then some (m.getD x ∪ s) else m.get? y :=
  lookup_growIn ..

end LookaheadMap

end ToneScript
