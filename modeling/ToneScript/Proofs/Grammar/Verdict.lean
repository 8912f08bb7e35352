import ToneScript.Proofs.Grammar.Written
import ToneScript.Proofs.Text.Lines

/-!
# What the reader of grammars decides

The reader goes through a text once and meets four kinds of faults, some of them on the way and
some only when all lines have been read: a word that looks like an action can be a nonterminal that
is declared further below.  Here the decision is said without the way it is found.  A malformed
line comes before everything else, then a text without lines that count, then a word that looks
like an action and is nothing at all, and then any other nonterminal that is not declared; and
within each kind the first one in the text.

## Main definitions

* `Grammar.WellFormed` — the lines that can be read.
* `Grammar.wordsIn` — the words on the right-hand sides, in reading order.
* `Grammar.Undefined`, `Grammar.UnknownAction` — the words that stand for nothing.
* `Grammar.Verdict` — what is decided about the lines of a text.

## Main statements

* `Grammar.readLines_of_forall`, `Grammar.readLines_of_find?` — what is read of lines.
* `Grammar.danglingReferences_productionsIn` — the references that lead nowhere, as words.
* `Grammar.ofText_eq_iff` — the reader decides as said.
-/

namespace ToneScript.Grammar

open Text (HasArrow IsWord)

variable {line w : List Char} {lines : List (List Char × Nat)} {ps : List Production} {x : String}

/-! ## Lines -/

/-- A trimmed line counts if it is not empty and no comment. -/
def Counts (line : List Char) : Prop := line ≠ [] ∧ line.head? ≠ some '#'

instance (line : List Char) : Decidable (Counts line) :=
  inferInstanceAs (Decidable (line ≠ [] ∧ line.head? ≠ some '#'))

/-- The lines of a text that count, trimmed and with their numbers. -/
def countingLines (text : String) : List (List Char × Nat) :=
  (((Text.lines text.toList).map Text.trim).zipIdx 1).filter fun l => Counts l.1

theorem countedLines_eq (text : String) : countedLines text = countingLines text := by
  rw [countingLines, Text.filter_zipIdx_lines (by simp [Counts]), countedLines]
  congr 1
  funext l
  rw [Bool.eq_iff_iff, decide_eq_true_iff, Counts]
  simp

/-- What stands before the first arrow, trimmed. -/
def leftSide (line : List Char) : List Char :=
  Text.trim ((Text.splitAtArrow? line).elim [] Prod.fst)

/-- The words of the alternatives behind the first arrow. -/
def alternativesOn (line : List Char) : List (List (List Char)) :=
  (((Text.splitAtArrow? line).elim [] Prod.snd).splitOn '|').map Text.words

/-- A line that can be read: there is an arrow, a single word before it, and some word in every
alternative behind it. -/
structure WellFormed (line : List Char) : Prop where
  hasArrow : HasArrow line
  isWord : IsWord (leftSide line)
  ne_nil : ∀ ws ∈ alternativesOn line, ws ≠ []

theorem wellFormed_iff : WellFormed line ↔ (Text.splitAtArrow? line).isSome ∧
    (leftSide line ≠ [] ∧ (leftSide line).all fun c => !Text.isSpace c) ∧
    ∀ ws ∈ alternativesOn line, ws ≠ [] := by
  constructor
  · rintro ⟨harrow, ⟨hne, hspace⟩, hwords⟩
    exact ⟨Text.isSome_splitAtArrow?_iff.2 harrow, ⟨hne, by simpa using hspace⟩, hwords⟩
  · rintro ⟨harrow, ⟨hne, hspace⟩, hwords⟩
    exact ⟨Text.isSome_splitAtArrow?_iff.1 harrow, ⟨hne, by simpa using hspace⟩, hwords⟩

instance (line : List Char) : Decidable (WellFormed line) := decidable_of_iff _ wellFormed_iff.symm

/-- The productions on a line, one for each alternative. -/
def productionsOn (line : List Char) : List Production :=
  (alternativesOn line).map fun ws => ⟨String.ofList (leftSide line), ws.map readSymbol⟩

theorem readLine?_of_wellFormed (h : WellFormed line) :
    readLine? line = some (productionsOn line) := by
  obtain ⟨⟨l, r⟩, hs⟩ := Option.isSome_iff_exists.1 (Text.isSome_splitAtArrow?_iff.2 h.hasArrow)
  have hleft : leftSide line = Text.trim l := by simp [leftSide, hs]
  have hright : alternativesOn line = (r.splitOn '|').map Text.words := by
    simp [alternativesOn, hs]
  have hwords : Text.words l = [leftSide line] :=
    Text.words_eq_singleton_iff.2 ⟨h.isWord, hleft.symm⟩
  have hne : [] ∉ alternativesOn line := fun hmem => h.ne_nil [] hmem rfl
  simp only [readLine?, hs, hwords, ← hright, if_neg hne, productionsOn]

theorem wellFormed_of_readLine? (h : readLine? line = some ps) : WellFormed line := by
  unfold readLine? at h
  split at h
  · cases h
  rename_i l r hs
  split at h
  case h_2 => cases h
  rename_i name hname
  obtain ⟨hword, htrim⟩ := Text.words_eq_singleton_iff.1 hname
  constructor
  · exact Text.isSome_splitAtArrow?_iff.1 (by simp [hs])
  · simpa [leftSide, hs, htrim] using hword
  · rintro ws hws rfl
    simp only [alternativesOn, hs, Option.elim_some] at hws
    simp [hws] at h

theorem readLine?_eq_none (h : ¬ WellFormed line) : readLine? line = none := by
  cases hline : readLine? line with
  | none => rfl
  | some ps => exact absurd (wellFormed_of_readLine? hline) h

/-- The productions on numbered lines, each with the number of its line. -/
def productionsIn (lines : List (List Char × Nat)) : List (Production × Nat) :=
  lines.flatMap fun l => (productionsOn l.1).map (·, l.2)

theorem readLines_of_forall (h : ∀ l ∈ lines, WellFormed l.1) :
    readLines lines = .ok (productionsIn lines) := by
  induction lines with
  | nil => rfl
  | cons l lines ih =>
      rw [List.forall_mem_cons] at h
      simp only [readLines, readLine?_of_wellFormed h.1, ih h.2]
      rfl

/-- The first line that is not well formed is reported. -/
theorem readLines_of_find? {n : Nat}
    (h : lines.find? (fun l => ¬ WellFormed l.1) = some (line, n)) :
    readLines lines = .error (.malformed n (String.ofList line)) := by
  induction lines with
  | nil => cases h
  | cons l lines ih =>
      by_cases hl : WellFormed l.1
      · rw [List.find?_cons_of_neg (by simpa using hl)] at h
        simp only [readLines, readLine?_of_wellFormed hl, ih h]
      · rw [List.find?_cons_of_pos (by simpa using hl)] at h
        cases h
        simp only [readLines, readLine?_eq_none hl]

/-! ## Words -/

/-- The words on the right-hand sides in reading order, each with the number of its line. -/
def wordsIn (lines : List (List Char × Nat)) : List (List Char × Nat) :=
  lines.flatMap fun l => (alternativesOn l.1).flatten.map (·, l.2)

/-- The word is not the name of an action behind the mark of actions. -/
def NamesNoAction (w : List Char) : Prop := ∀ a ∈ Action.all, w ≠ actionMark ++ a.name.toList

instance (w : List Char) : Decidable (NamesNoAction w) :=
  inferInstanceAs (Decidable (∀ a ∈ Action.all, w ≠ actionMark ++ a.name.toList))

/-- The word refers to a nonterminal, since it stands for nothing else. -/
def Refers (w : List Char) : Prop :=
  w.head? ≠ some '/' ∧ w ≠ Symbol.epsilonText.toList ∧ w ≠ Symbol.endText.toList ∧
    NamesNoAction w

instance (w : List Char) : Decidable (Refers w) :=
  inferInstanceAs (Decidable (_ ∧ _ ∧ _ ∧ _))

/-- The word is not the nonterminal of any of the lines. -/
def Undeclared (lines : List (List Char × Nat)) (w : List Char) : Prop :=
  ∀ l ∈ lines, leftSide l.1 ≠ w

instance (lines : List (List Char × Nat)) (w : List Char) : Decidable (Undeclared lines w) :=
  inferInstanceAs (Decidable (∀ l ∈ lines, leftSide l.1 ≠ w))

/-- The word refers to a nonterminal that is not declared. -/
def Undefined (lines : List (List Char × Nat)) (w : List Char) : Prop :=
  Refers w ∧ Undeclared lines w

instance (lines : List (List Char × Nat)) (w : List Char) : Decidable (Undefined lines w) :=
  inferInstanceAs (Decidable (_ ∧ _))

/-- The word begins like an action, and stands neither for an action nor for a nonterminal that is
declared. -/
def UnknownAction (lines : List (List Char × Nat)) (w : List Char) : Prop :=
  actionMark <+: w ∧ NamesNoAction w ∧ Undeclared lines w

instance (lines : List (List Char × Nat)) (w : List Char) :
    Decidable (UnknownAction lines w) :=
  inferInstanceAs (Decidable (_ ∧ _ ∧ _))

theorem readAction?_eq_none_iff : readAction? w = none ↔ NamesNoAction w := by
  constructor
  · rintro h a _ rfl
    simp [readAction?, looksLikeAction, Action.ofName?_name] at h
  · intro h
    cases ha : readAction? w with
    | none => rfl
    | some a => exact absurd (eq_of_readAction? ha) (h a a.mem_all)

/-- A word that refers to a nonterminal is read as that, and no other word is. -/
theorem nonterminal?_readSymbol (w : List Char) :
    (readSymbol w).nonterminal? = if Refers w then some (String.ofList w) else none := by
  have hlist (s : String) : String.ofList w = s ↔ w = s.toList := by
    constructor
    · rintro rfl
      simp
    · rintro rfl
      simp
  unfold readSymbol
  split
  · simp [Refers, Symbol.nonterminal?]
  · rename_i hslash
    have hhead : w.head? ≠ some '/' := by
      intro h
      obtain ⟨t, rfl⟩ := List.head?_eq_some_iff.1 h
      exact hslash t rfl
    simp only [hlist]
    by_cases heps : w = Symbol.epsilonText.toList
    · simp [Refers, heps, Symbol.nonterminal?]
    · by_cases hend : w = Symbol.endText.toList
      · rw [if_neg heps, if_pos hend]
        simp [Refers, hend, Symbol.nonterminal?]
      · simp only [heps, hend, if_false, Refers, hhead, ne_eq, not_false_eq_true, true_and,
          ← readAction?_eq_none_iff]
        cases readAction? w <;> simp [Symbol.nonterminal?]

/-- What begins like an action is marked neither as a terminal nor as anything else. -/
theorem unknownAction_iff :
    UnknownAction lines w ↔ Undefined lines w ∧ looksLikeAction w := by
  have hmark : actionMark <+: w → w.head? ≠ some '/' ∧ w ≠ Symbol.epsilonText.toList ∧
      w ≠ Symbol.endText.toList := by
    rintro ⟨t, rfl⟩
    have hhead : (actionMark ++ t).head? = some 'A' := rfl
    refine ⟨by simp [hhead], ?_, ?_⟩
    · intro h
      exact absurd (h ▸ hhead) (by decide)
    · intro h
      exact absurd (h ▸ hhead) (by decide)
  rw [looksLikeAction, List.isPrefixOf_iff_prefix]
  constructor
  · rintro ⟨hbegins, hname, hundeclared⟩
    obtain ⟨hslash, heps, hend⟩ := hmark hbegins
    exact ⟨⟨⟨hslash, heps, hend, hname⟩, hundeclared⟩, hbegins⟩
  · rintro ⟨⟨⟨_, _, _, hname⟩, hundeclared⟩, hbegins⟩
    exact ⟨hbegins, hname, hundeclared⟩

/-! ## References -/

theorem alternativesOn_ne_nil (line : List Char) : alternativesOn line ≠ [] := by
  simp [alternativesOn, List.splitOn_ne_nil]

theorem productionsIn_eq_nil_iff : productionsIn lines = [] ↔ lines = [] := by
  have hne (line : List Char) : productionsOn line ≠ [] := by
    simp [productionsOn, alternativesOn_ne_nil]
  cases lines <;> simp [productionsIn, hne]

theorem map_fst_productionsIn (lines : List (List Char × Nat)) :
    (productionsIn lines).map Prod.fst = lines.flatMap fun l => productionsOn l.1 := by
  simp [productionsIn, List.map_flatMap, Function.comp_def]

/-- Every line declares its nonterminal. -/
theorem ofList_mem_lhs_productionsIn_iff :
    String.ofList w ∈ ((productionsIn lines).map Prod.fst).map Production.lhs ↔
      ¬ Undeclared lines w := by
  have hline (line : List Char) :
      String.ofList w ∈ (productionsOn line).map Production.lhs ↔ leftSide line = w := by
    obtain ⟨ws, hws⟩ := List.exists_mem_of_ne_nil _ (alternativesOn_ne_nil line)
    simp only [productionsOn, List.map_map, List.mem_map, Function.comp_apply]
    constructor
    · rintro ⟨_, _, h⟩
      exact String.ofList_injective h
    · rintro rfl
      exact ⟨ws, hws, rfl⟩
  rw [map_fst_productionsIn, List.map_flatMap]
  simp [Undeclared, hline]

theorem references_eq (name : String) (ws : List (List Char)) :
    Production.references ⟨name, ws.map readSymbol⟩ =
      (ws.filter fun w => Refers w).map String.ofList := by
  induction ws with
  | nil => rfl
  | cons w ws ih =>
      simp only [Production.references, List.map_cons, List.filterMap_cons,
        nonterminal?_readSymbol] at ih ⊢
      by_cases hw : Refers w <;> simp [hw, ih]

/-- The references that lead nowhere are the words that refer to nonterminals that are not declared,
in reading order. -/
theorem danglingReferences_productionsIn (lines : List (List Char × Nat)) :
    danglingReferences (productionsIn lines) =
      ((wordsIn lines).filter fun v => Undefined lines v.1).map
        fun v => (String.ofList v.1, v.2) := by
  have hline (l : List Char × Nat) :
      ((productionsOn l.1).map (·, l.2)).flatMap (fun p => p.1.references.map (·, p.2)) =
        (((alternativesOn l.1).flatten.map (·, l.2)).filter fun v => Refers v.1).map
          fun v => (String.ofList v.1, v.2) := by
    rw [productionsOn]
    induction alternativesOn l.1 with
    | nil => rfl
    | cons ws rest ih =>
        rw [List.map_cons, List.map_cons, List.flatMap_cons, ih, List.flatten_cons,
          List.map_append, List.filter_append, List.map_append, references_eq]
        simp only [List.filter_map, List.map_map, Function.comp_def]
  have hall : (productionsIn lines).flatMap (fun p => p.1.references.map (·, p.2)) =
      ((wordsIn lines).filter fun v => Refers v.1).map fun v => (String.ofList v.1, v.2) := by
    simp only [productionsIn, wordsIn, List.flatMap_assoc, List.filter_flatMap, List.map_flatMap,
      hline]
  rw [danglingReferences, hall, List.filter_map, List.filter_filter]
  congr 2
  funext v
  rw [Bool.eq_iff_iff, decide_eq_true_iff, Undefined, Bool.and_eq_true, and_comm]
  simp only [Function.comp_apply, decide_eq_true_eq, ofList_mem_lhs_productionsIn_iff, not_not]

/-! ## The decision -/

/-- What is decided about the lines of a text that count: it is a matter of the first malformed
line, if there is one; then of whether there is any line; then of the first word that looks like an
action and is nothing at all; then of the first nonterminal that is not declared; and if nothing of
the kind is found, the productions on the lines make up a grammar. -/
def Verdict (lines : List (List Char × Nat)) : Except Fault Grammar → Prop
  | .error (.malformed n text) =>
    ∃ line, lines.find? (fun l => ¬ WellFormed l.1) = some (line, n) ∧
      text = String.ofList line
  | .error .noProductions => lines = []
  | .error (.unknownAction n word) =>
    (∀ l ∈ lines, WellFormed l.1) ∧
      ∃ w, (wordsIn lines).find? (fun v => UnknownAction lines v.1) = some (w, n) ∧
        word = String.ofList w
  | .error (.undefined name) =>
    (∀ l ∈ lines, WellFormed l.1) ∧ (∀ v ∈ wordsIn lines, ¬ UnknownAction lines v.1) ∧
      ∃ w n, (wordsIn lines).find? (fun v => Undefined lines v.1) = some (w, n) ∧
        name = String.ofList w
  | .ok g =>
    lines ≠ [] ∧ (∀ l ∈ lines, WellFormed l.1) ∧ (∀ v ∈ wordsIn lines, ¬ Undefined lines v.1) ∧
      g.productions = lines.flatMap fun l => productionsOn l.1

theorem find?_danglingReferences_productionsIn (lines : List (List Char × Nat)) :
    ((danglingReferences (productionsIn lines)).find? fun r => looksLikeAction r.1.toList) =
      ((wordsIn lines).find? fun v => UnknownAction lines v.1).map
        fun v => (String.ofList v.1, v.2) := by
  rw [danglingReferences_productionsIn, List.find?_map, List.find?_filter]
  congr 2
  funext v
  rw [Bool.eq_iff_iff]
  simp [unknownAction_iff]

/-- The productions of lines make up a grammar, or the first reference that leads nowhere is
reported. -/
theorem verdict_ofProductions (h : ∀ l ∈ lines, WellFormed l.1) :
    Verdict lines (ofProductions (productionsIn lines)) := by
  have hunknown := find?_danglingReferences_productionsIn lines
  have hdangling := danglingReferences_productionsIn lines
  unfold ofProductions
  split
  · rename_i hnil
    exact productionsIn_eq_nil_iff.1 (List.map_eq_nil_iff.1 hnil)
  rename_i hne
  have hlines : lines ≠ [] := by
    intro hnil
    exact hne (by rw [productionsIn_eq_nil_iff.2 hnil]; rfl)
  split
  · rename_i word n hfind
    rw [hfind, eq_comm, Option.map_eq_some_iff] at hunknown
    obtain ⟨⟨w, _⟩, hw, heq⟩ := hunknown
    cases heq
    exact ⟨h, w, hw, rfl⟩
  rename_i hnone
  have hnoAction : ∀ v ∈ wordsIn lines, ¬ UnknownAction lines v.1 := by
    rw [hnone, eq_comm, Option.map_eq_none_iff, List.find?_eq_none] at hunknown
    simpa using hunknown
  split
  · rename_i name n rest hcons
    have hfirst := congrArg List.head? hdangling
    rw [hcons, List.head?_map, List.head?_filter, List.head?_cons, eq_comm,
      Option.map_eq_some_iff] at hfirst
    obtain ⟨⟨w, _⟩, hw, heq⟩ := hfirst
    cases heq
    exact ⟨h, hnoAction, w, _, hw, rfl⟩
  · rename_i hnil
    rw [hnil, eq_comm, List.map_eq_nil_iff, List.filter_eq_nil_iff] at hdangling
    refine ⟨hlines, h, by simpa using hdangling, map_fst_productionsIn lines⟩

theorem verdict_ofText (text : String) : Verdict (countingLines text) (ofText text) := by
  rw [ofText, countedLines_eq]
  cases hfind : (countingLines text).find? (fun l => ¬ WellFormed l.1) with
  | some l =>
      obtain ⟨line, n⟩ := l
      rw [readLines_of_find? hfind]
      exact ⟨line, hfind, rfl⟩
  | none =>
      have hall : ∀ l ∈ countingLines text, WellFormed l.1 := by
        simpa using List.find?_eq_none.1 hfind
      rw [readLines_of_forall hall]
      exact verdict_ofProductions hall

/-- At most one thing is decided. -/
theorem Verdict.unique {r r' : Except Fault Grammar} (h : Verdict lines r)
    (h' : Verdict lines r') : r = r' := by
  have hnil : lines = [] → wordsIn lines = [] := by
    rintro rfl
    rfl
  have hundefined (w : List Char) (hw : UnknownAction lines w) : Undefined lines w :=
    (unknownAction_iff.1 hw).1
  -- of two verdicts of different kinds, one says that there is what the other has found
  rcases r with (_ | _ | _ | _) | g <;> rcases r' with (_ | _ | _ | _) | g' <;>
    simp only [Verdict] at h h' <;> grind [Grammar]

/-- The reader decides as said: the first malformed line, no line at all, the first word that looks
like an action and is nothing, the first nonterminal that is not declared, or the grammar with one
production for each alternative, in reading order.  In a grammar that has been read, every
nonterminal that is referred to has a production. -/
theorem ofText_eq_iff (text : String) (r : Except Fault Grammar) :
    (ofText text = r ↔ Verdict (countingLines text) r) ∧
      ∀ g, ofText text = .ok g → ∀ p ∈ g.productions, ∀ x, Symbol.nonterminal x ∈ p.rhs →
        ∃ q ∈ g.productions, q.lhs = x := by
  constructor
  · constructor
    · rintro rfl
      exact verdict_ofText text
    · exact (verdict_ofText text).unique
  · intro g _ p hp x hx
    exact mem_nonterminals.1 (mem_nonterminals_of_mem_rhs hp hx)

-- the malformed line is the last of three faults
example : ofText "S -> ActionDivide Missing\n# S -> |\nS -> /x |" =
    .error (.malformed 3 "S -> /x |") := by
  decide +kernel

example : ofText "S -> Missing ActionDivide Actions\n\n Actions -> ActionAdd" =
    .error (.unknownAction 1 "ActionDivide") := by
  decide +kernel

end ToneScript.Grammar
