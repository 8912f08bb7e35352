import Mathlib.Data.List.Basic
import ToneScript.Proofs.Parse.Account
import ToneScript.Proofs.Program.Tonal

/-!
# Trees are told from their printed form

A tree is printed as a list of lines, and only the spaces before the labels tell how its nodes hang
together.  Nothing is lost that way, as long as a label neither begins with a space, which would
be taken for one more level, nor holds a line end.  Then the lines give the labels with their
depths.  Of these the children of a node are the part behind it that is deeper, which ends at the
first label that is not.

The labels of derivation trees are of that kind: names, tokens that begin with a parenthesis, and
two fixed words.

## Main definitions

* `Legible` — labels that can be told from the line that they are printed on.
* `Tree.outline` — the labels of a forest in pre-order, with their depths.

## Main statements

* `Tree.outline_append_inj` — a forest is told from its labels and their depths.
* `Parse.Grows.legible` — the labels of derivation trees are legible.
* `Tree.legible_toString_inj` — trees with the same printed form are the same.
-/

namespace ToneScript

/-- The label holds no line end and does not begin with a space. -/
def Legible (l : String) : Prop := '\n' ∉ l.toList ∧ l.toList.head? ≠ some ' '

instance (l : String) : Decidable (Legible l) := inferInstanceAs (Decidable (_ ∧ _))

namespace Tree

/-- All labels of the tree are legible. -/
def IsLegible (t : Tree) : Prop := ∀ n ∈ t.preorder, Legible n.1.label

instance (t : Tree) : Decidable t.IsLegible :=
  inferInstanceAs (Decidable (∀ n ∈ t.preorder, Legible n.1.label))

variable {d : ℕ} {l : String} {t u : Tree} {ts us : List Tree} {n : ℕ × String}
  {xs ys : List (ℕ × String)}

/-! ## Lines -/

/-- The line of a label at some depth. -/
def line (n : ℕ × String) : List Char := List.replicate (2 * n.1) ' ' ++ n.2.toList ++ ['\n']

/-- Where a class of characters ends, a text can be told to be put together. -/
theorem append_inj_of_class {P : Char → Bool} {p q r s : List Char} (hp : ∀ c ∈ p, P c)
    (hq : ∀ c ∈ q, P c) (hr : ∀ c ∈ r.head?, ¬ P c) (hs : ∀ c ∈ s.head?, ¬ P c)
    (h : p ++ r = q ++ s) : p = q ∧ r = s := by
  have htake {p r : List Char} (hp : ∀ c ∈ p, P c) (hr : ∀ c ∈ r.head?, ¬ P c) :
      (p ++ r).takeWhile P = p := by
    rw [List.takeWhile_append_of_pos hp]
    cases r with
    | nil => rw [List.takeWhile_nil, List.append_nil]
    | cons c r => rw [List.takeWhile_cons_of_neg (hr c rfl), List.append_nil]
  have hpq : p = q := by rw [← htake hp hr, h, htake hq hs]
  rw [hpq, List.append_cancel_left_eq] at h
  exact ⟨hpq, h⟩

/-- A line is told from a text that begins with it, and so is what stands behind it. -/
theorem line_append_inj {m : ℕ × String} {r s : List Char} (hn : Legible n.2) (hm : Legible m.2)
    (h : line n ++ r = line m ++ s) : n = m ∧ r = s := by
  have hbefore {m : ℕ × String} (hm : Legible m.2) :
      ∀ c ∈ List.replicate (2 * m.1) ' ' ++ m.2.toList, (c != '\n') = true := by
    intro c hc
    rcases List.mem_append.1 hc with hc | hc
    · rw [(List.mem_replicate.1 hc).2]
      rfl
    · exact bne_iff_ne.2 fun h => hm.1 (h ▸ hc)
  have hlabel {m : ℕ × String} (hm : Legible m.2) :
      ∀ c ∈ m.2.toList.head?, ¬ (c == ' ') = true :=
    fun c hc hspace => hm.2 (by rw [Option.mem_def.1 hc, beq_iff_eq.1 hspace])
  rw [line, line, List.append_assoc, List.append_assoc _ _ s] at h
  obtain ⟨hline, hrest⟩ :=
    append_inj_of_class (hbefore hn) (hbefore hm) (by simp) (by simp) h
  obtain ⟨hdepth, hname⟩ :=
    append_inj_of_class (P := (· == ' ')) (by simp) (by simp) (hlabel hn) (hlabel hm) hline
  have hdouble : 2 * n.1 = 2 * m.1 := by simpa using congrArg List.length hdepth
  exact ⟨Prod.ext (by omega) (String.toList_injective hname), (List.cons.inj hrest).2⟩

theorem flatMap_line_inj (hxs : ∀ n ∈ xs, Legible n.2) (hys : ∀ n ∈ ys, Legible n.2)
    (h : xs.flatMap line = ys.flatMap line) : xs = ys := by
  induction xs generalizing ys with
  | nil =>
      cases ys with
      | nil => rfl
      | cons m ys => simp [line] at h
  | cons n xs ih =>
      cases ys with
      | nil => simp [line] at h
      | cons m ys =>
          rw [List.forall_mem_cons] at hxs hys
          rw [List.flatMap_cons, List.flatMap_cons] at h
          obtain ⟨rfl, hrest⟩ := line_append_inj hxs.1 hys.1 h
          rw [ih hxs.2 hys.2 hrest]

/-! ## Outlines -/

/-- The labels of a forest in pre-order, with their depths. -/
def outline (d : ℕ) (ts : List Tree) : List (ℕ × String) :=
  (nodesFromAll d ts).map fun n => (n.2, n.1.label)

@[simp] theorem outline_nil (d : ℕ) : outline d [] = [] := by
  rw [outline, nodesFromAll, List.map_nil]

theorem outline_cons (d : ℕ) (t : Tree) (ts : List Tree) :
    outline d (t :: ts) = (d, t.label) :: (outline (d + 1) t.children ++ outline d ts) := by
  rw [outline, nodesFromAll, nodesFrom_eq, List.map_append]
  rfl

/-- The first label behind is above the depth `d`, if there is one. -/
def EndsAbove (d : ℕ) (xs : List (ℕ × String)) : Prop := ∀ n ∈ xs.head?, n.1 < d

theorem endsAbove_nil (d : ℕ) : EndsAbove d [] := by simp [EndsAbove]

/-- Behind the children of a node come labels that are not deeper than it. -/
theorem endsAbove_outline_append (hxs : EndsAbove d xs) :
    EndsAbove (d + 1) (outline d ts ++ xs) := by
  cases ts with
  | nil =>
      rw [outline_nil, List.nil_append]
      exact fun n hn => Nat.lt_succ_of_lt (hxs n hn)
  | cons t ts => simp [EndsAbove, outline_cons]

/-- A forest is told from its labels and their depths, and so is what stands behind it, as long as
that begins further up. -/
theorem outline_append_inj {d : ℕ} {ts us : List Tree} {xs ys : List (ℕ × String)}
    (hxs : EndsAbove d xs) (hys : EndsAbove d ys)
    (h : outline d ts ++ xs = outline d us ++ ys) : ts = us ∧ xs = ys := by
  match ts, us with
  | [], [] =>
      rw [outline_nil] at h
      exact ⟨rfl, h⟩
  | [], u :: us =>
      rw [outline_nil, outline_cons, List.nil_append, List.cons_append] at h
      simp [EndsAbove, h] at hxs
  | t :: ts, [] =>
      rw [outline_nil, outline_cons, List.nil_append, List.cons_append] at h
      simp [EndsAbove, ← h] at hys
  | .node l cs :: ts, .node m ds :: us =>
      rw [outline_cons, outline_cons, List.cons_append, List.cons_append, List.append_assoc,
        List.append_assoc, List.cons.injEq] at h
      obtain ⟨hroot, hbelow⟩ := h
      -- whatever comes behind the children is not deeper than the root
      obtain ⟨rfl, hrest⟩ := outline_append_inj (endsAbove_outline_append hxs)
        (endsAbove_outline_append hys) hbelow
      obtain ⟨rfl, hbehind⟩ := outline_append_inj hxs hys hrest
      rw [label_node, label_node] at hroot
      cases hroot
      exact ⟨rfl, hbehind⟩
termination_by sizeAll ts
decreasing_by
  · simp [size_eq]
    omega
  · simp [size_eq]

/-! ## The printed form -/

theorem outline_singleton (t : Tree) :
    outline 0 [t] = t.preorder.map fun n => (n.2, n.1.label) := by
  rw [outline, preorder_eq_nodesFrom, nodesFromAll, nodesFromAll, List.append_nil]

theorem toList_pushn (s : String) (n : ℕ) :
    (s.pushn ' ' n).toList = s.toList ++ List.replicate n ' ' := by
  induction n with
  | zero => simp [String.pushn, Nat.repeat]
  | succ n ih =>
      rw [List.replicate_succ', ← List.append_assoc, ← ih, ← String.toList_push]
      rfl

theorem toList_foldl_appendLine (s : String) (ns : List (Tree × ℕ)) :
    (ns.foldl appendLine s).toList =
      s.toList ++ (ns.map fun n => (n.2, n.1.label)).flatMap line := by
  induction ns generalizing s with
  | nil => simp
  | cons n ns ih =>
      rw [List.foldl_cons, ih, List.map_cons, List.flatMap_cons, appendLine, String.toList_push,
        String.toList_append, toList_pushn, line]
      simp only [List.append_assoc]

/-- The printed form consists of the lines of the outline. -/
theorem toList_toString (t : Tree) : (toString t).toList = (outline 0 [t]).flatMap line := by
  rw [outline_singleton]
  exact toList_foldl_appendLine "" t.preorder

theorem isLegible_iff : t.IsLegible ↔ ∀ n ∈ outline 0 [t], Legible n.2 := by
  rw [outline_singleton, List.forall_mem_map, IsLegible]

end Tree

/-! ## Derivation trees -/

/-- The listing of a token of the program is legible. -/
theorem Token.WellFormed.legible {k : Token} (h : k.WellFormed) (hk : k.isTrivia = false) :
    Legible (toString k) := by
  have hnone {P : Char → Bool} {x : List Char} (hP : P '\n' = false) (hx : x.all P) :
      '\n' ∉ x := by
    intro hmem
    have hall := List.all_eq_true.1 hx '\n' hmem
    rw [hP] at hall
    cases hall
  obtain ⟨category, text, n⟩ := k
  change category.Admits text.toList at h
  have htext : '\n' ∉ text.toList := by
    cases category with
    | number => exact hnone rfl h.2
    | identifier =>
        obtain ⟨c, r, hx, hc, hr⟩ := h
        have hall : (c :: r).all Char.isAlphanum := by
          simp [List.all_cons, Char.isAlphanum, hc, hr]
        rw [hx]
        exact hnone rfl hall
    | symbol =>
        obtain ⟨c, hx, hc⟩ := h
        rw [hx]
        exact hnone (P := Alphabet.isSymbol) rfl (by simpa using hc)
    | literal =>
        obtain ⟨r, hx, hr⟩ := h
        have hinner : '\n' ∉ r := hnone rfl hr
        simp [hx, hinner]
    | comment => cases hk
    | blank => cases hk
  have hname : '\n' ∉ category.name.toList := by cases category <;> decide
  change Legible ("(" ++ category.name ++ ", " ++ text ++ ")")
  constructor
  · simp [hname, htext]
  · simp

namespace Parse

variable {t : Table} {steps : List Step} {P : Step → Prop} {cs : List Tree} {ks : List Token}

/-- The labels of derivation trees are legible, if those of nonterminals and tokens are. -/
theorem Grows.legible (h : Grows t P steps cs ks) (ht : ∀ e ∈ t.entries, Legible e.name)
    (hks : ∀ k ∈ ks, Legible (toString k)) (d : ℕ) : ∀ n ∈ Tree.outline d cs, Legible n.2 := by
  have hleaf {l : String} {cs : List Tree} {d : ℕ} (hl : Legible l)
      (hcs : ∀ n ∈ Tree.outline d cs, Legible n.2) :
      ∀ n ∈ Tree.outline d (Tree.leaf l :: cs), Legible n.2 := by
    rw [Tree.outline_cons, Tree.leaf, Tree.children_node, Tree.outline_nil, List.nil_append,
      List.forall_mem_cons]
    exact ⟨hl, hcs⟩
  induction h generalizing d with
  | nil => simp
  | skip _ _ ih => exact ih hks d
  | token k _ ih =>
      rw [List.forall_mem_cons] at hks
      exact hleaf hks.1 (ih hks.2 d)
  | endMark _ ih => exact hleaf (by decide) (ih hks d)
  | epsilon _ ih => exact hleaf (by decide) (ih hks d)
  | node he _ _ _ ihc ih =>
      rw [List.forall_mem_append] at hks
      rw [Tree.outline_cons, List.forall_mem_cons, List.forall_mem_append]
      exact ⟨ht _ (Array.mem_of_getElem? he), ihc hks.1 (d + 1), ih hks.2 d⟩

/-- The tree of a tone program is legible. -/
theorem isLegible_of_run {source : String} {o : Outcome} {T : Tree} (ho : run .tone source = some o)
    (hT : o.tree = some T) : T.IsLegible := by
  obtain ⟨E, hist, hgrows, _⟩ := run_grows Table.build_tone ho
  obtain ⟨skipped, hparted, _⟩ := hist.parts_tokens Grammar.closing_tone (by decide) (by decide)
  have hentries : ∀ e ∈ Table.tone.entries, Legible e.name := by decide +kernel
  have htokens : ∀ k ∈ tokensOf E, Legible (toString k) := by
    intro k hk
    have hsig := hparted.subset_left hk
    have hwf := Token.WellFormed.of_mem_ofSource (mem_ofSource_of_mem_significant hsig)
    exact hwf.legible (by simpa using (List.mem_filter.1 hsig).2)
  exact Tree.isLegible_iff.2 ((hgrows T hT).legible hentries htokens 0)

end Parse

/-- The printed form of a tree loses nothing: two trees with the same printed form are the same, if
their labels hold no line ends and do not begin with spaces.  The labels of the trees of tone
programs are all of that kind. -/
theorem Tree.legible_toString_inj :
    (∀ t u : Tree, t.IsLegible → u.IsLegible → toString t = toString u → t = u) ∧
      ∀ source o T, Parse.run .tone source = some o → o.tree = some T → T.IsLegible := by
  refine ⟨fun t u ht hu h => ?_, fun source o T => Parse.isLegible_of_run⟩
  have hlines : (outline 0 [t]).flatMap line = (outline 0 [u]).flatMap line := by
    rw [← toList_toString, ← toList_toString, h]
  have houtline := flatMap_line_inj (isLegible_iff.1 ht) (isLegible_iff.1 hu) hlines
  have htrees : [t] = [u] ∧ [] = [] :=
    outline_append_inj (endsAbove_nil 0) (endsAbove_nil 0) (by rw [houtline])
  exact List.singleton_inj.1 htrees.1

/-- The tree of a program is told from what is printed of it. -/
theorem Tree.legible_toString_inj_literal :
    ∃ o T, Parse.run .tone "\"o e\";" = some o ∧ o.tree = some T ∧
      T = .node "Program" [.node "ProgramBody"
        [.node "FactorNoId" [leaf "(STATIC_STRING, \"o e\")"], .node "TermPrime" [leaf "epsilon"],
          .node "ExprPrime" [leaf "epsilon"], leaf "(SYMBOL, ;)",
          .node "ProgramRest" [leaf "epsilon"]], leaf "$"] := by
  have hshown : (Parse.run .tone "\"o e\";").map (fun o => o.tree.map fun T => outline 0 [T]) =
      some (some [(0, "Program"), (1, "ProgramBody"), (2, "FactorNoId"),
        (3, "(STATIC_STRING, \"o e\")"), (2, "TermPrime"), (3, "epsilon"), (2, "ExprPrime"),
        (3, "epsilon"), (2, "(SYMBOL, ;)"), (2, "ProgramRest"), (3, "epsilon"), (1, "$")]) := by
    decide +kernel
  obtain ⟨o, ho, htree⟩ := Option.map_eq_some_iff.1 hshown
  obtain ⟨T, hT, houtline⟩ := Option.map_eq_some_iff.1 htree
  refine ⟨o, T, ho, hT, ?_⟩
  refine legible_toString_inj.1 T _ (legible_toString_inj.2 _ o T ho hT)
    (isLegible_iff.2 (by decide +kernel)) (String.toList_injective ?_)
  rw [toList_toString, toList_toString, houtline]
  rfl

end ToneScript
