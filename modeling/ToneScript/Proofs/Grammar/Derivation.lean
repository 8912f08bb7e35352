import ToneScript.Proofs.Grammar.Sentences

/-!
# Derivation trees

A derivation tree keeps what rewriting forgets: which production was taken for every
nonterminal, and where among the tokens the actions stand.  Here the trees of a whole sequence
of symbols are given side by side, symbol by symbol.  They are well formed by construction:
below a nonterminal stand the trees of one of its right-hand sides, and below a terminal
something that bears its name, which for a program is a token.

## Main definitions

* `Grammar.Derivation` — the derivation trees of a sequence of symbols.
* `Grammar.Leaf`, `Grammar.Derivation.leaves` — what stands at the leaves, from left to right.
* `Grammar.Leaf.EndsBefore` — behind an end mark there is nothing more to match.

## Main statements

* `Grammar.Derivation.derives`, `Grammar.Derives.exists_derivation` — a sequence has trees for
  the words that it stands for, and for no others.
* `Grammar.Anchored.endsBefore_nil` — in a tree of an anchored grammar the end mark comes last.
-/

namespace ToneScript.Grammar

/-! ## Leaves -/

/-- What can stand at a leaf, the empty sequence apart. -/
inductive Leaf (α : Type) where
  /-- What is matched by a terminal. -/
  | token (k : α)
  /-- The end of the program. -/
  | endMark
  /-- An action. -/
  | action (a : Action)

variable {g : Grammar} {α : Type} {name : α → String} {w z : List Symbol} {ls ls' : List (Leaf α)}
  {ks rest : List α} {y : List String}

namespace Leaf

/-- What is matched at a leaf. -/
def token? : Leaf α → Option α
  | token k => some k
  | endMark | action _ => none

/-- The symbol that is matched at a leaf. -/
def symbol? (name : α → String) : Leaf α → Option Symbol
  | token k => some (.terminal (name k))
  | endMark => some .endMark
  | action _ => none

/-- What is matched at the leaves, the end of the program apart. -/
def tokens (ls : List (Leaf α)) : List α := ls.filterMap token?

/-- The symbols that are matched at the leaves. -/
def word (name : α → String) (ls : List (Leaf α)) : List Symbol := ls.filterMap (symbol? name)

@[simp] theorem tokens_append (ls ls' : List (Leaf α)) :
    tokens (ls ++ ls') = tokens ls ++ tokens ls' := List.filterMap_append ..

@[simp] theorem word_append (name : α → String) (ls ls' : List (Leaf α)) :
    word name (ls ++ ls') = word name ls ++ word name ls' := List.filterMap_append ..

@[simp] theorem tokens_map_token (ks : List α) : tokens (ks.map token) = ks := by
  simp [tokens, Function.comp_def, token?]

theorem terminalsOf_word (name : α → String) (ls : List (Leaf α)) :
    terminalsOf (word name ls) = (tokens ls).map name := by
  have hleaf : ∀ l : Leaf α, (l.symbol? name).bind Symbol.terminal? = l.token?.map name := by
    intro l
    cases l <;> rfl
  simp [terminalsOf, word, tokens, List.filterMap_filterMap, List.map_filterMap, hleaf]

/-- Behind an end mark among the leaves there is nothing more to match, neither at a leaf nor
among `rest`. -/
def EndsBefore (rest : List α) : List (Leaf α) → Prop
  | [] => True
  | .endMark :: ls => tokens ls ++ rest = [] ∧ EndsBefore rest ls
  | .token _ :: ls | .action _ :: ls => EndsBefore rest ls

theorem endsBefore_append :
    EndsBefore rest (ls ++ ls') ↔ EndsBefore (tokens ls' ++ rest) ls ∧ EndsBefore rest ls' := by
  induction ls with
  | nil => simp [EndsBefore]
  | cons l ls ih =>
      cases l with
      | token k => exact ih
      | action a => exact ih
      | endMark =>
          rw [List.cons_append, EndsBefore, EndsBefore, ih, tokens_append, List.append_assoc,
            and_assoc]

theorem endsBefore_of_endMark_notMem (name : α → String) (h : .endMark ∉ word name ls) :
    EndsBefore rest ls := by
  induction ls with
  | nil => trivial
  | cons l ls ih =>
      cases l with
      | token k => exact ih (fun hm => h (List.mem_cons_of_mem _ hm))
      | action a => exact ih h
      | endMark => exact absurd List.mem_cons_self h

/-- Where the end mark is the last symbol and no other, there is nothing behind it. -/
theorem endsBefore_of_word_eq (h : word name ls = y.map .terminal ++ [.endMark]) :
    EndsBefore [] ls := by
  induction ls generalizing y with
  | nil => trivial
  | cons l ls ih =>
      cases l with
      | action a => exact ih (y := y) h
      | token k =>
          cases y with
          | nil => cases h
          | cons t y => exact ih (y := y) (List.cons.inj h).2
      | endMark =>
          cases y with
          | cons t y => cases h
          | nil =>
              have hword : word name ls = [] := (List.cons.inj h).2
              have hnames := terminalsOf_word name ls
              rw [hword] at hnames
              have htokens : tokens ls = [] := List.map_eq_nil_iff.1 hnames.symm
              refine ⟨by rw [htokens, List.append_nil], endsBefore_of_endMark_notMem name ?_⟩
              rw [hword]
              exact List.not_mem_nil

end Leaf

/-! ## Trees -/

/-- The derivation trees of a sequence of symbols, one for each symbol. -/
inductive Derivation (g : Grammar) (name : α → String) : List Symbol → Type
  /-- There are no symbols. -/
  | nil : Derivation g name []
  /-- A terminal, and what bears its name. -/
  | token {x : String} {w : List Symbol} (k : α) (hk : name k = x) (rest : Derivation g name w) :
      Derivation g name (.terminal x :: w)
  /-- The end of the program. -/
  | endMark {w : List Symbol} (rest : Derivation g name w) : Derivation g name (.endMark :: w)
  /-- The empty sequence. -/
  | epsilon {w : List Symbol} (rest : Derivation g name w) : Derivation g name (.epsilon :: w)
  /-- An action. -/
  | action {w : List Symbol} (a : Action) (rest : Derivation g name w) :
      Derivation g name (.action a :: w)
  /-- A nonterminal, and the trees of one of its right-hand sides. -/
  | node {x : String} {w : List Symbol} (p : Production) (hp : p ∈ g.productions) (hx : p.lhs = x)
      (below : Derivation g name p.rhs) (rest : Derivation g name w) :
      Derivation g name (.nonterminal x :: w)

namespace Derivation

/-- The leaves of the trees, from left to right. -/
def leaves {w : List Symbol} : Derivation g name w → List (Leaf α)
  | nil => []
  | token k _ rest => .token k :: rest.leaves
  | endMark rest => .endMark :: rest.leaves
  | epsilon rest => rest.leaves
  | action a rest => .action a :: rest.leaves
  | node _ _ _ below rest => below.leaves ++ rest.leaves

/-- What is matched at the leaves, from left to right. -/
def tokens (D : Derivation g name w) : List α := Leaf.tokens D.leaves

@[simp] theorem tokens_node {x : String} {p : Production} (hp : p ∈ g.productions) (hx : p.lhs = x)
    (below : Derivation g name p.rhs) (rest : Derivation g name w) :
    (node p hp hx below rest).tokens = below.tokens ++ rest.tokens := Leaf.tokens_append ..

/-- What the leaves spell is derived from the symbols. -/
theorem derives (D : Derivation g name w) : g.Derives w (Leaf.word name D.leaves) := by
  induction D with
  | nil => exact .nil
  | token k hk rest ih =>
      subst hk
      exact .input rfl ih
  | endMark rest ih => exact .input rfl ih
  | epsilon rest ih => exact .skip rfl ih
  | action a rest ih => exact .skip rfl ih
  | node p hp hx below rest ihbelow ih =>
      subst hx
      rw [leaves, Leaf.word_append]
      exact .expand hp ihbelow ih

end Derivation

/-- Every word has derivation trees, over anything that bears the names of its terminals. -/
theorem Derives.exists_derivation (h : g.Derives w z) (hz : terminalsOf z = ks.map name) :
    ∃ D : g.Derivation name w, D.tokens = ks := by
  induction h generalizing ks with
  | nil => exact ⟨.nil, (List.map_eq_nil_iff.1 hz.symm).symm⟩
  | @input x w z hx _ ih =>
      cases x with
      | terminal t =>
          obtain ⟨k, ks, rfl, hk, hks⟩ := List.map_eq_cons_iff.1 hz.symm
          obtain ⟨D, hD⟩ := ih hks.symm
          exact ⟨.token k hk D, congrArg (k :: ·) hD⟩
      | endMark =>
          obtain ⟨D, hD⟩ := ih hz
          exact ⟨.endMark D, hD⟩
      | nonterminal x => cases hx
      | action a => cases hx
      | epsilon => cases hx
  | @skip x w z hx _ ih =>
      obtain ⟨D, hD⟩ := ih hz
      cases x with
      | action a => exact ⟨.action a D, hD⟩
      | epsilon => exact ⟨.epsilon D, hD⟩
      | terminal t => cases hx
      | nonterminal x => cases hx
      | endMark => cases hx
  | expand hp _ _ ihr ih =>
      rw [terminalsOf_append] at hz
      obtain ⟨ks₁, ks₂, rfl, h₁, h₂⟩ := List.map_eq_append_iff.1 hz.symm
      obtain ⟨D₁, hD₁⟩ := ihr h₁.symm
      obtain ⟨D₂, hD₂⟩ := ih h₂.symm
      exact ⟨.node _ hp rfl D₁ D₂, by rw [Derivation.tokens_node, hD₁, hD₂]⟩

/-- Every sentence has a derivation tree. -/
theorem Sentence.exists_derivation (h : g.Sentence (ks.map name)) :
    ∃ D : g.Derivation name [.nonterminal g.start], D.tokens = ks := by
  have hinput : ∀ c ∈ (ks.map name).map Symbol.terminal ++ [.endMark], c.isInput := by
    simp [Symbol.isInput, or_imp, forall_and]
  have hd := (rewrites_iff_derives (w := [.nonterminal g.start]) hinput).1 h
  refine hd.exists_derivation ?_
  simp [terminalsOf, Symbol.terminal?, List.filterMap_map, Function.comp_def]

/-- In a tree of an anchored grammar the end mark comes last. -/
theorem Anchored.endsBefore_nil (hg : g.Anchored) (D : g.Derivation name [.nonterminal g.start]) :
    Leaf.EndsBefore [] D.leaves :=
  Leaf.endsBefore_of_word_eq (hg.derives_start D.derives)

end ToneScript.Grammar
