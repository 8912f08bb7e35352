import ToneScript.Proofs.Parse.Viable

/-!
# What the derivation tree records

The nodes of a derivation tree are entered in one place and left in another, all those of a
chain of last nonterminals at once, and recovery drops symbols from them.  Still every node
has the children that stem from the steps of one alternative, in their order: some may be
missing, but none is ever in another's place.  If nothing is out of place, only actions leave
no trace.  The leaves for tokens are the tokens that the parse has matched.

## Main definitions

* `Parse.Grows` — trees that stem from steps, with the tokens at their leaves.
* `Tree.Builder.addAll` — children for the innermost node.

## Main statements

* `Parse.Logs.grows` — the trees that a parse adds stem from its steps.
* `Parse.run_grows` — the tree of a whole program.
-/

namespace ToneScript

/-! ## Trees under construction -/

namespace Tree.Builder

variable {b : Builder} {cs : List Tree}

/-- Adds children to the innermost node. -/
def addAll (b : Builder) (cs : List Tree) : Builder :=
  match b.path with
  | [] => b
  | (l, cs') :: path => { b with path := (l, cs.reverse ++ cs') :: path }

@[simp] theorem addAll_nil (b : Builder) : b.addAll [] = b := by
  obtain ⟨_ | ⟨⟨l, cs⟩, path⟩, root⟩ := b <;> rfl

@[simp] theorem addAll_addAll (b : Builder) (cs cs' : List Tree) :
    (b.addAll cs).addAll cs' = b.addAll (cs ++ cs') := by
  obtain ⟨_ | ⟨⟨l, cs⟩, path⟩, root⟩ := b <;> simp [addAll]

theorem addLeaf_eq (b : Builder) (l : String) : b.addLeaf l = b.addAll [leaf l] := by
  obtain ⟨_ | ⟨⟨l, cs⟩, path⟩, root⟩ := b <;> rfl

theorem path_addAll_ne_nil (h : b.path ≠ []) : (b.addAll cs).path ≠ [] := by
  obtain ⟨_ | ⟨⟨l, cs⟩, path⟩, root⟩ := b
  · exact absurd rfl h
  · simp [addAll]

/-- A node that is entered and left with its children becomes a child itself. -/
theorem leaveAll_addAll_enter (h : b.path ≠ []) (l : String) :
    ((b.enter l).addAll cs).leaveAll 1 = b.addAll [.node l cs] := by
  obtain ⟨_ | ⟨⟨l, cs⟩, path⟩, root⟩ := b
  · exact absurd rfl h
  · simp [addAll, enter, leaveAll, leave]

/-- Outside of all nodes it becomes the tree. -/
theorem finish_leaveAll_addAll_enter (h : b.path = []) (l : String) :
    (((b.enter l).addAll cs).leaveAll 1).finish = some (.node l cs) := by
  simp [addAll, enter, leaveAll, leave, finish, h]

end Tree.Builder

/-- The step performs an action. -/
def Step.IsAction (x : Step) : Prop := ∃ a, x = .fire a

namespace Parse

variable {g : Grammar} {t : Table} {e : Entry} {x : Step} {steps steps' : List Step}
  {s : State} {r : Flow × State} {E : List Event} {P : Step → Prop}
  {cs cs' : List Tree} {ks ks' : List Token}

/-! ## Trees that stem from steps -/

/-- The trees stem from the steps one by one, and the tokens are those at their leaves, from
left to right.  Steps that may be omitted need not have left a tree. -/
inductive Grows (t : Table) (omitted : Step → Prop) : List Step → List Tree → List Token → Prop
  /-- No steps leave no trees. -/
  | nil : Grows t omitted [] [] []
  /-- A step has left no tree. -/
  | skip {x : Step} {steps : List Step} {cs : List Tree} {ks : List Token} (hx : omitted x)
      (h : Grows t omitted steps cs ks) : Grows t omitted (x :: steps) cs ks
  /-- A token has been matched by its terminal. -/
  | token {steps : List Step} {cs : List Tree} {ks : List Token} (k : Token)
      (h : Grows t omitted steps cs ks) :
      Grows t omitted (.consume k.terminal :: steps) (Tree.leaf (toString k) :: cs) (k :: ks)
  /-- The end of the program has been matched. -/
  | endMark {steps : List Step} {cs : List Tree} {ks : List Token}
      (h : Grows t omitted steps cs ks) :
      Grows t omitted (.expectEnd :: steps) (Tree.leaf "$" :: cs) ks
  /-- The empty sequence has been matched. -/
  | epsilon {steps : List Step} {cs : List Tree} {ks : List Token}
      (h : Grows t omitted steps cs ks) :
      Grows t omitted (.empty :: steps) (Tree.leaf "epsilon" :: cs) ks
  /-- A nonterminal has been derived: below its node is what stems from an alternative. -/
  | node {id : Nat} {e : Entry} {a : Alternative} {steps : List Step} {cs cs' : List Tree}
      {ks ks' : List Token} (he : t.entries[id]? = some e) (ha : a ∈ e.alternatives)
      (hc : Grows t omitted a.steps cs ks) (h : Grows t omitted steps cs' ks') :
      Grows t omitted (.expand id :: steps) (.node e.name cs :: cs') (ks ++ ks')

namespace Grows

theorem append (h : Grows t P steps cs ks) (h' : Grows t P steps' cs' ks') :
    Grows t P (steps ++ steps') (cs ++ cs') (ks ++ ks') := by
  induction h with
  | nil => exact h'
  | skip hx _ ih => exact .skip hx ih
  | token k _ ih => exact .token k ih
  | endMark _ ih => exact .endMark ih
  | epsilon _ ih => exact .epsilon ih
  | node he ha hc _ _ ih =>
      rw [List.append_assoc]
      exact .node he ha hc ih

/-- A nonterminal on its own. -/
theorem of_alternative {id : Nat} {a : Alternative} (he : t.entries[id]? = some e)
    (ha : a ∈ e.alternatives) (h : Grows t P a.steps cs ks) :
    Grows t P [.expand id] [.node e.name cs] ks := by
  have hnode : Grows t P [.expand id] [.node e.name cs] (ks ++ []) := .node he ha h .nil
  rwa [List.append_nil] at hnode

theorem of_forall (h : ∀ x, P x) (steps : List Step) : Grows t P steps [] [] := by
  induction steps with
  | nil => exact .nil
  | cons x steps ih => exact .skip (h x) ih

end Grows

/-! ## What a step adds to the tree -/

theorem State.tree_advanceOver (s : State) (scans : List Scan) :
    (s.advanceOver scans).2.tree = s.tree := by
  fun_induction State.advanceOver s scans with
  | case1 s => rfl
  | case2 s => rfl
  | case3 s t rest _ ih => exact ih
  | case4 s t rest _ => rfl
  | case5 s f x n rest ih => exact ih
  | case6 s x n rest => rfl

theorem State.tree_advance (s : State) : s.advance.2.tree = s.tree := s.tree_advanceOver _

/-- The search for an alternative leaves no trace in the tree. -/
theorem Selects.tree_eq {q : Except Flow Alternative × State} (h : Selects e s q) :
    q.2.tree = s.tree := by
  have hskip {s s' : State} {k : Token} {flow : Flow}
      (ha : { s with report := s.report.illegal k.terminal s.line }.advance = (flow, s')) :
      s'.tree = s.tree := by
    have htree := State.tree_advance { s with report := s.report.illegal k.terminal s.line }
    rwa [ha] at htree
  induction h with
  | chosen _ => rfl
  | missing _ _ => rfl
  | ended _ _ _ => rfl
  | cut _ _ _ ha => exact hskip ha
  | skip _ _ _ ha _ ih => rw [ih, hskip ha]

section Grows

variable (homit : ∀ a, P (.fire a))

include homit

/-- A step that derives no nonterminal adds what it matches. -/
theorem Acts.grows (h : Acts x s r)
    (hall : (∀ x, P x) ∨ Clean (s.deed x ++ s.news r.2)) :
    ∃ cs, Grows t P [x] cs (tokensOf (s.deed x)) ∧ r.2.tree = s.tree.addAll cs := by
  -- what is not matched is omitted
  have hfault {y : Step} {d : Diagnostic} (hk : d.kind = .semantic)
      (hall : (∀ x, P x) ∨
        Clean (s.deed y ++ s.news { s with report := s.report.push d })) :
      ∃ cs, Grows t P [y] cs [] ∧ s.tree = s.tree.addAll cs := by
    rcases hall with hall | hc
    · exact ⟨[], .of_forall hall _, (Tree.Builder.addAll_nil _).symm⟩
    · rw [clean_append, State.news_push, clean_reported] at hc
      exact absurd hk hc.2
  cases h with
  | consume x _ =>
      rcases s.consume_cases x with ⟨k, _, rfl, hdeed, heq⟩ | ⟨d, hd, _, hdeed, heq⟩
      · rw [hdeed, heq, State.tree_advance]
        exact ⟨_, .token k .nil, Tree.Builder.addLeaf_eq ..⟩
      · rw [heq] at hall
        rw [hdeed, heq]
        exact hfault hd hall
  | expectEnd _ =>
      rcases s.expectEnd_cases with ⟨_, hdeed, heq⟩ | ⟨d, hd, _, hdeed, heq⟩
      · rw [hdeed, heq]
        exact ⟨_, .endMark .nil, Tree.Builder.addLeaf_eq ..⟩
      · rw [heq] at hall
        rw [hdeed, heq]
        exact hfault hd hall
  | empty _ => exact ⟨_, .epsilon .nil, Tree.Builder.addLeaf_eq ..⟩
  | fire a _ =>
      have htree : (s.fire a).tree = s.tree := by
        unfold State.fire
        split <;> rfl
      rw [htree]
      exact ⟨[], .skip (homit a) .nil, (Tree.Builder.addAll_nil _).symm⟩

/-- Inside of some node a parse adds trees that stem from its steps, with the tokens that it
matches at their leaves. -/
theorem Logs.grows (h : Logs t steps s E r) (hs : s.tree.path ≠ [])
    (hall : (∀ x, P x) ∨ Clean E ∧ r.1 = .proceed) :
    ∃ cs, Grows t P steps cs (tokensOf E) ∧ r.2.tree = s.tree.addAll cs := by
  induction h with
  | nil s => exact ⟨[], .nil, (Tree.Builder.addAll_nil _).symm⟩
  | cons _ _ ih ihr =>
      rw [clean_append] at hall
      obtain ⟨cs, hcs, htree⟩ := ih hs (hall.imp_right fun hc => ⟨hc.1.1, rfl⟩)
      obtain ⟨cs', hcs', htree'⟩ := ihr (by
        rw [htree]
        exact Tree.Builder.path_addAll_ne_nil hs) (hall.imp_right fun hc => ⟨hc.1.2, hc.2⟩)
      rw [htree, Tree.Builder.addAll_addAll] at htree'
      rw [tokensOf_append]
      exact ⟨cs ++ cs', hcs.append hcs', htree'⟩
  | halt rest _ ih =>
      rcases hall with hall | ⟨_, hr⟩
      · obtain ⟨cs, hcs, htree⟩ := ih hs (.inl hall)
        have hrest := hcs.append (.of_forall hall rest)
        rw [List.append_nil, List.append_nil] at hrest
        exact ⟨cs, hrest, htree⟩
      · cases hr
  | act h =>
      rw [tokensOf_append, State.tokensOf_news, List.append_nil]
      exact h.grows homit (hall.imp_right And.left)
  | @astray _ e s _ _ _ hsel =>
      have hselects := selects_of_select_eq hsel
      rw [State.tokensOf_news]
      rcases hall with hall | ⟨hc, _⟩
      · refine ⟨[], .of_forall hall _, ?_⟩
        rw [Tree.Builder.addAll_nil]
        exact hselects.tree_eq
      · obtain ⟨a, heq⟩ := hselects.of_clean hc
        cases heq
  | @chosen _ e a s s' r _ he hsel _ ih =>
      have hselects := selects_of_select_eq hsel
      rw [clean_append] at hall
      have ha : a ∈ e.alternatives := List.mem_of_find?_eq_some hselects.select?_eq
      obtain ⟨cs, hcs, htree⟩ := ih (by simp [State.enter, Tree.Builder.enter])
        (hall.imp_right fun hc => ⟨hc.1.2, hc.2⟩)
      have htree' : s'.tree = s.tree := hselects.tree_eq
      rw [tokensOf_append, State.tokensOf_news, List.nil_append]
      refine ⟨[.node e.name cs], .of_alternative he ha hcs, ?_⟩
      change r.2.tree.leaveAll 1 = _
      rw [htree, State.enter, htree', Tree.Builder.leaveAll_addAll_enter hs]

/-- Outside of all nodes the tree of a nonterminal becomes the whole tree.  There is none only
if something is out of place from the beginning. -/
theorem Logs.grows_outside {id : Nat} (h : Logs t [.expand id] s E r) (hs : s.tree = {})
    (hall : (∀ x, P x) ∨ Clean E ∧ r.1 = .proceed) :
    (∃ e cs, t.entries[id]? = some e ∧ r.2.tree.finish = some (.node e.name cs) ∧
        Grows t P [.expand id] [.node e.name cs] (tokensOf E)) ∨
      r.2.tree.finish = none ∧ ¬ Clean E := by
  rcases h.of_singleton with ⟨hact, _⟩ | ⟨id, e, hid, he, hcase⟩
  · cases hact
  · cases hid
    rcases hcase with ⟨flow, s', hsel, rfl, rfl⟩ | ⟨a, s', E, r, hsel, hbody, rfl, rfl⟩
    · have hselects := selects_of_select_eq hsel
      have htree : s'.tree = s.tree := hselects.tree_eq
      refine .inr ⟨by rw [htree, hs]; rfl, fun hc => ?_⟩
      obtain ⟨a, heq⟩ := hselects.of_clean hc
      cases heq
    · have hselects := selects_of_select_eq hsel
      have htree : s'.tree = s.tree := hselects.tree_eq
      have ha : a ∈ e.alternatives := List.mem_of_find?_eq_some hselects.select?_eq
      rw [clean_append] at hall
      obtain ⟨cs, hcs, hbuilt⟩ := hbody.grows homit (by simp [State.enter, Tree.Builder.enter])
        (hall.imp_right fun hc => ⟨hc.1.2, hc.2⟩)
      refine .inl ⟨e, cs, he, ?_, ?_⟩
      · change (r.2.tree.leaveAll 1).finish = _
        rw [hbuilt, State.enter, htree, hs]
        exact Tree.Builder.finish_leaveAll_addAll_enter rfl e.name
      · rw [tokensOf_append, State.tokensOf_news, List.nil_append]
        exact .of_alternative he ha hcs

end Grows

/-! ## Whole programs -/

variable {source : String} {o : Outcome}

/-- The derivation tree of a program stems from the start symbol, except that trees may be
missing in it, and the tokens at its leaves are those that are matched.  If nothing is out of
place and the program is not cut short, there is a tree, nothing is missing in it but actions,
and the tokens at its leaves are the first ones of the program, or all of them if the grammar
is anchored. -/
theorem run_grows (ht : Table.build g = .ok t) (hr : run t source = some o) :
    ∃ E, History t source E o ∧
      (∀ T, o.tree = some T → Grows t (fun _ => True) [.expand t.start] [T] (tokensOf E)) ∧
      ((∀ d ∈ o.report.toList, d.kind ≠ .semantic) → ¬ Scan.IsCut (Scan.ofSource source) →
        ∃ T, o.tree = some T ∧ T.label = g.start ∧
          Grows t Step.IsAction [.expand t.start] [T] (tokensOf E) ∧
          tokensOf E <+: (tokenize source).significant ∧
          (g.Anchored → tokensOf E = (tokenize source).significant)) := by
  obtain ⟨rfl, hpred⟩ := Table.build_eq_ok ht
  obtain ⟨E, hist⟩ := exists_history hr
  refine ⟨E, hist, ?_⟩
  have hreport := hist.report_eq
  have htakes := State.takes_ofSource source
  have hroot : (State.ofSource source).advance.2.tree = {} := State.tree_advance _
  cases hist with
  | cut ha =>
      rw [ha] at hroot htakes
      refine ⟨fun T hT => ?_, fun _ hcut => absurd (htakes.of_halt rfl).2 hcut⟩
      rw [State.outcome, hroot] at hT
      cases hT
  | @parsed s E r ha h =>
      rw [ha] at hroot htakes
      rw [tokensOf_append, State.tokensOf_news, List.nil_append]
      refine ⟨fun T hT => ?_, fun hsem hcut => ?_⟩
      · rcases h.grows_outside (P := fun _ => True) (fun _ => trivial) hroot
          (.inl fun _ => trivial) with ⟨e, cs, _, hfinish, hgrows⟩ | ⟨hfinish, _⟩
        · cases hfinish.symm.trans hT
          exact hgrows
        · cases hfinish.symm.trans hT
      · have hc : Clean E := by
          intro d hd
          apply hsem d
          rw [hreport, mem_reportOf]
          exact List.mem_append_right _ hd
        have htakes' := h.takes htakes.ordered hc
        have hflow : r.1 = .proceed := by
          cases hflow : r.1 with
          | proceed => rfl
          | halt =>
              have hcut' := (htakes'.of_halt hflow).2
              rw [htakes.isCut_iff rfl] at hcut'
              exact absurd hcut' hcut
        have hahead : s.ahead = (tokenize source).significant := htakes.ahead_eq.symm
        rcases h.grows_outside (P := Step.IsAction) (fun a => ⟨a, rfl⟩) hroot (.inr ⟨hc, hflow⟩) with
          ⟨e, cs, he, hfinish, hgrows⟩ | ⟨_, hnot⟩
        · refine ⟨_, hfinish, ?_, hgrows, ?_, fun hg => ?_⟩
          · rw [Table.start_compute,
              Table.getElem?_entries_compute g.start_mem_nonterminals] at he
            cases he
            rfl
          · rw [← hahead, htakes'.ahead_eq]
            exact List.prefix_append _ _
          · rw [← hahead]
            exact (h.sentence hg htakes.ordered hc hflow).1
        · exact absurd hc hnot

/-- A product over two lines. -/
theorem run_grows_product :
    ∃ o E T, run .tone "\"o\" *\n2;" = some o ∧ History .tone "\"o\" *\n2;" E o ∧
      o.tree = some T ∧ T.label = "Program" ∧
      Grows .tone Step.IsAction [.expand Table.tone.start] [T] (tokensOf E) ∧
      tokensOf E = (tokenize "\"o\" *\n2;").significant := by
  have hclean : (run .tone "\"o\" *\n2;").map (fun o => o.report.toList) = some [] := by
    decide +kernel
  obtain ⟨o, hrun, hreport⟩ := Option.map_eq_some_iff.1 hclean
  have hcut : ¬ Scan.IsCut (Scan.ofSource "\"o\" *\n2;") :=
    Scan.not_isCut_of_all_isPlain (by decide +kernel)
  obtain ⟨E, hist, _, hcomplete⟩ := run_grows Table.build_tone hrun
  obtain ⟨T, hT, hlabel, hgrows, _, hall⟩ :=
    hcomplete (by rw [hreport]; exact fun d hd => absurd hd List.not_mem_nil) hcut
  exact ⟨o, E, T, hrun, hist, hT, hlabel, hgrows, hall Grammar.anchored_tone⟩

end Parse

end ToneScript
