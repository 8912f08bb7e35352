import ToneScript.Proofs.Grammar.Sentences
import ToneScript.Proofs.Parse.Order
import ToneScript.Proofs.Parse.Recognition

/-!
# The first token out of place

A parser that sees one token ahead may go on for a while when that token is wrong: FOLLOW does
not know where a nonterminal stands, so that nonterminals are taken for empty and actions
performed before anything is found out of place.  No token is matched in the meantime.  What
a parse has matched while nothing was out of place is always the beginning of a sentence, and
as long as the tokens ahead go on as some sentence does, nothing is found out of place.  So it
is exactly the first token behind which no sentence goes on that is blamed.

The first half holds because every nonterminal that is left stands for some word.  The second
half is about what the parse has still to derive: the steps at hand and, behind them, a
continuation.  If both together derive what is ahead, then the production that the derivation
takes is the one that the look-ahead selects.

## Main definitions

* `Parse.Reads` — a history begins by matching some tokens, with nothing out of place.
* `Parse.FirstFault` — what is found out of place first, and after which tokens.

## Main statements

* `Parse.Logs.derives`, `Parse.Logs.exists_derives` — what has been matched is derived.
* `Parse.Logs.reads` — what can be derived is matched.
* `Parse.run_viable_prefix` — the first token out of place is the one that is blamed.
-/

namespace ToneScript.Parse

variable {g : Grammar} {t : Table} {p : Production} {u w K z : List Symbol} {y c : Symbol}
  {x : String} {steps : List Step} {s s' : State} {r : Flow × State} {k : Token}
  {ks ks' rest : List Token} {E E' E₁ E₂ : List Event} {d : Diagnostic}

/-! ## What is matched is derived -/

/-- A step that is in place matches its symbol. -/
theorem Acts.derives (h : Acts (Table.step g.nonterminals y) s r)
    (hc : Clean (s.deed (Table.step g.nonterminals y) ++ s.news r.2)) :
    g.Derives [y] (wordOf (s.deed (Table.step g.nonterminals y))) := by
  rw [clean_append] at hc
  cases y with
  | terminal a =>
      cases h with
      | consume _ _ =>
          rcases s.consume_cases a with ⟨k, _, rfl, hdeed, _⟩ | ⟨d, hd, _, _, heq⟩
          · change g.Derives _ (wordOf (s.deed (.consume _)))
            rw [hdeed]
            exact .input rfl .nil
          · rw [heq, State.news_push, clean_reported] at hc
            exact absurd hd hc.2
  | nonterminal x => cases h
  | action a => exact .skip rfl .nil
  | epsilon => exact .skip rfl .nil
  | endMark =>
      cases h with
      | expectEnd _ =>
          rcases s.expectEnd_cases with ⟨_, hdeed, _⟩ | ⟨d, hd, _, _, heq⟩
          · change g.Derives _ (wordOf (s.deed .expectEnd))
            rw [hdeed]
            exact .input rfl .nil
          · rw [heq, State.news_push, clean_reported] at hc
            exact absurd hd hc.2

/-- A parse that goes on with nothing out of place has matched a word. -/
theorem Logs.derives (h : Logs (.compute g) steps s E r)
    (hw : steps = w.map (Table.step g.nonterminals))
    (hx : ∀ x, .nonterminal x ∈ w → x ∈ g.nonterminals) (hc : Clean E) (hr : r.1 = .proceed) :
    g.Derives w (wordOf E) := by
  induction h generalizing w with
  | nil s =>
      cases List.map_eq_nil_iff.1 hw.symm
      exact .nil
  | cons _ _ ih ihr =>
      obtain ⟨y, w, rfl, rfl, rfl⟩ := List.map_eq_cons_iff.1 hw.symm
      rw [clean_append] at hc
      rw [wordOf_append]
      exact (ih (w := [y]) rfl (fun x hm => hx x (by simp_all)) hc.1 rfl).append
        (ihr rfl (fun x hm => hx x (List.mem_cons_of_mem y hm)) hc.2 hr)
  | halt _ _ _ => cases hr
  | act h =>
      obtain ⟨y, rfl, rfl⟩ := List.map_eq_singleton_iff.1 hw.symm
      rw [wordOf_append, State.wordOf_news, List.append_nil]
      exact h.derives hc
  | @astray id e s s' flow he hsel =>
      have hselects := selects_of_select_eq hsel
      obtain ⟨a, heq⟩ := hselects.of_clean hc
      cases heq
  | @chosen id e a s s' r E he hsel _ ih =>
      obtain ⟨x, _, rfl, rfl⟩ := Table.exists_entryOf hw hx he
      obtain ⟨p, hp, rfl, _, rfl⟩ := exists_production_of_select hsel
      rw [clean_append] at hc
      rw [wordOf_append, State.wordOf_news, List.nil_append]
      exact .of_nonterminal hp
        (ih rfl (fun x hm => Grammar.mem_nonterminals_of_mem_rhs hp hm) hc.2 hr)

/-- What has been matched while nothing was out of place can be carried on to a word. -/
theorem Logs.exists_derives (hprod : g.Productive) (h : Logs (.compute g) steps s E r)
    (hw : steps = w.map (Table.step g.nonterminals))
    (hx : ∀ x, .nonterminal x ∈ w → x ∈ g.nonterminals) (hE : E = E₁ ++ E₂) (hc : Clean E₁) :
    ∃ z, g.Derives w (wordOf E₁ ++ z) := by
  have hstart {w : List Symbol} {E : List Event}
      (hx : ∀ x, .nonterminal x ∈ w → x ∈ g.nonterminals) (hE : wordOf E = []) :
      ∃ z, g.Derives w (wordOf E ++ z) := by
    rw [hE]
    exact hprod.exists_derives hx
  induction h generalizing w E₁ E₂ with
  | nil s =>
      obtain ⟨rfl, rfl⟩ := List.append_eq_nil_iff.1 hE.symm
      exact hstart hx rfl
  | cons h _ ih ihr =>
      obtain ⟨y, w, rfl, rfl, rfl⟩ := List.map_eq_cons_iff.1 hw.symm
      have hy : ∀ x, .nonterminal x ∈ [y] → x ∈ g.nonterminals := fun x hm => hx x (by simp_all)
      have hx' : ∀ x, .nonterminal x ∈ w → x ∈ g.nonterminals :=
        fun x hm => hx x (List.mem_cons_of_mem y hm)
      rcases List.append_eq_append_iff.1 hE with ⟨E', rfl, hE'⟩ | ⟨E', hE', _⟩
      · rw [clean_append] at hc
        obtain ⟨z, hz⟩ := ihr rfl hx' hE' hc.2
        refine ⟨z, ?_⟩
        rw [wordOf_append, List.append_assoc]
        exact (h.derives (w := [y]) rfl hy hc.1 rfl).append hz
      · obtain ⟨z, hz⟩ := ih (w := [y]) rfl hy hE' hc
        obtain ⟨z', hz'⟩ := hprod.exists_derives hx'
        refine ⟨z ++ z', ?_⟩
        rw [← List.append_assoc]
        exact hz.append hz'
  | halt _ _ ih =>
      obtain ⟨y, w, rfl, rfl, rfl⟩ := List.map_eq_cons_iff.1 hw.symm
      obtain ⟨z, hz⟩ := ih (w := [y]) rfl (fun x hm => hx x (by simp_all)) hE hc
      obtain ⟨z', hz'⟩ := hprod.exists_derives fun x hm => hx x (List.mem_cons_of_mem y hm)
      refine ⟨z ++ z', ?_⟩
      rw [← List.append_assoc]
      exact hz.append hz'
  | act h =>
      obtain ⟨y, rfl, rfl⟩ := List.map_eq_singleton_iff.1 hw.symm
      rcases h.clean_or_fault with hall | ⟨d, hd, hk, _⟩
      · refine ⟨wordOf E₂, ?_⟩
        rw [← wordOf_append, ← hE, wordOf_append, State.wordOf_news, List.append_nil]
        exact h.derives hall
      · rw [hd] at hE
        rcases List.cons_eq_append_iff.1 hE with ⟨rfl, _⟩ | ⟨E', rfl, _⟩
        · exact hstart hx rfl
        · exact absurd hk (hc d List.mem_cons_self)
  | astray _ _ =>
      have hE' := congrArg wordOf hE
      rw [State.wordOf_news, wordOf_append] at hE'
      exact hstart hx (List.append_eq_nil_iff.1 hE'.symm).1
  | @chosen id e a s s' r E he hsel _ ih =>
      obtain ⟨x, _, rfl, rfl⟩ := Table.exists_entryOf hw hx he
      obtain ⟨p, hp, rfl, _, rfl⟩ := exists_production_of_select hsel
      rcases List.append_eq_append_iff.1 hE with ⟨E', rfl, hE'⟩ | ⟨E', hE', _⟩
      · rw [clean_append] at hc
        obtain ⟨z, hz⟩ := ih rfl (fun x hm => Grammar.mem_nonterminals_of_mem_rhs hp hm) hE' hc.2
        refine ⟨z, ?_⟩
        rw [wordOf_append, State.wordOf_news, List.nil_append]
        exact .of_nonterminal hp hz
      · have hE'' := congrArg wordOf hE'
        rw [State.wordOf_news, wordOf_append] at hE''
        exact hstart hx (List.append_eq_nil_iff.1 hE''.symm).1

/-! ## What can be derived is matched -/

/-- The history begins by matching the tokens, and nothing is out of place until then. -/
def Reads (E : List Event) (ks : List Token) : Prop :=
  ∃ E₁ E₂, E = E₁ ++ E₂ ∧ Clean E₁ ∧ tokensOf E₁ = ks

namespace Reads

theorem of_clean (hc : Clean E) : Reads E (tokensOf E) :=
  ⟨E, [], (List.append_nil E).symm, hc, rfl⟩

theorem append_right (h : Reads E ks) (E' : List Event) : Reads (E ++ E') ks := by
  obtain ⟨E₁, E₂, rfl, hc, hk⟩ := h
  exact ⟨E₁, E₂ ++ E', List.append_assoc .., hc, hk⟩

theorem append_left (hc : Clean E) (h : Reads E' ks) : Reads (E ++ E') (tokensOf E ++ ks) := by
  obtain ⟨E₁, E₂, rfl, hc', rfl⟩ := h
  exact ⟨E ++ E₁, E₂, (List.append_assoc ..).symm, clean_append.2 ⟨hc, hc'⟩, tokensOf_append ..⟩

/-- What is out of place first comes behind those tokens. -/
theorem of_blames (h : Reads E ks) (hb : Blames E E₁ d) : ∃ ks', tokensOf E₁ = ks ++ ks' := by
  obtain ⟨E₂, E₃, rfl, hc, rfl⟩ := h
  obtain ⟨E', rfl⟩ := hb.exists_append hc
  exact ⟨tokensOf E', tokensOf_append ..⟩

end Reads

/-- What the grammar calls the tokens. -/
def spelling (ks : List Token) : List Symbol := (ks.map Token.terminal).map .terminal

/-- A step that derives what is ahead is in place. -/
theorem Acts.clean_of_derives (h : Acts (Table.step g.nonterminals y) s r)
    (hd : g.Derives (y :: K) (.terminal k.terminal :: z)) (hc : s.current = some k) :
    Clean (s.deed (Table.step g.nonterminals y) ++ s.news r.2) := by
  refine h.clean_or_fault.resolve_right ?_
  rintro ⟨d, hfault, hk, _⟩
  cases y with
  | terminal a =>
      cases hd with
      | input _ _ => simp [Table.step, State.deed, hc] at hfault
      | skip hx _ => cases hx
  | nonterminal x => cases h
  | action a => simp [Table.step, State.deed] at hfault
  | epsilon =>
      cases h with
      | empty _ =>
          have hnews : s.news s.deriveEmpty = [] := State.news_eq_nil rfl
          rw [hnews] at hfault
          cases hfault
  | endMark =>
      cases hd with
      | skip hx _ => cases hx

/-- What a step leaves to be derived. -/
theorem Acts.derives_rest (h : Acts (Table.step g.nonterminals y) s r)
    (hd : g.Derives (y :: K) (spelling ks ++ z)) (hc : s.current = ks.head?) (hks : ks ≠ []) :
    ∃ ks', ks = tokensOf (s.deed (Table.step g.nonterminals y)) ++ ks' ∧
      g.Derives K (spelling ks' ++ z) := by
  obtain ⟨k, ks, rfl⟩ := List.exists_cons_of_ne_nil hks
  cases y with
  | terminal a =>
      cases hd with
      | input _ hd =>
          refine ⟨ks, ?_, hd⟩
          simp [Table.step, State.deed, hc, tokensOf, Event.token?]
      | skip hx _ => cases hx
  | nonterminal x => cases h
  | action a =>
      cases hd with
      | skip _ hd => exact ⟨k :: ks, rfl, hd⟩
  | epsilon =>
      cases hd with
      | skip _ hd => exact ⟨k :: ks, rfl, hd⟩
  | endMark =>
      cases hd with
      | skip hx _ => cases hx

/-- The production that derives what is ahead is selected. -/
theorem exists_select_of_derives (hpred : g.Predictive) (hc : s.current = some k)
    (hform : g.Rewrites [.nonterminal g.start] (u ++ .nonterminal x :: visible K))
    (hd : g.Derives (.nonterminal x :: K) (.terminal k.terminal :: z)) :
    ∃ p ∈ g.productions, p.lhs = x ∧
      s.select (Table.entryOf g x) = (.ok (Table.alternativeOf g p), s) ∧
      g.Derives (p.rhs ++ K) (.terminal k.terminal :: z) := by
  have hfollow := Grammar.followClosed_followSets g g.firstSets
  have hlook : s.lookahead.symbol? = some (.terminal k.terminal) := by
    rw [State.lookahead, hc]
    rfl
  have hbegins {w z : List Symbol} (h : g.Derives w (.terminal k.terminal :: z)) :
      g.Shows w s.lookahead :=
    (Grammar.shows_iff_exists_rewrites hlook).2 ⟨z, h.rewrites⟩
  generalize hz : Symbol.terminal k.terminal :: z = z' at hd
  cases hd with
  | input hx _ => cases hx
  | skip hx _ => cases hx
  | @expand p _ y z₂ hp hr hK =>
      have hmem : s.lookahead ∈ g.predict p := by
        rw [Grammar.predict_eq, Grammar.mem_followedBy_firstOf]
        cases y with
        | cons c y =>
            cases hz
            exact .inl ⟨hbegins hr, s.lookahead_ne_empty⟩
        | nil =>
            -- the nonterminal vanishes, and the continuation begins with what is ahead
            rw [List.nil_append] at hz
            subst hz
            refine .inr ⟨hr, hfollow.subset_of_rewrites hform _ ?_⟩
            rw [Grammar.mem_followedBy_firstOf]
            refine .inl ⟨?_, s.lookahead_ne_empty⟩
            rw [Grammar.shows_iff_exists_rewrites hlook]
            have hvis : visible (visible K) = visible K := by simp [visible]
            exact ⟨z, by rw [hvis]; exact hK.rewrites⟩
      have hsel := (Selects.chosen (Table.select?_entryOf hpred hp hmem)).eq
      exact ⟨p, hp, rfl, hsel, hr.append hK⟩

/-- If the steps and what comes behind them derive the tokens ahead, the parse reads them, with
nothing out of place; or else it goes on, having read some of them, and what comes behind the
steps derives the others. -/
theorem Logs.reads (hpred : g.Predictive) (h : Logs (.compute g) steps s E r)
    (hw : steps = w.map (Table.step g.nonterminals))
    (hx : ∀ x, .nonterminal x ∈ w → x ∈ g.nonterminals) (hs : s.Ordered)
    (hform : g.Rewrites [.nonterminal g.start] (u ++ visible (w ++ K)))
    (hd : g.Derives (w ++ K) (spelling ks ++ z)) (hks : ks ≠ []) (ha : s.ahead = ks ++ rest) :
    Reads E ks ∨ Clean E ∧ r.1 = .proceed ∧
      ∃ ks', ks' ≠ [] ∧ ks = tokensOf E ++ ks' ∧ g.Derives K (spelling ks' ++ z) := by
  induction h generalizing w K u ks with
  | nil s =>
      cases List.map_eq_nil_iff.1 hw.symm
      exact .inr ⟨clean_nil, rfl, ks, hks, rfl, hd⟩
  | @cons _ _ _ _ _ E _ h _ ih ihr =>
      obtain ⟨y, w, rfl, rfl, rfl⟩ := List.map_eq_cons_iff.1 hw.symm
      have hy : ∀ x, .nonterminal x ∈ [y] → x ∈ g.nonterminals := fun x hm => hx x (by simp_all)
      rcases ih (w := [y]) (K := w ++ K) rfl hy hs hform hd hks ha with
        hreads | ⟨hc, _, ks', hks', rfl, hd'⟩
      · exact .inl (hreads.append_right _)
      · have htakes := h.takes hs hc
        have hahead := htakes.ahead_eq
        rw [ha, List.append_assoc, List.append_cancel_left_eq] at hahead
        have hmatched := (h.derives (w := [y]) rfl hy hc rfl).rewrites
        have hform' : g.Rewrites [.nonterminal g.start] ((u ++ wordOf E) ++ visible (w ++ K)) := by
          have hstep := hmatched.append_both u (visible (w ++ K))
          rw [List.append_assoc, ← visible_append] at hstep
          exact hform.trans hstep
        rcases ihr rfl (fun x hm => hx x (List.mem_cons_of_mem y hm)) htakes.ordered hform' hd' hks'
          hahead.symm with hreads | ⟨hc', hr, ks'', hks'', rfl, hd''⟩
        · exact .inl (hreads.append_left hc)
        · refine .inr ⟨clean_append.2 ⟨hc, hc'⟩, hr, ks'', hks'', ?_, hd''⟩
          rw [tokensOf_append, List.append_assoc]
  | halt _ h ih =>
      obtain ⟨y, w, rfl, rfl, rfl⟩ := List.map_eq_cons_iff.1 hw.symm
      rcases ih (w := [y]) (K := w ++ K) rfl (fun x hm => hx x (by simp_all)) hs hform hd hks ha with
        hreads | ⟨_, hr, _⟩
      · exact .inl hreads
      · cases hr
  | @act _ s r h =>
      obtain ⟨y, rfl, rfl⟩ := List.map_eq_singleton_iff.1 hw.symm
      obtain ⟨k, ks₁, rfl⟩ := List.exists_cons_of_ne_nil hks
      have hc := State.current_eq_of_ahead hs.pending_eq_nil ha
      have hclean := h.clean_of_derives hd hc
      obtain ⟨ks', heq, hd'⟩ := h.derives_rest hd hc hks
      have htokens : tokensOf (s.deed (Table.step g.nonterminals y) ++ s.news r.2) =
          tokensOf (s.deed (Table.step g.nonterminals y)) := by simp
      by_cases hks' : ks' = []
      · left
        rw [heq, hks', List.append_nil, ← htokens]
        exact .of_clean hclean
      · refine .inr ⟨hclean, ?_, ks', hks', by rw [htokens]; exact heq, hd'⟩
        -- with tokens left the parse cannot be over
        have htakes := h.takes hs
        cases hflow : r.1 with
        | proceed => rfl
        | halt =>
            have hahead := htakes.ahead_eq
            rw [ha, heq, (htakes.of_halt hflow).1, List.append_assoc,
              List.append_cancel_left_eq] at hahead
            exact absurd (List.append_eq_nil_iff.1 hahead).1 hks'
  | @astray id e s s' flow he hsel =>
      obtain ⟨x, _, rfl, rfl⟩ := Table.exists_entryOf hw hx he
      obtain ⟨k, ks, rfl⟩ := List.exists_cons_of_ne_nil hks
      have hc := State.current_eq_of_ahead hs.pending_eq_nil ha
      obtain ⟨p, _, _, heq, _⟩ := exists_select_of_derives hpred hc hform hd
      rw [heq] at hsel
      cases hsel
  | @chosen id e a s s' r E he hsel h ih =>
      obtain ⟨x, _, rfl, rfl⟩ := Table.exists_entryOf hw hx he
      obtain ⟨k, ks₁, rfl⟩ := List.exists_cons_of_ne_nil hks
      have hc := State.current_eq_of_ahead hs.pending_eq_nil ha
      obtain ⟨p, hp, rfl, heq, hd'⟩ := exists_select_of_derives hpred hc hform hd
      rw [heq] at hsel
      cases hsel
      have hform' : g.Rewrites [.nonterminal g.start] (u ++ visible (p.rhs ++ K)) := by
        have hstep := (Grammar.rewrites_nonterminal hp).append_both u (visible K)
        rw [List.append_assoc] at hstep
        rw [visible_append, ← List.append_assoc]
        exact hform.trans hstep
      rw [State.news_eq_nil rfl, List.nil_append]
      exact ih rfl (fun x hm => Grammar.mem_nonterminals_of_mem_rhs hp hm)
        ⟨hs.orderly, hs.pending_eq_nil⟩ hform' hd' hks ha

/-! ## Whole programs -/

variable {source : String} {o : Outcome}

theorem terminalsOf_wordOf (E : List Event) :
    terminalsOf (wordOf E) = (tokensOf E).map Token.terminal := by
  have hevent : ∀ v : Event, v.symbol?.bind Symbol.terminal? = v.token?.map Token.terminal := by
    intro v
    cases v <;> rfl
  simp [terminalsOf, wordOf, tokensOf, List.filterMap_filterMap, List.map_filterMap, hevent]

/-- When the end of the program has been matched, there is no token any more. -/
theorem Logs.current_eq_none (h : Logs t steps s E r) (he : .endMark ∈ wordOf E) :
    r.2.current = none := by
  induction h with
  | nil s => cases he
  | cons _ hr ih ihr =>
      rw [wordOf_append, List.mem_append] at he
      rcases he with he | he
      · exact hr.runs.respects respected_current_eq_none (ih he)
      · exact ihr he
  | halt _ _ ih => exact ih he
  | @act _ s _ h =>
      rw [wordOf_append, State.wordOf_news, List.append_nil] at he
      cases h with
      | consume x _ =>
          rcases s.consume_cases x with ⟨k, _, _, hdeed, _⟩ | ⟨d, _, _, hdeed, _⟩
          · rw [hdeed] at he
            simp [wordOf, Event.symbol?] at he
          · rw [hdeed] at he
            cases he
      | expectEnd _ =>
          rcases s.expectEnd_cases with ⟨hc, _, heq⟩ | ⟨d, _, _, hdeed, _⟩
          · rw [heq]
            exact hc
          · rw [hdeed] at he
            cases he
      | empty _ => cases he
      | fire a _ => cases he
  | astray _ _ => simp at he
  | chosen _ _ _ ih =>
      rw [wordOf_append, State.wordOf_news, List.nil_append] at he
      exact ih he

/-- As long as the tokens ahead are viable, they are matched before anything is blamed. -/
theorem Logs.exists_append_of_viable
    (h : Logs (.compute g) [.expand (Table.compute g).start] s E r) (hs : s.Ordered)
    (hpred : g.Predictive) (hb : Blames E E₁ d) (ha : s.ahead = ks ++ rest)
    (hv : g.Viable (ks.map Token.terminal)) :
    ∃ ks', tokensOf E₁ = ks ++ ks' := by
  by_cases hks : ks = []
  · exact ⟨tokensOf E₁, by rw [hks, List.nil_append]⟩
  · obtain ⟨z, hz⟩ := hv.exists_derives
    rcases h.reads hpred (w := [.nonterminal g.start]) (K := []) (u := []) rfl
      (by simp [g.start_mem_nonterminals]) hs .refl hz hks ha with hreads | ⟨_, _, ks', hks', _, hd⟩
    · exact hreads.of_blames hb
    · obtain ⟨k, ks', rfl⟩ := List.exists_cons_of_ne_nil hks'
      cases hd

section Start

variable (hg : g.Anchored) (hprod : g.Productive)
  (h : Logs (.compute g) [.expand (Table.compute g).start] s E r)

include hg h

/-- A parse that goes on with nothing out of place has matched a sentence, and nothing is left
behind it. -/
theorem Logs.sentence (hs : s.Ordered) (hc : Clean E) (hr : r.1 = .proceed) :
    tokensOf E = s.ahead ∧ g.Sentence ((tokensOf E).map Token.terminal) := by
  have hd := h.derives (w := [.nonterminal g.start]) rfl (by simp [g.start_mem_nonterminals]) hc hr
  have hend : .endMark ∈ wordOf E := by
    rw [hg.derives_start hd]
    simp
  have htakes := h.takes hs hc
  have hahead := htakes.ahead_eq
  rw [State.ahead_of_current_eq_none htakes.ordered.pending_eq_nil (h.current_eq_none hend),
    List.append_nil] at hahead
  rw [← terminalsOf_wordOf]
  exact ⟨hahead.symm, hg.sentence_of_derives hd⟩

include hprod

/-- What has been matched while nothing was out of place is the beginning of a sentence. -/
theorem Logs.viable (hE : E = E₁ ++ E₂) (hc : Clean E₁) :
    g.Viable ((tokensOf E₁).map Token.terminal) := by
  obtain ⟨z, hz⟩ := h.exists_derives hprod (w := [.nonterminal g.start]) rfl
    (by simp [g.start_mem_nonterminals]) hE hc
  have hsentence := hg.sentence_of_derives hz
  rw [terminalsOf_append, terminalsOf_wordOf] at hsentence
  exact ⟨_, hsentence⟩

/-- If nothing is out of place at all, the tokens ahead are viable, and a sentence unless the
program is cut short. -/
theorem Logs.viable_of_clean (hs : s.Ordered) (hc : Clean E) :
    g.Viable (s.ahead.map Token.terminal) ∧
      (¬ Scan.IsCut s.pending → g.Sentence (s.ahead.map Token.terminal)) := by
  have htakes := h.takes hs hc
  cases hr : r.1 with
  | proceed =>
      obtain ⟨hahead, hsentence⟩ := h.sentence hg hs hc hr
      rw [hahead] at hsentence
      exact ⟨hsentence.viable, fun _ => hsentence⟩
  | halt =>
      obtain ⟨hnil, hcut⟩ := htakes.of_halt hr
      have hahead := htakes.ahead_eq
      rw [hnil, List.append_nil] at hahead
      rw [hahead]
      exact ⟨h.viable hg hprod (List.append_nil E).symm hc, fun hn => absurd hcut hn⟩

/-- Where the tokens ahead are viable only up to some token, that one is blamed, or the end of
the program if they all are viable. -/
theorem Logs.blames_next (hs : s.Ordered) (hpred : g.Predictive) (hb : Blames E E₁ d)
    (ha : s.ahead = ks ++ rest) (hv : g.Viable (ks.map Token.terminal))
    (hstop : ∀ k ∈ rest.head?, ¬ g.Viable ((ks ++ [k]).map Token.terminal)) :
    tokensOf E₁ = ks ∧ d.line = (rest.head?.map Token.line).getD s.lastLine ∧
      (rest = [] → ¬ Scan.IsCut s.pending) := by
  obtain ⟨ks', hks'⟩ := h.exists_append_of_viable hs hpred hb ha hv
  obtain ⟨m, htakes, hline⟩ := h.exists_takes_of_blames hs hb
  have hrest : rest = ks' ++ m.ahead := by
    have hahead := htakes.ahead_eq
    rwa [ha, hks', List.append_assoc, List.append_cancel_left_eq] at hahead
  obtain ⟨E₂, hE, hc, _⟩ := hb
  have hviable := h.viable hg hprod hE hc
  cases ks' with
  | cons k ks' =>
      rw [hks', List.append_cons, List.map_append] at hviable
      exact absurd hviable.of_append (hstop k (by rw [hrest]; rfl))
  | nil =>
      rw [List.append_nil] at hks'
      rw [List.nil_append] at hrest
      refine ⟨hks', ?_, ?_⟩
      · rw [hline, htakes.ordered.line_eq, htakes.lastLine_eq, hrest]
      · intro hnil
        rw [hrest] at hnil
        rw [← htakes.isCut_iff rfl]
        exact htakes.ordered.not_isCut (State.current_eq_none_of_ahead hnil)

end Start

/-- The first thing that is found out of place is so on this line, after exactly these tokens
have been matched. -/
def FirstFault (E : List Event) (o : Outcome) (ks : List Token) (line : Nat) : Prop :=
  ∃ E₁ d, Blames E E₁ d ∧ o.report.toList.find? (·.kind = .semantic) = some d ∧
    tokensOf E₁ = ks ∧ d.line = line

/-- Either nothing is out of place, and then the tokens are viable, and a sentence unless the
program is cut short; or the first token is blamed behind which no sentence goes on, or the
end of a program that is not cut short. -/
theorem exists_history_of_productive (hpred : g.Predictive) (hg : g.Anchored)
    (hprod : g.Productive) (source : String) :
    ∃ o E, History (.compute g) source E o ∧
      (Clean E ∧ g.Viable ((tokenize source).significant.map Token.terminal) ∧
          (¬ Scan.IsCut (Scan.ofSource source) →
            g.Sentence ((tokenize source).significant.map Token.terminal)) ∨
        ∀ ks rest, (tokenize source).significant = ks ++ rest →
          g.Viable (ks.map Token.terminal) →
          (∀ k ∈ rest.head?, ¬ g.Viable ((ks ++ [k]).map Token.terminal)) →
          FirstFault E o ks ((rest.head?.map Token.line).getD (endLine source)) ∧
            (rest = [] → ¬ Scan.IsCut (Scan.ofSource source))) := by
  have htakes := State.takes_ofSource source
  have hclean : Clean ((State.ofSource source).news (State.ofSource source).advance.2) :=
    State.clean_news_advance rfl
  rcases ha : (State.ofSource source).advance with ⟨flow | flow, s⟩
  · rw [ha] at htakes hclean
    have hahead : s.ahead = (tokenize source).significant := htakes.ahead_eq.symm
    obtain ⟨r, hr⟩ := exists_runs_start hpred hg s
    obtain ⟨E, h⟩ := hr.exists_logs
    have hist := History.parsed ha h
    refine ⟨_, _, hist, ?_⟩
    rcases clean_or_blames E with hc | ⟨E₁, d, hb⟩
    · obtain ⟨hviable, hsentence⟩ := h.viable_of_clean hg hprod htakes.ordered hc
      rw [htakes.isCut_iff rfl] at hsentence
      rw [← hahead]
      exact .inl ⟨clean_append.2 ⟨hclean, hc⟩, hviable, hsentence⟩
    · refine .inr fun ks rest hks hv hstop => ?_
      obtain ⟨htokens, hline, hcut⟩ := h.blames_next hg hprod htakes.ordered hpred hb
        (hahead.trans hks) hv hstop
      rw [htakes.lastLine_eq] at hline
      rw [htakes.isCut_iff rfl] at hcut
      have hb' := hb.append_left hclean
      refine ⟨⟨_, d, hb', ?_, ?_, hline⟩, hcut⟩
      · rw [hist.report_eq]
        exact hb'.find?_reportOf
      · rw [tokensOf_append, State.tokensOf_news, List.nil_append, htokens]
  · rw [ha] at htakes hclean
    obtain ⟨hnil, hcut⟩ := htakes.of_halt rfl
    have hnone : (tokenize source).significant = [] := htakes.ahead_eq.trans hnil
    rw [hnone]
    exact ⟨_, _, .cut ha, .inl ⟨hclean, hprod.viable_nil hg, fun hn => absurd hcut hn⟩⟩

/-- The parser blames the first token behind which no sentence goes on.  If there is such a
token, then the first thing found out of place is so on its line, after the tokens before it
have been matched.  If there is none, and the program is neither cut short nor a sentence, the
first thing found out of place is so at the end of the program, after all tokens have been
matched.  And if there is none and the program is cut short, nothing is out of place. -/
theorem run_viable_prefix (ht : Table.build g = .ok t) (hg : g.Anchored) (hprod : g.Productive)
    (source : String) :
    ∃ o E, run t source = some o ∧ History t source E o ∧
      (∀ n k, (tokenize source).significant[n]? = some k →
        ¬ g.Viable (((tokenize source).significant.take (n + 1)).map Token.terminal) →
        (∀ m < n, g.Viable (((tokenize source).significant.take (m + 1)).map Token.terminal)) →
        FirstFault E o ((tokenize source).significant.take n) k.line) ∧
      ((∀ m < (tokenize source).significant.length,
          g.Viable (((tokenize source).significant.take (m + 1)).map Token.terminal)) →
        (¬ Scan.IsCut (Scan.ofSource source) →
          ¬ g.Sentence ((tokenize source).significant.map Token.terminal) →
          FirstFault E o (tokenize source).significant (endLine source)) ∧
        (Scan.IsCut (Scan.ofSource source) → ∀ d ∈ o.report.toList, d.kind ≠ .semantic)) := by
  obtain ⟨rfl, hpred⟩ := Table.build_eq_ok ht
  obtain ⟨o, E, hist, hE⟩ := exists_history_of_productive hpred hg hprod source
  refine ⟨o, E, hist.run_eq, hist, ?_, ?_⟩
  · intro n k hk hnot hv
    rcases hE with ⟨_, hviable, _⟩ | hblame
    · rw [← List.take_append_drop (n + 1) (tokenize source).significant, List.map_append] at hviable
      exact absurd hviable.of_append hnot
    · have hdrop := List.drop_eq_getElem?_toList_append (l := (tokenize source).significant) (i := n)
      have hsplit := (List.take_append_drop n (tokenize source).significant).symm
      rw [List.take_add_one, hk] at hnot
      rw [hdrop, hk] at hsplit
      exact (hblame _ _ hsplit (hprod.viable_take hg hv) (by rintro k ⟨⟩; exact hnot)).1
  · intro hv
    have hall := hprod.viable_take hg hv
    rw [List.take_length] at hall
    rcases hE with ⟨hc, _, hsentence⟩ | hblame
    · refine ⟨fun hcut hnot => absurd (hsentence hcut) hnot, fun _ d hd => ?_⟩
      rw [hist.report_eq, mem_reportOf] at hd
      exact hc d hd
    · obtain ⟨hfault, hcut⟩ := hblame _ [] (List.append_nil _).symm hall (by simp)
      exact ⟨fun _ _ => hfault, fun h => absurd h (hcut rfl)⟩

/-- A parenthesis on the second line that closes none: no program begins so. -/
theorem run_viable_prefix_unopened :
    Table.build .tone = .ok .tone ∧ Grammar.tone.Anchored ∧ Grammar.tone.Productive ∧
      ¬ Grammar.tone.Viable [")"] ∧ ∃ o E, run .tone "\n);" = some o ∧
        History .tone "\n);" E o ∧ FirstFault E o [] 2 := by
  have hnot : ¬ Grammar.tone.Viable [")"] := by
    rintro ⟨y, h⟩
    have hbegins : Grammar.tone.Begins (.terminal ")") [.nonterminal "Program"] :=
      (Grammar.exists_rewrites_cons_iff (w := [.nonterminal "Program"]) rfl).1 ⟨_, h⟩
    have hfirst : .terminal ")" ∈ firstOf Grammar.tone.firstSets [.nonterminal "Program"] :=
      Grammar.mem_firstOf_firstSets.2 hbegins
    exact absurd hfirst (by decide +kernel)
  have htokens : (tokenize "\n);").significant = [⟨.symbol, ")", 2⟩, ⟨.symbol, ";", 2⟩] := by
    decide +kernel
  obtain ⟨o, E, hrun, hist, hfault, _⟩ := run_viable_prefix Table.build_tone Grammar.anchored_tone
    Grammar.productive_tone "\n);"
  rw [htokens] at hfault
  refine ⟨Table.build_tone, Grammar.anchored_tone, Grammar.productive_tone, hnot, o, E, hrun, hist, ?_⟩
  exact hfault 0 _ rfl hnot (fun m hm => absurd hm (Nat.not_lt_zero m))

end ToneScript.Parse
