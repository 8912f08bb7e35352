import ToneScript.Proofs.Lookahead.Follow
import ToneScript.Proofs.Table.Predictive
import ToneScript.Proofs.Grammar.Anchored
import ToneScript.Proofs.Parse.Ahead

/-!
# Parses without recovery

A walk takes the symbols of a sequence one after the other, and for every nonterminal the
right-hand side of any of its productions; there is no look-ahead and no recovery.  A walk
is what a parse ought to be: the tokens that it takes are a word of the sequence, and
every word can be walked along.

The table of a predictive grammar makes the parser find the walks.  What a walk does not
decide by itself, which production to take, is decided by the look-ahead, because what
follows the walk is in FOLLOW of the nonterminal whose production it goes through.

## Main definitions

* `Parse.Walks` — walks along a sequence of symbols.

## Main statements

* `Parse.Walks.runs` — the parser takes the walk that there is.
* `Parse.Runs.walks` — a parse that has found nothing out of place is a walk.
* `Parse.exists_walks` — every word is walked along.
* `Parse.exists_walks_of_vanishes` — so is the empty one, from every state.
-/

namespace ToneScript.Parse

variable {g : Grammar} {p : Production} {u v w z : List Symbol} {s s' s₁ s₂ : State}
  {k : Token} {ks rest : List Token} {r : Flow × State}

/-- From the first state to the second one a parse goes through a sequence of symbols,
with everything in its place. -/
inductive Walks (g : Grammar) : List Symbol → State → State → Prop
  /-- There is nothing to go through. -/
  | nil (s : State) : Walks g [] s s
  /-- A token is matched. -/
  | terminal {w : List Symbol} {k : Token} {s s' s'' : State} (hc : s.current = some k)
      (ha : s.consume k.terminal = (.proceed, s')) (h : Walks g w s' s'') :
      Walks g (.terminal k.terminal :: w) s s''
  /-- The end of the program is matched. -/
  | endMark {w : List Symbol} {s s' : State} (hc : s.current = none)
      (h : Walks g w s.expectEnd s') : Walks g (.endMark :: w) s s'
  /-- The empty sequence is matched. -/
  | epsilon {w : List Symbol} {s s' : State} (h : Walks g w s.deriveEmpty s') :
      Walks g (.epsilon :: w) s s'
  /-- An action is performed. -/
  | action {w : List Symbol} {s s' : State} (a : Action) (h : Walks g w (s.fire a) s') :
      Walks g (.action a :: w) s s'
  /-- A nonterminal is derived by one of its productions. -/
  | nonterminal {p : Production} {w : List Symbol} {s s₁ s₂ : State} (hp : p ∈ g.productions)
      (hr : Walks g p.rhs (s.enter p.lhs) s₁) (h : Walks g w (s₁.leaveAll 1) s₂) :
      Walks g (.nonterminal p.lhs :: w) s s₂

namespace Walks

theorem append (hu : Walks g u s s₁) (hv : Walks g v s₁ s₂) : Walks g (u ++ v) s s₂ := by
  induction hu with
  | nil s => exact hv
  | terminal hc ha _ ih => exact terminal hc ha (ih hv)
  | endMark hc _ ih => exact endMark hc (ih hv)
  | epsilon _ ih => exact epsilon (ih hv)
  | action a _ ih => exact action a (ih hv)
  | nonterminal hp hr _ _ ih => exact nonterminal hp hr (ih hv)

theorem split (h : Walks g (u ++ v) s s₂) : ∃ s₁, Walks g u s s₁ ∧ Walks g v s₁ s₂ := by
  induction u generalizing s with
  | nil => exact ⟨s, nil s, h⟩
  | cons x u ih =>
      rw [List.cons_append] at h
      cases h with
      | terminal hc ha h =>
          obtain ⟨s₁, h₁, h₂⟩ := ih h
          exact ⟨s₁, terminal hc ha h₁, h₂⟩
      | endMark hc h =>
          obtain ⟨s₁, h₁, h₂⟩ := ih h
          exact ⟨s₁, endMark hc h₁, h₂⟩
      | epsilon h =>
          obtain ⟨s₁, h₁, h₂⟩ := ih h
          exact ⟨s₁, epsilon h₁, h₂⟩
      | action a h =>
          obtain ⟨s₁, h₁, h₂⟩ := ih h
          exact ⟨s₁, action a h₁, h₂⟩
      | nonterminal hp hr h =>
          obtain ⟨s₁, h₁, h₂⟩ := ih h
          exact ⟨s₁, nonterminal hp hr h₁, h₂⟩

/-! ## Look-aheads -/

/-- A walk begins with the look-ahead, or it stays where it is. -/
theorem shows_or_vanishes (h : Walks g w s s') :
    g.Shows w s.lookahead ∨ g.Derives w [] ∧ s.SamePlace s' := by
  induction h with
  | nil s => exact .inr ⟨.nil, rfl, rfl⟩
  | @terminal w k s _ _ hc _ _ _ =>
      rw [State.lookahead, hc]
      exact .inl (.here w)
  | @endMark w s _ hc _ _ =>
      rw [State.lookahead, hc]
      exact .inl (.here w)
  | epsilon _ ih =>
      refine ih.imp (Grammar.Shows.skip rfl) ?_
      rintro ⟨hd, hs⟩
      exact ⟨.skip rfl hd, hs⟩
  | @action w s _ a _ ih =>
      have hplace := State.samePlace_fire s a
      rw [hplace.lookahead_eq] at ih
      refine ih.imp (Grammar.Shows.skip rfl) ?_
      rintro ⟨hd, hs⟩
      exact ⟨.skip rfl hd, hplace.trans hs⟩
  | @nonterminal p w s s₁ s₂ hp _ _ ihr ih =>
      rcases ihr with hshow | ⟨hd, hs⟩
      · exact .inl ((Grammar.Shows.of_production hp hshow).append_right s.lookahead_ne_empty w)
      · have hplace : s.SamePlace (s₁.leaveAll 1) := hs
        rw [hplace.lookahead_eq] at ih
        have hx := Grammar.Derives.of_nonterminal hp hd
        refine ih.imp (Grammar.Shows.append_left hx) ?_
        rintro ⟨hd', hs'⟩
        exact ⟨.expand hp hd hd', hplace.trans hs'⟩

/-- Before a walk that ends before one of `L`, the look-ahead is what the walk begins with,
or what `L` holds. -/
theorem lookahead_mem {L : LookaheadSet} (h : Walks g w s s') (hl : s'.lookahead ∈ L) :
    s.lookahead ∈ (firstOf g.firstSets w).followedBy L := by
  rw [Grammar.mem_followedBy_firstOf]
  rcases h.shows_or_vanishes with hshow | ⟨hd, hs⟩
  · exact .inl ⟨hshow, s.lookahead_ne_empty⟩
  · rw [hs.lookahead_eq] at hl
    exact .inr ⟨hd, hl⟩

/-! ## The parser takes the walk that there is -/

/-- The production that a walk takes is the one that is selected. -/
theorem select_eq (hg : g.Predictive) (hp : p ∈ g.productions)
    (h : Walks g p.rhs (s.enter p.lhs) s') (hl : s'.lookahead ∈ g.follow p.lhs) :
    s.select (Table.entryOf g p.lhs) = (.ok (Table.alternativeOf g p), s) := by
  have hmem : s.lookahead ∈ g.predict p := h.lookahead_mem hl
  exact (Selects.chosen (Table.select?_entryOf hg hp hmem)).eq

theorem runs_nonterminal (hg : g.Predictive) (hp : p ∈ g.productions)
    (h : Walks g p.rhs (s.enter p.lhs) s') (hl : s'.lookahead ∈ g.follow p.lhs)
    (hr : Runs (.compute g) (p.rhs.map (Table.step g.nonterminals)) (s.enter p.lhs)
      (.proceed, s')) :
    Runs (.compute g) [.expand (g.nonterminals.idxOf p.lhs)] s (.proceed, s'.leaveAll 1) :=
  .chosen (Table.getElem?_entries_compute (Grammar.mem_nonterminals.2 ⟨p, hp, rfl⟩))
    (select_eq hg hp h hl) hr

/-- Along the rest of a right-hand side, the parser takes the walk that ends before
something that can follow. -/
theorem runs (hg : g.Predictive) (h : Walks g w s s') (hp : p ∈ g.productions)
    (hw : p.rhs = u ++ w) (hl : s'.lookahead ∈ g.follow p.lhs) :
    Runs (.compute g) (w.map (Table.step g.nonterminals)) s (.proceed, s') := by
  have hfollow := Grammar.followClosed_followSets g g.firstSets
  induction h generalizing p u with
  | nil s => exact .nil s
  | @terminal w k s s' s'' hc ha _ ih =>
      have hrest := ih hp (u := u ++ [.terminal k.terminal]) (by simp [hw]) hl
      have hact := Acts.consume k.terminal s
      rw [ha] at hact
      exact .cons (.act hact) hrest
  | @endMark w s _ _ _ ih =>
      have hrest := ih hp (u := u ++ [.endMark]) (by simp [hw]) hl
      exact .cons (.act (.expectEnd s)) hrest
  | @epsilon w s _ _ ih =>
      have hrest := ih hp (u := u ++ [.epsilon]) (by simp [hw]) hl
      exact .cons (.act (.empty s)) hrest
  | @action w s _ a _ ih =>
      have hrest := ih hp (u := u ++ [.action a]) (by simp [hw]) hl
      exact .cons (.act (.fire a s)) hrest
  | @nonterminal q w s s₁ s₂ hq hr h ihr ih =>
      have hrest := ih hp (u := u ++ [.nonterminal q.lhs]) (by simp [hw]) hl
      -- what the rest begins with, or what follows it, follows the nonterminal
      have hbehind : s₁.lookahead ∈ g.follow q.lhs :=
        hfollow.subset_getD hp hw _ (h.lookahead_mem hl)
      exact .cons (runs_nonterminal hg hq hr hbehind (ihr hq (u := []) rfl hbehind)) hrest

/-- The parser takes the walk along the whole program. -/
theorem runs_start (hg : g.Predictive) (h : Walks g [.nonterminal g.start] s s')
    (hc : s'.current = none) :
    Runs (.compute g) [.expand (Table.compute g).start] s (.proceed, s') := by
  have hfollow := Grammar.followClosed_followSets g g.firstSets
  rw [Table.start_compute]
  generalize hx : g.start = x at h
  cases h with
  | @nonterminal p _ _ s₁ _ hp hbody h =>
      cases h
      have hl : s₁.lookahead ∈ g.follow p.lhs := by
        rw [State.lookahead_eq_endMark_iff (s := s₁).2 hc, ← hx]
        exact hfollow.endMark_mem
      exact hbody.runs_nonterminal hg hp hl (hbody.runs hg hp (u := []) rfl hl)

end Walks

/-! ## Words are walked along -/

/-- What vanishes is walked along without taking a token. -/
theorem exists_walks_of_vanishes (h : g.Derives w []) (s : State) :
    ∃ s', Walks g w s s' ∧ s.SamePlace s' := by
  generalize hz : ([] : List Symbol) = z at h
  induction h generalizing s with
  | nil => exact ⟨s, .nil s, rfl, rfl⟩
  | input _ _ _ => cases hz
  | @skip x w z hx _ ih =>
      cases x with
      | action a =>
          obtain ⟨s', hwalk, hplace⟩ := ih (s.fire a) hz
          exact ⟨s', .action a hwalk, (State.samePlace_fire s a).trans hplace⟩
      | epsilon =>
          obtain ⟨s', hwalk, hplace⟩ := ih s.deriveEmpty hz
          exact ⟨s', .epsilon hwalk, hplace⟩
      | terminal t => cases hx
      | nonterminal x => cases hx
      | endMark => cases hx
  | @expand p w y z hp _ _ ihr ih =>
      obtain ⟨rfl, rfl⟩ := List.append_eq_nil_iff.1 hz.symm
      obtain ⟨s₁, hwalk, hplace⟩ := ihr (s.enter p.lhs) rfl
      obtain ⟨s₂, hwalk', hplace'⟩ := ih (s₁.leaveAll 1) rfl
      exact ⟨s₂, .nonterminal hp hwalk hwalk', State.SamePlace.trans hplace hplace'⟩

/-- Every word that is ahead is walked along, and no token is reported. -/
theorem exists_walks (h : g.Derives w (ks.map fun k => .terminal k.terminal)) (hs : s.Settled)
    (ha : s.ahead = ks ++ rest) :
    ∃ s', Walks g w s s' ∧ s'.Settled ∧ s'.ahead = rest ∧ (s.Faultless → s'.Faultless) := by
  generalize hz : ks.map (fun k => Symbol.terminal k.terminal) = z at h
  induction h generalizing s ks rest with
  | nil =>
      cases List.map_eq_nil_iff.1 hz
      exact ⟨s, .nil s, hs, ha, id⟩
  | @input x w z hx _ ih =>
      obtain ⟨k, ks, rfl, rfl, rfl⟩ := List.map_eq_cons_iff.1 hz
      have hc := State.current_eq_of_ahead hs.pending_eq_nil ha
      obtain ⟨s₁, heq, hadv⟩ := State.exists_consume hs.plain hc
      have hahead : s₁.ahead = ks ++ rest := by
        rw [State.ahead_eq_cons hc] at ha
        rw [hadv.ahead_eq]
        exact (List.cons.inj ha).2
      obtain ⟨s', hwalk, hset, hrest, hfault⟩ := ih hadv.settled hahead rfl
      exact ⟨s', .terminal hc heq hwalk, hset, hrest, fun h => hfault (hadv.faultless h)⟩
  | @skip x w z hx _ ih =>
      cases x with
      | action a =>
          have hplace := State.samePlace_fire s a
          obtain ⟨s', hwalk, hset, hrest, hfault⟩ :=
            ih (s := s.fire a) (hplace.settled hs) (by rw [hplace.ahead_eq, ha]) hz
          exact ⟨s', .action a hwalk, hset, hrest, fun h => hfault (h.fire a)⟩
      | epsilon =>
          obtain ⟨s', hwalk, hset, hrest, hfault⟩ :=
            ih (s := s.deriveEmpty) (s.samePlace_deriveEmpty.settled hs) ha hz
          exact ⟨s', .epsilon hwalk, hset, hrest, hfault⟩
      | terminal t => cases hx
      | nonterminal x => cases hx
      | endMark => cases hx
  | @expand p w y z hp _ _ ihr ih =>
      obtain ⟨ks₁, ks₂, rfl, rfl, rfl⟩ := List.map_eq_append_iff.1 hz
      rw [List.append_assoc] at ha
      obtain ⟨s₁, hwalk, hset, hrest, hfault⟩ :=
        ihr (s := s.enter p.lhs) ((s.samePlace_enter p.lhs).settled hs) ha rfl
      obtain ⟨s₂, hwalk', hset', hrest', hfault'⟩ :=
        ih (s := s₁.leaveAll 1) ((s₁.samePlace_leaveAll 1).settled hset) hrest rfl
      exact ⟨s₂, .nonterminal hp hwalk hwalk', hset', hrest', fun h => hfault' (hfault h)⟩

/-- On a walk nothing is reported but what the scans ahead report anyway, and actions that
fail. -/
theorem Walks.mem_lexicalReport (h : Walks g w s s') (hs : s.Settled) :
    s'.Settled ∧ ∀ d ∈ s'.lexicalReport, d ∈ s.lexicalReport ∨ d.kind = .logical := by
  induction h with
  | nil s => exact ⟨hs, fun d hd => .inl hd⟩
  | terminal hc ha _ ih =>
      obtain ⟨s₁, heq, hadv⟩ := State.exists_consume hs.plain hc
      rw [ha] at heq
      cases heq
      rw [← hadv.report_eq]
      exact ih hadv.settled
  | @endMark w s _ hc _ ih =>
      have hplace := State.samePlace_expectEnd s
      obtain ⟨hset, hall⟩ := ih (hplace.settled hs)
      refine ⟨hset, fun d hd => (hall d hd).imp_left ?_⟩
      rw [State.lexicalReport, State.expectEnd, hc]
      exact id
  | @epsilon w s _ _ ih => exact ih (s.samePlace_deriveEmpty.settled hs)
  | @action w s _ a _ ih =>
      obtain ⟨hset, hall⟩ := ih ((State.samePlace_fire s a).settled hs)
      refine ⟨hset, fun d hd => ?_⟩
      rcases hall d hd with hd | hd
      · exact State.mem_lexicalReport_fire hd
      · exact .inr hd
  | @nonterminal p w s s₁ s₂ _ _ _ ihr ih =>
      obtain ⟨hset, hall⟩ := ihr ((s.samePlace_enter p.lhs).settled hs)
      obtain ⟨hset', hall'⟩ := ih ((s₁.samePlace_leaveAll 1).settled hset)
      refine ⟨hset', fun d hd => ?_⟩
      rcases hall' d hd with hd | hd
      · exact hall d hd
      · exact .inr hd

/-! ## A parse without faults is a walk -/

/-- What is selected stems from a production. -/
theorem exists_production_of_select {x : String} {a : Alternative}
    (h : s.select (Table.entryOf g x) = (.ok a, s')) :
    ∃ p ∈ g.productions, p.lhs = x ∧ s'.lookahead ∈ g.predict p ∧ a = Table.alternativeOf g p := by
  have hselects := selects_of_select_eq h
  exact Table.exists_of_select?_entryOf hselects.select?_eq

/-- The tokens that are matched between two states. -/
theorem Walks.derives (h : Walks g w s s') (hg : g.Anchored) (hw : g.Inner w) (hs : s.Settled) :
    ∃ ks, s.ahead = ks ++ s'.ahead ∧ s'.Settled ∧
      g.Derives w (ks.map fun k => .terminal k.terminal) := by
  induction h with
  | nil s => exact ⟨[], rfl, hs, .nil⟩
  | @terminal w k s s' s'' hc ha _ ih =>
      obtain ⟨s₁, heq, hadv⟩ := State.exists_consume hs.plain hc
      rw [ha] at heq
      cases heq
      obtain ⟨ks, hks, hset, hd⟩ := ih hw.tail hadv.settled
      refine ⟨k :: ks, ?_, hset, .input rfl hd⟩
      rw [State.ahead_eq_cons hc, ← hadv.ahead_eq, hks]
      rfl
  | endMark _ _ _ => exact absurd (List.mem_cons_self ..) hw.endMark_notMem
  | @epsilon w s s' _ ih =>
      obtain ⟨ks, hks, hset, hd⟩ := ih hw.tail (s.samePlace_deriveEmpty.settled hs)
      exact ⟨ks, hks, hset, .skip rfl hd⟩
  | @action w s s' a _ ih =>
      have hplace := State.samePlace_fire s a
      obtain ⟨ks, hks, hset, hd⟩ := ih hw.tail (hplace.settled hs)
      exact ⟨ks, hplace.ahead_eq.symm.trans hks, hset, .skip rfl hd⟩
  | @nonterminal p w s s₁ s₂ hp _ _ ihr ih =>
      obtain ⟨ks, hks, hset, hd⟩ :=
        ihr (hg.inner hp hw.lhs_ne) ((s.samePlace_enter p.lhs).settled hs)
      obtain ⟨ks', hks', hset', hd'⟩ := ih hw.tail ((s₁.samePlace_leaveAll 1).settled hset)
      refine ⟨ks ++ ks', ?_, hset', ?_⟩
      · rw [List.append_assoc, ← hks']
        exact hks
      · rw [List.map_append]
        exact .expand hp hd hd'

/-- An alternative is selected without a fault only if it is selected at once. -/
theorem Selects.of_faultless {e : Entry} {q : Except Flow Alternative × State}
    (h : Selects e s q) (hq : q.2.Faultless) :
    ∃ a, e.select? s.lookahead = some a ∧ q = (.ok a, s) := by
  cases h with
  | chosen h => exact ⟨_, h, rfl⟩
  | missing _ _ => exact absurd hq (State.not_faultless_of_push rfl List.prefix_rfl)
  | ended _ _ _ => exact absurd hq (State.not_faultless_of_push rfl List.prefix_rfl)
  | cut _ _ hc ha =>
      have hp := State.prefix_of_advance_eq ha
      exact absurd hq (State.not_faultless_of_push rfl hp)
  | skip _ _ hc ha hr =>
      have hp := State.prefix_of_advance_eq ha
      exact absurd hq (State.not_faultless_of_push rfl (hp.trans (respected_report.selects hr)))

/-- A single step without a fault is a walk along its symbol. -/
theorem Acts.walks {y : Symbol} (h : Acts (Table.step g.nonterminals y) s r)
    (hs : ∀ c ∈ s.pending, c.isPlain) (hr : r.2.Faultless) :
    r.1 = .proceed ∧ Walks g [y] s r.2 := by
  cases y with
  | terminal t =>
      cases h with
      | consume _ _ =>
          cases hc : s.current with
          | none =>
              simp only [State.consume, hc] at hr
              exact absurd hr (State.not_faultless_of_push rfl List.prefix_rfl)
          | some k =>
              by_cases hk : k.terminal = t
              · subst hk
                obtain ⟨s', heq, _⟩ := State.exists_consume hs hc
                rw [heq]
                exact ⟨rfl, .terminal hc heq (.nil _)⟩
              · simp only [State.consume, hc, if_neg hk] at hr
                exact absurd hr (State.not_faultless_of_push rfl List.prefix_rfl)
  | nonterminal x => cases h
  | action a =>
      cases h with
      | fire _ _ => exact ⟨rfl, .action a (.nil _)⟩
  | epsilon =>
      cases h with
      | empty _ => exact ⟨rfl, .epsilon (.nil _)⟩
  | endMark =>
      cases h with
      | expectEnd _ =>
          cases hc : s.current with
          | none => exact ⟨rfl, .endMark hc (.nil _)⟩
          | some k =>
              simp only [State.expectEnd, hc] at hr
              exact absurd hr (State.not_faultless_of_push rfl List.prefix_rfl)

/-- A parse that finds every token where it should be is a walk. -/
theorem Runs.walks {steps : List Step} (h : Runs (.compute g) steps s r)
    (hw : steps = w.map (Table.step g.nonterminals))
    (hx : ∀ x, .nonterminal x ∈ w → x ∈ g.nonterminals)
    (hs : ∀ c ∈ s.pending, c.isPlain) (hr : r.2.Faultless) :
    r.1 = .proceed ∧ Walks g w s r.2 := by
  induction h generalizing w with
  | nil s =>
      cases List.map_eq_nil_iff.1 hw.symm
      exact ⟨rfl, .nil s⟩
  | @cons x rest s s' r h hrest ih ihr =>
      obtain ⟨y, w, rfl, rfl, rfl⟩ := List.map_eq_cons_iff.1 hw.symm
      have hs' : ∀ c ∈ s'.pending, c.isPlain := by
        intro c hc
        exact hs c ((h.respects respected_pending).subset hc)
      have hr' : s'.Faultless := hr.of_prefix (hrest.respects respected_report)
      obtain ⟨_, hwalk⟩ := ih (w := [y]) rfl (fun x hm => hx x (by simp_all)) hs hr'
      obtain ⟨hflow, hwalk'⟩ := ihr rfl (fun x hm => hx x (List.mem_cons_of_mem y hm)) hs' hr
      exact ⟨hflow, hwalk.append hwalk'⟩
  | @halt x s s' rest _ ih =>
      obtain ⟨y, w, rfl, rfl, rfl⟩ := List.map_eq_cons_iff.1 hw.symm
      obtain ⟨hflow, _⟩ := ih (w := [y]) rfl (fun x hm => hx x (by simp_all)) hs hr
      cases hflow
  | act h =>
      obtain ⟨y, rfl, rfl⟩ := List.map_eq_singleton_iff.1 hw.symm
      exact h.walks hs hr
  | @astray id e s s' flow he hsel =>
      have hselects := selects_of_select_eq hsel
      obtain ⟨a, _, heq⟩ := hselects.of_faultless hr
      cases heq
  | @chosen id e a s s' r he hsel hrun ih =>
      obtain ⟨x, _, rfl, rfl⟩ := Table.exists_entryOf hw hx he
      obtain ⟨p, hp, rfl, _, rfl⟩ := exists_production_of_select hsel
      have hr₂ : r.2.Faultless := hr
      have hr' : s'.Faultless := hr₂.of_prefix (hrun.respects respected_report)
      have hselects := selects_of_select_eq hsel
      obtain ⟨_, _, heq⟩ := hselects.of_faultless hr'
      cases heq
      obtain ⟨hflow, hwalk⟩ := ih rfl (fun x hm => Grammar.mem_nonterminals_of_mem_rhs hp hm) hs hr
      exact ⟨hflow, .nonterminal hp hwalk (.nil _)⟩

end ToneScript.Parse
