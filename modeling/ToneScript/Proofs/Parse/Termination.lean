import Mathlib.Data.Nat.Init
import ToneScript.Proofs.Grammar.Conclusive
import ToneScript.Proofs.Lookahead.Neighbours
import ToneScript.Proofs.Parse.Walks

/-!
# Every parse comes to an end

A parse of a conclusive grammar comes to an end whatever the program, recovery or not.  Two
things could stand in the way: recovery takes symbols as read without going forward, and
so does a nonterminal that stands for nothing.  But an alternative is only ever selected on
a look-ahead that it begins with, or on one that follows it when it can vanish.  In the
second case the whole alternative vanishes, and the parse has no choice but to walk along
that derivation.  In the first one the look-ahead is matched sooner or later.  If it is a
token, less of the program is left.  If it is the end mark, nothing is taken away, but what
is still to be derived stands behind the end mark, and in a conclusive grammar going there
cannot be repeated for ever.

## Main statements

* `Parse.exists_runs_of_begins` — where a sequence begins with what is ahead, that is
  matched, and what comes behind it is left to the induction.
* `Parse.exists_runs_of_current_eq_none` — at the end of the program everything runs to an
  end.
* `Parse.exists_runs_nonterminal`, `Parse.exists_runs_start` — everything does, everywhere.
-/

namespace ToneScript.Parse

variable {g : Grammar} {t : Table} {p : Production} {c : Symbol} {u w : List Symbol} {x : Step}
  {y : String} {rest : List Step} {s s₀ : State} {q : Flow × State} {P : State → Prop}

/-- At the end of the program the parse stays there. -/
theorem respected_current_eq_none :
    Respected fun s s' => s.current = none → s'.current = none where
  refl _ := id
  trans h h' := h' ∘ h
  push _ _ _ := id
  machine _ _ := id
  tree _ _ := id
  advance hc h := by
    rw [hc] at h
    cases h

/-- What is left of the program never grows again. -/
theorem respected_remaining_lt (n : Nat) :
    Respected fun s s' => s.remaining < n → s'.remaining < n where
  refl _ := id
  trans h h' := h' ∘ h
  push _ _ _ := id
  machine _ _ := id
  tree _ _ := id
  advance hc h := Nat.lt_trans (State.remaining_advance_lt hc) h

/-- A list of steps runs to an end if its first step does and the others do from there. -/
theorem Runs.exists_cons (h : Runs t [x] s q) (hq : P q.2)
    (hrest : ∃ r, Runs t rest q.2 r ∧ P r.2) : ∃ r, Runs t (x :: rest) s r ∧ P r.2 := by
  obtain ⟨flow | flow, s'⟩ := q
  · obtain ⟨r, hr, hPr⟩ := hrest
    exact ⟨r, .cons h hr, hPr⟩
  · exact ⟨_, .halt rest h, hq⟩

/-- A sequence runs to an end if all its nonterminals do, wherever they may come up. -/
theorem exists_runs_of_forall (hP : Respected fun s s' => P s → P s')
    (hw : ∀ y, .nonterminal y ∈ w → ∀ s, P s →
      ∃ r, Runs (.compute g) [.expand (g.nonterminals.idxOf y)] s r) (hs : P s) :
    ∃ r, Runs (.compute g) (w.map (Table.step g.nonterminals)) s r ∧ P r.2 := by
  induction w generalizing s with
  | nil => exact ⟨_, .nil s, hs⟩
  | cons y w ih =>
      have hstep : ∃ q, Runs (.compute g) [Table.step g.nonterminals y] s q := by
        rcases expand_or_acts (Table.step g.nonterminals y) s with ⟨id, hid⟩ | ⟨q, hact⟩
        · obtain ⟨x, rfl, rfl⟩ := Table.eq_nonterminal_of_step_eq_expand hid
          exact hw x List.mem_cons_self s hs
        · exact ⟨q, .act hact⟩
      obtain ⟨q, hq⟩ := hstep
      have hPq : P q.2 := hq.respects hP hs
      exact hq.exists_cons hPq (ih (fun x hx => hw x (List.mem_cons_of_mem y hx)) hPq)

/-! ## One right-hand side

The parse stands at the place of `s₀`, and `c` is what it sees there.  As soon as `c` is
matched, `P` holds, and everything that can stand behind `c` runs to an end. -/

section Begins

variable (hpred : g.Predictive) (hc : s₀.lookahead.symbol? = some c)
  (hP : Respected fun s s' => P s → P s')
  (hmatch : ∀ s, s₀.SamePlace s →
    ∃ q, Runs (.compute g) [Table.step g.nonterminals c] s q ∧ P q.2)

include hpred hc hP hmatch

/-- A sequence that begins with what is ahead matches it. -/
theorem exists_runs_of_begins (h : g.Begins c w) (hp : p ∈ g.productions) (hw : p.rhs = u ++ w)
    (hbehind : ∀ y ∈ g.nonterminals, g.Behind c w y → ∀ s, P s →
      ∃ r, Runs (.compute g) [.expand (g.nonterminals.idxOf y)] s r) (hs : s₀.SamePlace s) :
    ∃ r, Runs (.compute g) (w.map (Table.step g.nonterminals)) s r ∧ P r.2 := by
  have hfollow := Grammar.followClosed_followSets g g.firstSets
  have hvis : c.isVisible := Lookahead.isVisible_of_symbol? hc
  induction h generalizing p u s with
  | here w =>
      obtain ⟨q, hq, hPq⟩ := hmatch s hs
      refine hq.exists_cons hPq (exists_runs_of_forall hP ?_ hPq)
      intro y hy
      have hrhs : .nonterminal y ∈ p.rhs := by simp [hw, hy]
      refine hbehind y (Grammar.mem_nonterminals_of_mem_rhs hp hrhs) ?_
      exact .of_begins (u := [c]) hvis (.here []) hy
  | @skip z w hz _ ih =>
      cases z with
      | action a =>
          have hplace := hs.trans (State.samePlace_fire s a)
          obtain ⟨r, hr, hPr⟩ := ih (s := s.fire a) (u := u ++ [.action a]) hp (by simp [hw])
            (fun y hy hb => hbehind y hy (hb.skip rfl)) hplace
          exact ⟨r, .cons (.act (.fire a s)) hr, hPr⟩
      | epsilon =>
          obtain ⟨r, hr, hPr⟩ := ih (s := s.deriveEmpty) (u := u ++ [.epsilon]) hp (by simp [hw])
            (fun y hy hb => hbehind y hy (hb.skip rfl)) hs
          exact ⟨r, .cons (.act (.empty s)) hr, hPr⟩
      | terminal t => cases hz
      | nonterminal x => cases hz
      | endMark => cases hz
  | @inside q w hq hb ih =>
      have hmem : s.lookahead ∈ g.predict q := by
        rw [hs.lookahead_eq, Grammar.predict_eq, Grammar.mem_followedBy_firstOf]
        exact .inl ⟨(Grammar.shows_iff_begins hc).2 hb, s₀.lookahead_ne_empty⟩
      have hsel := (Selects.chosen (Table.select?_entryOf hpred hq hmem)).eq
      obtain ⟨r, hr, hPr⟩ := ih (s := s.enter q.lhs) (u := []) hq rfl
        (fun y hy hb => hbehind y hy ((hb.of_production hq).append_right w)) hs
      have hchosen := Runs.chosen
        (Table.getElem?_entries_compute (Grammar.mem_nonterminals.2 ⟨q, hq, rfl⟩)) hsel hr
      have hPr' : P (r.2.leaveAll 1) := hP.tree r.2 _ hPr
      refine hchosen.exists_cons hPr' (exists_runs_of_forall hP ?_ hPr')
      intro y hy
      have hrhs : .nonterminal y ∈ p.rhs := by simp [hw, hy]
      refine hbehind y (Grammar.mem_nonterminals_of_mem_rhs hp hrhs) ?_
      exact .of_begins (u := [.nonterminal q.lhs]) hvis (.inside hq hb) hy
  | @behind q w hq hd hb ih =>
      -- the nonterminal vanishes, and the parser sees so because what is ahead follows it
      obtain ⟨s₁, hwalk, hplace⟩ := exists_walks_of_vanishes hd (s.enter q.lhs)
      have hplace₁ : s₀.SamePlace s₁ := hs.trans hplace
      have hmem : s₁.lookahead ∈ g.follow q.lhs := by
        refine hfollow.subset_getD hp hw _ ?_
        rw [hplace₁.lookahead_eq, Grammar.mem_followedBy_firstOf]
        exact .inl ⟨(Grammar.shows_iff_begins hc).2 hb, s₀.lookahead_ne_empty⟩
      have hrun := hwalk.runs_nonterminal hpred hq hmem (hwalk.runs hpred hq (u := []) rfl hmem)
      obtain ⟨r, hr, hPr⟩ := ih (s := s₁.leaveAll 1) (u := u ++ [.nonterminal q.lhs]) hp
        (by simp [hw])
        (fun y hy hb => hbehind y hy (hb.append_left (u := [_]) (.of_nonterminal hq hd))) hplace₁
      exact ⟨r, .cons hrun hr, hPr⟩

/-- The right-hand side that has been selected runs to an end. -/
theorem exists_runs_rhs (hp : p ∈ g.productions) (hl : s₀.lookahead ∈ g.predict p)
    (hbehind : ∀ y ∈ g.nonterminals, g.Behind c p.rhs y → ∀ s, P s →
      ∃ r, Runs (.compute g) [.expand (g.nonterminals.idxOf y)] s r) (hs : s₀.SamePlace s) :
    ∃ r, Runs (.compute g) (p.rhs.map (Table.step g.nonterminals)) s r := by
  rw [Grammar.predict_eq, Grammar.mem_followedBy_firstOf] at hl
  rcases hl with ⟨hshow, _⟩ | ⟨hd, hfollow⟩
  · obtain ⟨r, hr, _⟩ := exists_runs_of_begins hpred hc hP hmatch
      ((Grammar.shows_iff_begins hc).1 hshow) hp (u := []) rfl hbehind hs
    exact ⟨r, hr⟩
  · obtain ⟨s', hwalk, hplace⟩ := exists_walks_of_vanishes hd s
    rw [← (hs.trans hplace).lookahead_eq] at hfollow
    exact ⟨_, hwalk.runs hpred hp (u := []) rfl hfollow⟩

end Begins

/-! ## One nonterminal -/

/-- A nonterminal runs to an end if every right-hand side does that may be selected. -/
theorem exists_runs_of_select (hy : y ∈ g.nonterminals)
    (h : ∀ p ∈ g.productions, ∀ s', Selects (Table.entryOf g y) s (.ok (Table.alternativeOf g p), s') →
      p.lhs = y → s'.lookahead ∈ g.predict p →
      ∃ r, Runs (.compute g) (p.rhs.map (Table.step g.nonterminals)) (s'.enter y) r) :
    ∃ r, Runs (.compute g) [.expand (g.nonterminals.idxOf y)] s r := by
  have he := Table.getElem?_entries_compute hy
  rcases hsel : s.select (Table.entryOf g y) with ⟨flow | a, s'⟩
  · exact ⟨_, .astray he hsel⟩
  · have hselects := selects_of_select_eq hsel
    obtain ⟨p, hp, hlhs, hl, rfl⟩ := Table.exists_of_select?_entryOf hselects.select?_eq
    obtain ⟨r, hr⟩ := h p hp s' hselects hlhs hl
    exact ⟨_, .chosen he hsel hr⟩

/-- At the end of the program a right-hand side runs to an end if everything does that can
stand behind the end mark. -/
theorem exists_runs_rhs_of_current_eq_none (hpred : g.Predictive) (hs : s.current = none)
    (hp : p ∈ g.productions) (hl : s.lookahead ∈ g.predict p)
    (hbehind : ∀ y ∈ g.nonterminals, g.Behind .endMark p.rhs y → ∀ s, s.current = none →
      ∃ r, Runs (.compute g) [.expand (g.nonterminals.idxOf y)] s r) :
    ∃ r, Runs (.compute g) (p.rhs.map (Table.step g.nonterminals)) (s.enter p.lhs) r := by
  have hsym : s.lookahead.symbol? = some .endMark := by
    rw [State.lookahead_eq_endMark_iff.2 hs, Lookahead.symbol?]
  refine exists_runs_rhs hpred hsym respected_current_eq_none ?_ hp hl hbehind
    (s.samePlace_enter p.lhs)
  intro s' hplace
  have hend : s'.expectEnd.current = none :=
    (State.samePlace_expectEnd s').2.trans (hplace.2.trans hs)
  exact ⟨_, .act (.expectEnd s'), hend⟩

/-- At the end of the program the induction is on what can stand behind the end mark. -/
theorem exists_runs_of_current_eq_none (hpred : g.Predictive) (hg : g.Conclusive)
    (hy : y ∈ g.nonterminals) (hs : s.current = none) :
    ∃ r, Runs (.compute g) [.expand (g.nonterminals.idxOf y)] s r := by
  generalize hz : (⟨y, hy⟩ : { y // y ∈ g.nonterminals }) = z
  induction z using (Grammar.wellFounded_behind hg).induction generalizing y s with
  | h z ih =>
      subst hz
      refine exists_runs_of_select hy ?_
      rintro p hp s' hsel rfl hl
      have hcur : s'.current = none := respected_current_eq_none.selects hsel hs
      refine exists_runs_rhs_of_current_eq_none hpred hcur hp hl ?_
      intro y' hy' hb s₁ hs₁
      exact ih ⟨y', hy'⟩ (hb.of_production hp) hy' hs₁ rfl

/-- Everywhere else it is on how much of the program is left. -/
theorem exists_runs_nonterminal (hpred : g.Predictive) (hg : g.Conclusive)
    (hy : y ∈ g.nonterminals) (s : State) :
    ∃ r, Runs (.compute g) [.expand (g.nonterminals.idxOf y)] s r := by
  generalize hn : s.remaining = n
  induction n using Nat.strong_induction_on generalizing y s with
  | h n ih =>
      refine exists_runs_of_select hy ?_
      rintro p hp s' hsel rfl hl
      have hle : s'.remaining ≤ n := hn ▸ (respected_precedes.selects hsel).remaining_le
      cases hcur : s'.current with
      | none =>
          refine exists_runs_rhs_of_current_eq_none hpred hcur hp hl ?_
          intro y' hy' _ s₁ hs₁
          exact exists_runs_of_current_eq_none hpred hg hy' hs₁
      | some k =>
          have hsym : s'.lookahead.symbol? = some (.terminal k.terminal) := by
            rw [State.lookahead, hcur]
            rfl
          refine exists_runs_rhs hpred hsym (respected_remaining_lt s'.remaining) ?_ hp hl ?_
            (s'.samePlace_enter p.lhs)
          · intro s₁ hplace
            have hlt := State.remaining_consume_lt (hplace.2.trans hcur)
            rw [hplace.remaining_eq] at hlt
            exact ⟨_, .act (.consume k.terminal s₁), hlt⟩
          · intro y' hy' _ s₁ hlt
            exact ih _ (Nat.lt_of_lt_of_le hlt hle) hy' s₁ rfl

/-- The start symbol of an anchored grammar runs to an end. -/
theorem exists_runs_start (hpred : g.Predictive) (hg : g.Anchored) (s : State) :
    ∃ r, Runs (.compute g) [.expand (Table.compute g).start] s r := by
  rw [Table.start_compute]
  exact exists_runs_nonterminal hpred hg.conclusive g.start_mem_nonterminals s

end ToneScript.Parse
