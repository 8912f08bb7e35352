import ToneScript.Proofs.Parse.Account

/-!
# What a parse can report

What is wrong with the text may be anything, and so may be the tokens that are skipped.  What is
missing is always a symbol of the grammar: a nonterminal, or a terminal of some right-hand side.
That holds in recovery too, where steps are taken that no derivation of the program would take.

The end mark is a symbol of its own.  It is missing if the parse comes to it while there are tokens
left, as it does by grammars that let a program end in the middle.  By others it never does: what
stands before the end mark is left only at the end of the program, even where nonterminals are
taken as read.

## Main definitions

* `Grammar.Warrants` — the causes that can be reported.
* `Grammar.Sealed` — the end mark stands only behind what is left at the end of the program.
* `Parse.State.Warranted` — nothing else has been reported.

## Main statements

* `Parse.Runs.warranted` — a parse by a sealed grammar reports nothing else.
* `Parse.warranted_of_run` — the same for whole programs.
-/

namespace ToneScript

namespace Grammar

/-- The causes that a parse by the grammar can report.  That the end of the program is missing is
not one of them. -/
inductive Warrants (g : Grammar) : Diagnostic.Cause → Prop
  /-- Some text is not a token. -/
  | lexeme (fault : Scan.Fault) (text : String) : Warrants g (.lexeme fault text)
  /-- A token is skipped. -/
  | illegal (terminal : String) : Warrants g (.illegal terminal)
  /-- A nonterminal is taken as read. -/
  | nonterminal {x : String} (h : x ∈ g.nonterminals) : Warrants g (.missing x)
  /-- A terminal is taken as read. -/
  | terminal {x : String} {p : Production} (hp : p ∈ g.productions) (h : .terminal x ∈ p.rhs) :
      Warrants g (.missing x)
  /-- The program ends too early. -/
  | unexpectedEnd : Warrants g .unexpectedEnd
  /-- An action fails. -/
  | action (fault : Value.Fault) : Warrants g (.action fault)

/-- What stands before the first end mark. -/
def beforeEnd (w : List Symbol) : List Symbol := w.takeWhile (· ≠ .endMark)

/-- On a right-hand side that is not chosen at the end of the program, the end mark stands only
behind one of these nonterminals. -/
def Sealed (g : Grammar) (xs : List String) : Prop :=
  ∀ p ∈ g.productions, .endMark ∈ p.rhs →
    (∀ l ∈ (g.predict p).toList, l = .endMark) ∨ ∃ x ∈ xs, .nonterminal x ∈ beforeEnd p.rhs

instance (g : Grammar) (xs : List String) : Decidable (g.Sealed xs) :=
  inferInstanceAs (Decidable (∀ p ∈ g.productions, _ → _))

theorem sealed_tone : tone.Sealed ["Program", "ProgramBody", "StartRule", "ProgramRest"] := by
  decide +kernel

end Grammar

namespace Parse

open Grammar (beforeEnd)

variable {g : Grammar} {e : Entry} {steps : List Step} {s s' : State} {r : Flow × State}
  {k : Token} {scans : List Scan} {xs : List String} {w : List Symbol} {y : Symbol}
  {source : String} {o : Outcome}

/-! ## Single steps -/

namespace State

/-- Nothing has been reported but what the grammar warrants. -/
def Warranted (g : Grammar) (s : State) : Prop := ∀ d ∈ s.report.toList, g.Warrants d.cause

namespace Warranted

theorem push {d : Diagnostic} (h : s.Warranted g) (hd : g.Warrants d.cause) :
    ({ s with report := s.report.push d } : State).Warranted g := by
  intro d' hd'
  rw [Report.toList_push, List.mem_append, List.mem_singleton] at hd'
  rcases hd' with hd' | rfl
  · exact h d' hd'
  · exact hd

theorem advanceOver (h : s.Warranted g) (scans : List Scan) :
    (s.advanceOver scans).2.Warranted g := by
  fun_induction State.advanceOver s scans with
  | case1 s => exact h
  | case2 s => exact h
  | case3 s t rest _ ih => exact ih h
  | case4 s t rest _ => exact h
  | case5 s f x n rest ih => exact ih (h.push (.lexeme f x))
  | case6 s x n rest => exact h.push (.lexeme .truncation x)

theorem advance (h : s.Warranted g) : s.advance.2.Warranted g := h.advanceOver s.pending

theorem consume {x : String} (h : s.Warranted g) (hx : g.Warrants (.missing x)) :
    (s.consume x).2.Warranted g := by
  unfold State.consume
  split
  · split
    · exact advance (s := { s with tree := _ }) h
    · exact h.push hx
  · exact h.push hx

theorem fire (h : s.Warranted g) (a : Action) : (s.fire a).Warranted g := by
  unfold State.fire
  split
  · exact h
  · exact h.push (.action _)

end Warranted

end State

/-- In search of an alternative tokens are skipped, or the nonterminal is taken as read. -/
theorem Selects.warranted {q : Except Flow Alternative × State} (h : Selects e s q)
    (he : e.name ∈ g.nonterminals) (hs : s.Warranted g) : q.2.Warranted g := by
  induction h with
  | chosen _ => exact hs
  | missing _ _ => exact hs.push (.nonterminal he)
  | ended _ _ _ => exact hs.push .unexpectedEnd
  | @cut s _ k _ _ _ ha =>
      have hskip := (hs.push (d := ⟨s.line, .illegal k.terminal⟩) (.illegal _)).advance
      rwa [← Report.illegal, ha] at hskip
  | @skip s _ k _ _ _ _ ha _ ih =>
      have hskip := (hs.push (d := ⟨s.line, .illegal k.terminal⟩) (.illegal _)).advance
      rw [← Report.illegal, ha] at hskip
      exact ih hskip

/-! ## Along the steps -/

/-- If the end mark is to come, either the program is at its end, or one of the nonterminals comes
first. -/
def Sealed (xs : List String) (w : List Symbol) (s : State) : Prop :=
  .endMark ∈ w → s.current = none ∨ ∃ x ∈ xs, .nonterminal x ∈ beforeEnd w

namespace Sealed

theorem of_notMem (h : .endMark ∉ w) : Sealed xs w s := fun hw => absurd hw h

theorem of_predict {p : Production} (hg : g.Sealed xs) (hp : p ∈ g.productions)
    (hl : s.lookahead ∈ g.predict p) : Sealed xs p.rhs s := by
  intro hend
  rcases hg p hp hend with hpredict | hx
  · have hlook := hpredict _ (LookaheadSet.mem_toList.2 hl)
    exact .inl (State.lookahead_eq_endMark_iff.1 hlook)
  · exact .inr hx

theorem first (h : Sealed xs (y :: w) s) : Sealed xs [y] s := by
  intro hy
  obtain rfl := List.mem_singleton.1 hy
  rcases h List.mem_cons_self with hc | ⟨x, _, hx⟩
  · exact .inl hc
  · simp [beforeEnd] at hx

/-- When one of the nonterminals has come first, the program is at its end. -/
theorem rest (hg : g.Closing xs) (h : Sealed xs (y :: w) s)
    (hruns : Runs (.compute g) [Table.step g.nonterminals y] s (.proceed, s'))
    (hy : ∀ x, .nonterminal x ∈ [y] → x ∈ g.nonterminals) : Sealed xs w s' := by
  intro hend
  have hstay (hc : s.current = none ∨ ∃ x ∈ xs, .nonterminal x ∈ [y]) : s'.current = none :=
    hruns.current_eq_none hg (w := [y]) rfl hy (hc.imp_right .inr)
  rcases h (List.mem_cons_of_mem y hend) with hc | ⟨x, hxs, hx⟩
  · exact .inl (hstay (.inl hc))
  · by_cases hmark : y = .endMark
    · simp [beforeEnd, hmark] at hx
    · have hbefore : beforeEnd (y :: w) = y :: beforeEnd w :=
        List.takeWhile_cons_of_pos (by simpa using hmark)
      rw [hbefore, List.mem_cons] at hx
      rcases hx with hx | hx
      · exact .inl (hstay (.inr ⟨x, hxs, by simp [hx]⟩))
      · exact .inr ⟨x, hxs, hx⟩

end Sealed

/-- A step that derives no nonterminal reports a terminal as missing, or the failure of an action.
The end mark is not missing, since the program is at its end. -/
theorem Acts.warranted (h : Acts (Table.step g.nonterminals y) s r) (hs : s.Warranted g)
    (hterminal : ∀ x, .terminal x ∈ [y] → g.Warrants (.missing x)) (hsealed : Sealed xs [y] s) :
    r.2.Warranted g := by
  cases y with
  | terminal x =>
      cases h
      exact hs.consume (hterminal x List.mem_cons_self)
  | endMark =>
      cases h
      -- nothing stands before the end mark any more
      have hend : s.current = none := by
        rcases hsealed List.mem_cons_self with hc | ⟨x, _, hx⟩
        · exact hc
        · simp [beforeEnd] at hx
      rw [State.expectEnd, hend]
      exact hs
  | nonterminal x => cases h
  | epsilon =>
      cases h
      exact hs
  | action a =>
      cases h
      exact hs.fire a

/-- A parse by a sealed grammar reports nothing that the grammar does not warrant. -/
theorem Runs.warranted (hg : g.Closing xs) (hg' : g.Sealed xs) (h : Runs (.compute g) steps s r)
    (hw : steps = w.map (Table.step g.nonterminals))
    (hx : ∀ x, .nonterminal x ∈ w → x ∈ g.nonterminals)
    (hterminal : ∀ x, .terminal x ∈ w → g.Warrants (.missing x)) (hsealed : Sealed xs w s)
    (hs : s.Warranted g) : r.2.Warranted g := by
  induction h generalizing w with
  | nil s => exact hs
  | cons h _ ih ihr =>
      obtain ⟨y, w, rfl, rfl, rfl⟩ := List.map_eq_cons_iff.1 hw.symm
      have hfirst : [y] ⊆ y :: w := by simp
      have hbefore := ih (w := [y]) rfl (fun x hm => hx x (hfirst hm))
        (fun x hm => hterminal x (hfirst hm)) hsealed.first hs
      have hbehind := hsealed.rest hg h fun x hm => hx x (hfirst hm)
      exact ihr rfl (fun x hm => hx x (List.mem_cons_of_mem y hm))
        (fun x hm => hterminal x (List.mem_cons_of_mem y hm)) hbehind hbefore
  | halt _ _ ih =>
      obtain ⟨y, w, rfl, rfl, rfl⟩ := List.map_eq_cons_iff.1 hw.symm
      have hfirst : [y] ⊆ y :: w := by simp
      exact ih (w := [y]) rfl (fun x hm => hx x (hfirst hm))
        (fun x hm => hterminal x (hfirst hm)) hsealed.first hs
  | act h =>
      obtain ⟨y, rfl, rfl⟩ := List.map_eq_singleton_iff.1 hw.symm
      exact h.warranted hs hterminal hsealed
  | astray he hsel =>
      obtain ⟨x, hmem, rfl, rfl⟩ := Table.exists_entryOf hw hx he
      exact (selects_of_select_eq hsel).warranted hmem hs
  | chosen he hsel _ ih =>
      obtain ⟨x, hmem, rfl, rfl⟩ := Table.exists_entryOf hw hx he
      obtain ⟨p, hp, rfl, hl, rfl⟩ := exists_production_of_select hsel
      exact ih rfl (fun x hm => Grammar.mem_nonterminals_of_mem_rhs hp hm)
        (fun x hm => .terminal hp hm) (.of_predict hg' hp hl)
        ((selects_of_select_eq hsel).warranted hmem hs)

/-- The same for the parse of a whole program. -/
theorem warranted_of_run (hg : g.Closing xs) (hg' : g.Sealed xs)
    (ho : run (.compute g) source = some o) : ∀ d ∈ o.report.toList, g.Warrants d.cause := by
  have hempty : (State.ofSource source).Warranted g := fun d hd => absurd hd List.not_mem_nil
  have hroot := hempty.advance
  obtain ⟨s, hs, rfl⟩ := Option.map_eq_some_iff.1 ho
  rcases runs_of_finalState hs with ha | ⟨s₁, flow, ha, hruns⟩
  · rw [ha] at hroot
    exact hroot
  · rw [ha] at hroot
    exact hruns.warranted hg hg' (w := [.nonterminal g.start]) rfl
      (by simp [g.start_mem_nonterminals]) (by simp) (.of_notMem (by simp)) hroot

end Parse

end ToneScript
