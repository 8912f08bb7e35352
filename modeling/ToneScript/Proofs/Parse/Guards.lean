import ToneScript.Proofs.Parse.Calls
import ToneScript.Proofs.Parse.Recognition

/-!
# Actions on tokens of one kind

Some actions make sense only on a token of some kind: a number can be pushed only where there is
one.  The evaluator does not check that, and neither does the parser when it performs an action.
It is the grammar that sees to it.  Such an action comes first on a right-hand side that is
chosen only on such a token, so that nothing can come in between, not even in recovery.

## Main definitions

* `Grammar.Guards` — the grammar performs some actions on some terminals only.

## Main statements

* `Parse.respected_ahead` — the tokens ahead are taken from the front.
* `Parse.Logs.onToken`, `Parse.History.onToken` — a guarded action is performed on a token of its
  kind, whatever has gone wrong before.
-/

namespace ToneScript

/-- Wherever an action is to be performed on tokens of one kind only, it is the first symbol of a
right-hand side, and the right-hand side is chosen only on such a token. -/
def Grammar.Guards (g : Grammar) (guard : Action → Option String) : Prop :=
  ∀ p ∈ g.productions,
    (∀ a ∈ Action.all, .action a ∈ p.rhs.tail → guard a = none) ∧
      ∀ a ∈ Action.all, p.rhs.head? = some (.action a) →
        ∀ x ∈ guard a, ∀ l ∈ (g.predict p).toList, l = .terminal x

instance (g : Grammar) (guard : Action → Option String) : Decidable (g.Guards guard) :=
  inferInstanceAs (Decidable (∀ p ∈ g.productions, _ ∧ _))

namespace Parse

open Machine (Call)

variable {g : Grammar} {steps : List Step} {s : State} {r : Flow × State}
  {E : List Event} {w : List Symbol} {guard : Action → Option String} {source : String}
  {o : Outcome}

/-! ## The tokens ahead -/

theorem State.ahead_advanceOver_suffix (s : State) (scans : List Scan) :
    (s.advanceOver scans).2.ahead <:+ Scan.significant scans := by
  fun_induction State.advanceOver s scans with
  | case1 s => exact List.nil_suffix
  | case2 s => exact List.nil_suffix
  | case3 s k rest hk ih =>
      rw [Scan.significant_token_cons, if_pos hk]
      exact ih
  | case4 s k rest hk =>
      rw [Scan.significant_token_cons, if_neg hk]
      exact List.suffix_rfl
  | case5 s f x n rest ih => exact ih
  | case6 s x n rest => exact List.suffix_rfl

/-- Tokens are taken from the front of those ahead. -/
theorem respected_ahead : Respected fun s s' => s'.ahead <:+ s.ahead where
  refl _ := List.suffix_rfl
  trans h h' := h'.trans h
  push _ _ _ := List.suffix_rfl
  machine _ _ := List.suffix_rfl
  tree _ _ := List.suffix_rfl
  advance {s k} hc := by
    rw [State.ahead_eq_cons hc]
    exact (s.ahead_advanceOver_suffix s.pending).trans (List.suffix_cons _ _)

/-! ## Guarded actions -/

/-- The guards of the actions in a sequence of symbols hold before it: only the first symbol may
be an action with a guard, and then the guard holds now. -/
structure Guarded (guard : Action → Option String) (w : List Symbol) (s : State) : Prop where
  tail : ∀ a, .action a ∈ w.tail → guard a = none
  head : ∀ a, w.head? = some (.action a) → ∀ x ∈ guard a, s.lookahead = .terminal x

theorem Guarded.of_predict {p : Production} (hg : g.Guards guard) (hp : p ∈ g.productions)
    (hl : s.lookahead ∈ g.predict p) : Guarded guard p.rhs s where
  tail a ha := (hg p hp).1 a a.mem_all ha
  head a ha x hx := (hg p hp).2 a a.mem_all ha x hx _ (LookaheadSet.mem_toList.2 hl)

theorem Guarded.first {y : Symbol} (h : Guarded guard (y :: w) s) : Guarded guard [y] s where
  tail _ ha := absurd ha List.not_mem_nil
  head a ha := h.head a ha

/-- Behind the first symbol there are no guards, so it does not matter what has been done. -/
theorem Guarded.rest {y : Symbol} (h : Guarded guard (y :: w) s) (s' : State) :
    Guarded guard w s' where
  tail a ha := h.tail a (List.mem_of_mem_tail ha)
  head a ha x hx := by
    have hnone := h.tail a (List.mem_of_mem_head? ha)
    rw [hnone] at hx
    cases hx

/-- The call of an action that has a guard is made on a token of this kind. -/
def OnToken (guard : Action → Option String) (ks : List Token) (c : Call) : Prop :=
  ∀ x ∈ guard c.action, ∃ k ∈ ks, k.terminal = x ∧ c.lexeme = k.text ∧ c.line = k.line

theorem OnToken.mono {ks ks' : List Token} {c : Call} (h : OnToken guard ks c)
    (hks : ks ⊆ ks') : OnToken guard ks' c := by
  intro x hx
  obtain ⟨k, hk, hcall⟩ := h x hx
  exact ⟨k, hks hk, hcall⟩

theorem Guarded.onToken {a : Action} (h : Guarded guard [.action a] s) :
    OnToken guard s.ahead ⟨a, s.lexeme, s.line⟩ := by
  intro x hx
  have hlook := h.head a rfl x hx
  cases hc : s.current with
  | none => simp [State.lookahead, hc] at hlook
  | some k =>
      refine ⟨k, by simp [State.ahead_eq_cons hc], ?_, ?_, ?_⟩
      · simpa [State.lookahead, hc] using hlook
      · simp [State.lexeme, hc]
      · simp [State.line, hc]

/-- Every guarded action in a parse is performed on a token of its kind. -/
theorem Logs.onToken (hg : g.Guards guard) (h : Logs (.compute g) steps s E r)
    (hw : steps = w.map (Table.step g.nonterminals))
    (hx : ∀ x, .nonterminal x ∈ w → x ∈ g.nonterminals) (hguard : Guarded guard w s) :
    ∀ c ∈ callsOf E, OnToken guard s.ahead c := by
  induction h generalizing w with
  | nil s => exact fun c hc => absurd hc List.not_mem_nil
  | @cons _ rest s s' r E E' h hr ih ihr =>
      obtain ⟨y, w, rfl, rfl, rfl⟩ := List.map_eq_cons_iff.1 hw.symm
      have hsuffix : s'.ahead <:+ s.ahead := h.runs.respects respected_ahead
      rw [callsOf_append, List.forall_mem_append]
      refine ⟨ih (w := [y]) rfl (fun x hm => hx x (by simp_all)) hguard.first, fun c hc => ?_⟩
      have hrest := ihr rfl (fun x hm => hx x (List.mem_cons_of_mem y hm)) (hguard.rest s') c hc
      exact hrest.mono hsuffix.subset
  | halt _ _ ih =>
      obtain ⟨y, w, rfl, rfl, rfl⟩ := List.map_eq_cons_iff.1 hw.symm
      exact ih (w := [y]) rfl (fun x hm => hx x (by simp_all)) hguard.first
  | @act _ s _ h =>
      obtain ⟨y, rfl, rfl⟩ := List.map_eq_singleton_iff.1 hw.symm
      rw [callsOf_append, callsOf_news, List.append_nil]
      intro c hc
      obtain ⟨a, hfire, rfl⟩ := State.exists_of_mem_callsOf_deed hc
      obtain rfl : y = .action a := by
        cases y with
        | action b =>
            cases hfire
            rfl
        | _ => cases hfire
      exact hguard.onToken
  | astray _ _ =>
      rw [callsOf_news]
      exact fun c hc => absurd hc List.not_mem_nil
  | @chosen _ _ _ s s' r E he hsel _ ih =>
      obtain ⟨x, _, rfl, rfl⟩ := Table.exists_entryOf hw hx he
      obtain ⟨p, hp, rfl, hl, rfl⟩ := exists_production_of_select hsel
      have hsuffix : s'.ahead <:+ s.ahead := respected_ahead.selects (selects_of_select_eq hsel)
      rw [callsOf_append, callsOf_news, List.nil_append]
      intro c hc
      have hbody := ih rfl (fun x hm => Grammar.mem_nonterminals_of_mem_rhs hp hm)
        (.of_predict hg hp hl) c hc
      exact hbody.mono hsuffix.subset

/-- In the parse of a whole program it is one of the tokens of the program. -/
theorem History.onToken (hg : g.Guards guard) (h : History (.compute g) source E o) :
    ∀ c ∈ callsOf E, OnToken guard (tokenize source).significant c := by
  cases h with
  | cut ha =>
      rw [callsOf_news]
      exact fun c hc => absurd hc List.not_mem_nil
  | @parsed s E r ha hlogs =>
      have htakes := State.takes_ofSource source
      rw [ha] at htakes
      have hahead : (tokenize source).significant = s.ahead := htakes.ahead_eq
      rw [callsOf_append, callsOf_news, List.nil_append, hahead]
      refine hlogs.onToken hg (w := [.nonterminal g.start]) rfl (by simp [g.start_mem_nonterminals])
        ⟨fun a ha => absurd ha List.not_mem_nil, fun a ha => by cases ha⟩

end Parse

/-! ## The tone grammar -/

/-- What an action is performed on in tone programs, if it reads what it is performed on. -/
def Action.terminal? : Action → Option String
  | saveId | lookupAndPushValue => some "ID"
  | pushNumber => some "NUMBER"
  | pushString => some "STATIC_STRING"
  | printFinalResult | assign | add | multiply | lookupSavedId => none

theorem Grammar.guards_tone : tone.Guards Action.terminal? := by decide +kernel

end ToneScript
