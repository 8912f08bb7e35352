import ToneScript.Proofs.Machine.Faults
import ToneScript.Proofs.Parse.Warrants
import ToneScript.Proofs.Program.Tonal

/-!
# What is never reported

Some reports that the parser and the evaluator can make are never made of a tone program, however
badly it is written.  Each is ruled out by the grammar, but by another property of it.  The end of
the program is never missing, since the body of a program is left only there.  A number is pushed
only where there is one, so that nothing but its size can be wrong with it.  And a name is looked up
only where it has just been saved: the tokens that are skipped in between do not touch the stack,
and no alternative brings an action in between.

## Main definitions

* `Grammar.Heralded`, `Grammar.Heralds` — names are looked up only where they have just been saved.

## Main statements

* `Parse.Logs.heralded` — the calls of a parse are heralded by such a grammar.
* `compile_never_reports` — what is never reported of a tone program.
-/

namespace ToneScript

/-! ## Names that are looked up -/

namespace Grammar

/-- Along the symbols a name is looked up only where it has been saved and no action has come since,
and so are the given nonterminals derived.  If a name has just been saved before these symbols,
they are `ready`. -/
def Heralded (xs : List String) : (ready : Bool) → List Symbol → Prop
  | _, [] => True
  | ready, .action a :: w => (a = .lookupSavedId → ready = true) ∧ Heralded xs (a = .saveId) w
  | ready, .nonterminal x :: w => (x ∈ xs → ready = true) ∧ Heralded xs false w
  | ready, .terminal _ :: w | ready, .endMark :: w | ready, .epsilon :: w => Heralded xs ready w

theorem Heralded.first {xs : List String} {ready : Bool} {y : Symbol} {w : List Symbol}
    (h : Heralded xs ready (y :: w)) : Heralded xs ready [y] := by
  cases y with
  | action a => exact ⟨h.1, trivial⟩
  | nonterminal x => exact ⟨h.1, trivial⟩
  | _ => trivial

instance decidableHeralded (xs : List String) :
    (ready : Bool) → (w : List Symbol) → Decidable (Heralded xs ready w)
  | _, [] => .isTrue trivial
  | ready, .action a :: w =>
    haveI := decidableHeralded xs (a = .saveId) w
    inferInstanceAs (Decidable ((a = .lookupSavedId → ready = true) ∧ Heralded xs (a = .saveId) w))
  | ready, .nonterminal x :: w =>
    haveI := decidableHeralded xs false w
    inferInstanceAs (Decidable ((x ∈ xs → ready = true) ∧ Heralded xs false w))
  | ready, .terminal _ :: w => decidableHeralded xs ready w
  | ready, .endMark :: w => decidableHeralded xs ready w
  | ready, .epsilon :: w => decidableHeralded xs ready w

/-- The right-hand sides of the given nonterminals look a name up that has just been saved, and the
others look up only names that they have saved themselves. -/
def Heralds (g : Grammar) (xs : List String) : Prop :=
  ∀ p ∈ g.productions, Heralded xs (p.lhs ∈ xs) p.rhs

instance (g : Grammar) (xs : List String) : Decidable (g.Heralds xs) :=
  inferInstanceAs (Decidable (∀ p ∈ g.productions, _))

theorem heralds_tone : tone.Heralds ["StartRule"] := by decide

end Grammar

namespace Parse

variable {g : Grammar} {t : Table} {x : Step} {steps : List Step} {s : State} {r : Flow × State}
  {E : List Event} {xs : List String} {w : List Symbol} {ready : Bool} {source : String}
  {o : Outcome}

/-- A step that is neither a nonterminal nor an action makes no call. -/
theorem Logs.callsOf_eq_nil (h : Logs t [x] s E r) (hexpand : ∀ id, x ≠ .expand id)
    (hfire : ∀ a, x ≠ .fire a) : callsOf E = [] := by
  rcases h.of_singleton with ⟨_, rfl⟩ | ⟨id, e, hx, _⟩
  · rw [callsOf_append, callsOf_news, List.append_nil, List.eq_nil_iff_forall_not_mem]
    intro c hc
    obtain ⟨a, hx, _⟩ := State.exists_of_mem_callsOf_deed hc
    exact hfire a hx
  · exact absurd hx (hexpand id)

/-- An action makes one call. -/
theorem Logs.callsOf_fire {a : Action} (h : Logs t [.fire a] s E r) :
    callsOf E = [⟨a, s.lexeme, s.line⟩] := by
  rcases h.of_singleton with ⟨_, rfl⟩ | ⟨id, e, hx, _⟩
  · rw [callsOf_append, callsOf_news, List.append_nil]
    rfl
  · cases hx

/-- The calls of a parse are heralded, whatever has been skipped in between. -/
theorem Logs.heralded (hg : g.Heralds xs) (h : Logs (.compute g) steps s E r)
    (hw : steps = w.map (Table.step g.nonterminals))
    (hx : ∀ x, .nonterminal x ∈ w → x ∈ g.nonterminals) (hready : Grammar.Heralded xs ready w) :
    Machine.Heralded ready (callsOf E) := by
  induction h generalizing w ready with
  | nil s => trivial
  | @cons _ rest s s' r E E' h hr ih ihr =>
      obtain ⟨y, w, rfl, rfl, rfl⟩ := List.map_eq_cons_iff.1 hw.symm
      have hbehind {ready : Bool} (hready : Grammar.Heralded xs ready w) :
          Machine.Heralded ready (callsOf E') :=
        ihr rfl (fun x hm => hx x (List.mem_cons_of_mem y hm)) hready
      rw [callsOf_append]
      cases y with
      | nonterminal x =>
          have hfirst := ih (w := [.nonterminal x]) rfl (fun x' hm => hx x' (by simp_all))
            hready.first
          -- what the nonterminal has called last is not known, and nothing behind it relies on it
          exact hfirst.append (hbehind hready.2)
      | action a =>
          rw [h.callsOf_fire]
          exact ⟨hready.1, hbehind hready.2⟩
      | _ =>
          rw [h.callsOf_eq_nil (fun _ h => nomatch h) (fun _ h => nomatch h), List.nil_append]
          exact hbehind hready
  | halt _ _ ih =>
      obtain ⟨y, w, rfl, rfl, rfl⟩ := List.map_eq_cons_iff.1 hw.symm
      exact ih (w := [y]) rfl (fun x hm => hx x (by simp_all)) hready.first
  | act h =>
      obtain ⟨y, rfl, rfl⟩ := List.map_eq_singleton_iff.1 hw.symm
      have hlogs : Logs (.compute g) _ _ _ _ := .act h
      cases y with
      | nonterminal x => cases h
      | action a =>
          rw [hlogs.callsOf_fire]
          exact ⟨hready.1, trivial⟩
      | _ =>
          rw [hlogs.callsOf_eq_nil (fun _ h => nomatch h) (fun _ h => nomatch h)]
          trivial
  | astray _ _ =>
      rw [callsOf_news]
      trivial
  | @chosen _ _ _ s s' r E he hsel _ ih =>
      obtain ⟨x, _, rfl, rfl⟩ := Table.exists_entryOf hw hx he
      obtain ⟨p, hp, rfl, _, rfl⟩ := exists_production_of_select hsel
      have hbody := ih rfl (fun x hm => Grammar.mem_nonterminals_of_mem_rhs hp hm) (hg p hp)
      rw [callsOf_append, callsOf_news, List.nil_append]
      by_cases hmem : p.lhs ∈ xs
      · rw [hready.1 hmem]
        simpa [hmem] using hbody
      · simp only [hmem, decide_false] at hbody
        exact hbody.of_false ready

/-- No name is looked up in the parse of a whole program unless it has just been saved. -/
theorem History.heralded (hg : g.Heralds xs) (hstart : g.start ∉ xs)
    (h : History (.compute g) source E o) : Machine.Heralded false (callsOf E) := by
  cases h with
  | cut ha =>
      rw [callsOf_news]
      trivial
  | parsed ha hlogs =>
      rw [callsOf_append, callsOf_news, List.nil_append]
      exact hlogs.heralded hg (w := [.nonterminal g.start]) rfl (by simp [g.start_mem_nonterminals])
        ⟨fun hmem => absurd hmem hstart, trivial⟩

end Parse

/-! ## Messages -/

/-- A text begins with what its first part begins with. -/
theorem head?_toList_append {x : String} {c : Char} (h : x.toList.head? = some c) (y : String) :
    (x ++ y).toList.head? = some c := by
  rw [String.toList_append, List.head?_append, h, Option.some_or]

namespace Value.Fault

variable {f : Value.Fault} {x : String}

/-- The wordings of the other faults begin with other letters. -/
theorem eq_noName_of_message (h : f.message = "Expected a variable name") : f = .noName := by
  have hhead : f.message.toList.head? = some 'E' := by
    rw [h]
    decide
  cases f with
  | noName => rfl
  | badNumber y =>
      have hother : (badNumber y).message.toList.head? = some 'I' :=
        head?_toList_append (by decide) y
      rw [hother] at hhead
      exact absurd hhead (by decide)
  | undefinedVariable y =>
      have hother : (undefinedVariable y).message.toList.head? = some 'U' :=
        head?_toList_append (head?_toList_append (by decide) y) "."
      rw [hother] at hhead
      exact absurd hhead (by decide)
  | _ => exact absurd hhead (by decide)

theorem eq_badNumber_of_message (h : f.message = "Invalid number " ++ x) : f = .badNumber x := by
  have hhead : f.message.toList.head? = some 'I' := by
    rw [h]
    exact head?_toList_append (by decide) x
  cases f with
  | badNumber y =>
      have hlist : ("Invalid number " ++ y).toList = _ := congrArg String.toList h
      rw [String.toList_append, String.toList_append, List.append_cancel_left_eq] at hlist
      rw [String.toList_injective hlist]
  | undefinedVariable y =>
      have hother : (undefinedVariable y).message.toList.head? = some 'U' :=
        head?_toList_append (head?_toList_append (by decide) y) "."
      rw [hother] at hhead
      exact absurd hhead (by decide)
  | _ => exact absurd hhead (by decide)

end Value.Fault

namespace Grammar.Warrants

variable {g : Grammar} {d : Diagnostic} {x : String}

/-- What is reported as missing is a symbol of the grammar. -/
theorem mem_of_message (h : g.Warrants d.cause) (hkind : d.kind = .semantic)
    (hd : d.message = "Missing " ++ x) :
    x ∈ g.nonterminals ∨ ∃ p ∈ g.productions, .terminal x ∈ p.rhs := by
  obtain ⟨n, cause⟩ := d
  change cause.message = "Missing " ++ x at hd
  have hhead : cause.message.toList.head? = some 'M' := by
    rw [hd]
    exact head?_toList_append (by decide) x
  have heq {y : String} (hy : "Missing " ++ y = "Missing " ++ x) : y = x := by
    have hlist := congrArg String.toList hy
    rw [String.toList_append, String.toList_append, List.append_cancel_left_eq] at hlist
    exact String.toList_injective hlist
  cases h with
  | lexeme fault text => cases hkind
  | illegal terminal =>
      have hother : (Diagnostic.Cause.illegal terminal).message.toList.head? = some 'I' :=
        head?_toList_append (by decide) terminal
      rw [hother] at hhead
      exact absurd hhead (by decide)
  | nonterminal hy =>
      rw [heq hd] at hy
      exact .inl hy
  | terminal hp hy =>
      rw [heq hd] at hy
      exact .inr ⟨_, hp, hy⟩
  | unexpectedEnd => exact absurd hhead (by decide)
  | action fault => cases hkind

/-- Only actions that fail are reported as logical errors. -/
theorem exists_of_logical (h : g.Warrants d.cause) (hkind : d.kind = .logical) :
    ∃ f, d.cause = .action f ∧ d.message = f.message := by
  obtain ⟨n, cause⟩ := d
  cases h with
  | action f => exact ⟨f, rfl, rfl⟩
  | _ => cases hkind

end Grammar.Warrants

/-! ## Whole programs -/

/-- A run of digits that is no number is too large. -/
theorem lt_ofDigits_of_readNumber? {x : String} (hx : Token.Category.number.Admits x.toList)
    (h : readNumber? x = none) : 0x7fff_ffff_ffff_ffff < Numeral.ofDigits x.toList := by
  rw [Value.readNumber?_of_admits hx, checked_eq_none_iff, IsNumber] at h
  omega

/-- However badly a tone program is written, it is never reported that the end of the program is
missing, or that there is no name to look up.  And the text that is reported to be no number is
always a run of digits whose value is too large. -/
theorem compile_never_reports (source : String) :
    ∃ c, compile .tone source = some c ∧ ∀ d ∈ c.diagnostics,
      ¬ (d.kind = .semantic ∧ d.message = "Missing $") ∧
      ¬ (d.kind = .logical ∧ d.message = "Expected a variable name") ∧
      ∀ x, d.kind = .logical → d.message = "Invalid number " ++ x →
        (x.toList ≠ [] ∧ x.toList.all Char.isDigit) ∧
          0x7fff_ffff_ffff_ffff < Numeral.ofDigits x.toList := by
  obtain ⟨o, ho⟩ := Parse.exists_run Table.build_tone Grammar.anchored_tone.conclusive source
  obtain ⟨E, hist⟩ := Parse.exists_history ho
  have hwarrants := Parse.warranted_of_run Grammar.closing_tone Grammar.sealed_tone ho
  have hheralded : Machine.Heralded false (Parse.callsOf E) :=
    hist.heralded Grammar.heralds_tone (by decide)
  have hcalls {d : Diagnostic} (hd : d ∈ o.report.toList) (hkind : d.kind = .logical) :
      d ∈ (Machine.performAll {} (Parse.callsOf E)).2 := by
    rw [← hist.performAll_eq.2, List.mem_filter]
    exact ⟨hd, by simp [hkind]⟩
  refine ⟨.ofOutcome o, by rw [compile, ho]; rfl, fun d hd => ⟨?_, ?_, ?_⟩⟩
  · rintro ⟨hkind, hmessage⟩
    rcases (hwarrants d hd).mem_of_message (x := "$") hkind hmessage with hmem | ⟨p, hp, hmem⟩
    · exact absurd hmem (by decide)
    · have hnone : ∀ p ∈ Grammar.tone.productions, .terminal "$" ∉ p.rhs := by decide
      exact hnone p hp hmem
  · rintro ⟨hkind, hmessage⟩
    obtain ⟨f, hcause, hf⟩ := (hwarrants d hd).exists_of_logical hkind
    rw [hf] at hmessage
    rw [Value.Fault.eq_noName_of_message hmessage] at hcause
    have hfound := hheralded.cause_ne_noName (m := {}) (fun h => absurd h Bool.false_ne_true)
    exact hfound d (hcalls hd hkind) hcause
  · intro x hkind hmessage
    obtain ⟨f, hcause, hf⟩ := (hwarrants d hd).exists_of_logical hkind
    rw [hf] at hmessage
    rw [Value.Fault.eq_badNumber_of_message hmessage] at hcause
    obtain ⟨⟨a, lexeme, line⟩, hc, m, f', rfl, hfails⟩ :=
      Machine.exists_of_mem_performAll (hcalls hd hkind)
    obtain rfl : f' = .badNumber x := by simpa using hcause
    cases hfails with
    | badNumber hread =>
        have hapt : Token.Category.number.Admits lexeme.toList := hist.apt _ hc
        exact ⟨hapt, lt_ofDigits_of_readNumber? hapt hread⟩
    | add h => simp at h
    | multiply h => simp at h

/-- The least number that is too large is reported. -/
theorem compile_never_reports_large :
    ∃ c, compile .tone "9223372036854775808;" = some c ∧
      ⟨1, .action (.badNumber "9223372036854775808")⟩ ∈ c.diagnostics ∧
      0x7fff_ffff_ffff_ffff < Numeral.ofDigits "9223372036854775808".toList := by
  obtain ⟨c, hc, hreports⟩ := compile_never_reports "9223372036854775808;"
  have hdiagnostics : (compile .tone "9223372036854775808;").map Compilation.diagnostics =
      some [⟨1, .action (.badNumber "9223372036854775808")⟩, ⟨1, .action .noText⟩] := by
    decide +kernel
  rw [hc, Option.map_some, Option.some.injEq] at hdiagnostics
  have hmem : ⟨1, .action (.badNumber "9223372036854775808")⟩ ∈ c.diagnostics := by
    simp [hdiagnostics]
  exact ⟨c, hc, hmem, ((hreports _ hmem).2.2 "9223372036854775808" rfl rfl).2⟩

end ToneScript
