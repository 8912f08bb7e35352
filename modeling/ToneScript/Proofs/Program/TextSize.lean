import ToneScript.Proofs.Program.Compilation
import ToneScript.Proofs.Program.Tonal
import ToneScript.Proofs.Token.Slices

/-!
# How long texts get

Sums and products of texts are bounded: a text that would be longer than `maxTextSize` is not
built.  Assigning a text, looking it up and printing it only hand it on.  The one other way in is
a literal, and there nothing is checked.  So the texts that a program deals in are bounded as far
as its literals are, and a literal that is too long gets through to the result.

## Main definitions

* `Machine.AllTexts` — all texts that an evaluator holds have some property.
* `Program.Tones.program`, `Program.Tones.source` — the program that is nothing but a literal.
* `Parse.BoundedOrLiteral` — the texts that a program can come to.

## Main statements

* `Machine.AllTexts.perform`, `Machine.AllTexts.performAll` — what texts have that are bounded or
  pushed from literals, all texts have.
* `compile_source` — a literal on its own is compiled, however long it is.
* `Parse.visits_bounded` — at every moment of a parse a text is bounded, or a literal; and all
  are bounded if and only if those are that are pushed.
-/

namespace ToneScript

variable {P : String → Prop} {x : String} {v w : Value}

/-! ## The operators -/

namespace Program

theorem utf8ByteSize_le_of_bounded {s : String} (h : bounded s = some (.text x)) :
    x.utf8ByteSize ≤ maxTextSize := by
  rw [bounded] at h
  split at h
  · cases h
    assumption
  · cases h

theorem fit_ne_text (n : Int) (x : String) : fit n ≠ some (.text x) := by
  rw [fit]
  split <;> simp

theorem utf8ByteSize_le_of_plus (h : plus v w = some (.text x)) :
    x.utf8ByteSize ≤ maxTextSize := by
  cases v <;> cases w
  · exact absurd h (fit_ne_text _ x)
  · cases h
  · cases h
  · exact utf8ByteSize_le_of_bounded h

theorem utf8ByteSize_le_of_times (h : times v w = some (.text x)) :
    x.utf8ByteSize ≤ maxTextSize := by
  cases v <;> cases w
  · exact absurd h (fit_ne_text _ x)
  · exact utf8ByteSize_le_of_bounded h
  · exact utf8ByteSize_le_of_bounded h
  · cases h

end Program

/-- A sum is bounded. -/
theorem Value.utf8ByteSize_le_of_add (h : add v w = .ok (.text x)) :
    x.utf8ByteSize ≤ maxTextSize := by
  have hplus := Program.toOption_add v w
  rw [h] at hplus
  exact Program.utf8ByteSize_le_of_plus hplus.symm

/-- A product is bounded. -/
theorem Value.utf8ByteSize_le_of_mul (h : mul v w = .ok (.text x)) :
    x.utf8ByteSize ≤ maxTextSize := by
  have htimes := Program.toOption_mul v w
  rw [h] at htimes
  exact Program.utf8ByteSize_le_of_times htimes.symm

/-! ## The evaluator -/

namespace Machine

/-- All texts on the stack, in the store and in the output have the property. -/
structure AllTexts (P : String → Prop) (m : Machine) : Prop where
  stack : ∀ x, Operand.value (.text x) ∈ m.stack → P x
  store : ∀ (y : String) x, m.store[y]? = some (.text x) → P x
  output : ∀ x ∈ m.output, P x

variable {m : Machine} {c : Call} {cs : List Call}

theorem allTexts_empty (P : String → Prop) : ({} : Machine).AllTexts P where
  stack _ hx := absurd hx List.not_mem_nil
  store y x h := by
    have hnone : (∅ : Store)[y]? = none := Std.TreeMap.getElem?_emptyc
    exact absurd (hnone.symm.trans h) (fun h => nomatch h)
  output _ hx := nomatch hx

namespace AllTexts

theorem push (h : m.AllTexts P) {a : Operand} (ha : ∀ x, a = .value (.text x) → P x) :
    (m.push a).AllTexts P where
  stack x hx := by
    rcases List.mem_cons.1 hx with hx | hx
    · exact ha x hx.symm
    · exact h.stack x hx
  store := h.store
  output := h.output

theorem drop (h : m.AllTexts P) (n : Nat) : (m.drop n).AllTexts P where
  stack x hx := h.stack x (List.mem_of_mem_drop hx)
  store := h.store
  output := h.output

/-- A result is pushed, or none is. -/
theorem conclude (h : m.AllTexts P) {r : Except Value.Fault Value}
    (hr : ∀ x, r = .ok (.text x) → P x) : (m.conclude r).1.AllTexts P := by
  cases r with
  | error f => exact h
  | ok v =>
      refine h.push (fun x hx => hr x ?_)
      cases hx
      rfl

theorem lookup (h : m.AllTexts P) (y : String) : (m.lookup y).1.AllTexts P := by
  refine h.conclude (fun x hx => ?_)
  split at hx
  · rename_i v hv
    cases hx
    exact h.store y x hv
  · cases hx

theorem combine (h : m.AllTexts P) {f : Value → Value → Except Value.Fault Value}
    (hf : ∀ v w x, f v w = .ok (.text x) → P x) (e : Value.Fault) :
    (m.combine f e).1.AllTexts P := by
  refine (h.drop 2).conclude (fun x hx => ?_)
  split at hx
  · exact hf _ _ x hx
  · cases hx

theorem assign (h : m.AllTexts P) (lexeme : String) :
    (m.perform .assign lexeme).1.AllTexts P := by
  rw [Machine.perform]
  split
  · rename_i v y rest hstack
    refine ⟨(h.drop 2).stack, fun z x hx => ?_, h.output⟩
    change (m.store.insert y v)[z]? = some (.text x) at hx
    rw [Std.TreeMap.getElem?_insert] at hx
    split at hx
    · cases hx
      exact h.stack x (by simp [hstack])
    · exact h.store z x hx
  · exact h.drop 2
  · exact h.drop 2

/-- What holds of the texts within the limit, and of a text that is pushed from a literal, holds
of all texts still, whether the action fails or not. -/
theorem perform (h : m.AllTexts P) (hlimit : ∀ x, x.utf8ByteSize ≤ maxTextSize → P x)
    (hc : c.action = .pushString → P (unquote c.lexeme)) :
    (m.perform c.action c.lexeme).1.AllTexts P := by
  obtain ⟨a, lexeme, line⟩ := c
  cases a with
  | printFinalResult =>
      simp only [Machine.perform]
      split
      · rename_i x rest hstack
        refine ⟨(h.drop 1).stack, h.store, fun y hy => ?_⟩
        cases hy
        exact h.stack x (by simp [hstack])
      · exact h.drop 1
  | saveId =>
      refine h.push (fun x hx => ?_)
      cases hx
  | assign => exact h.assign lexeme
  | pushNumber =>
      refine h.conclude (fun x hx => ?_)
      split at hx <;> cases hx
  | pushString =>
      refine h.push (fun x hx => ?_)
      cases hx
      exact hc rfl
  | add => exact h.combine (fun _ _ x hx => hlimit x (Value.utf8ByteSize_le_of_add hx)) _
  | multiply => exact h.combine (fun _ _ x hx => hlimit x (Value.utf8ByteSize_le_of_mul hx)) _
  | lookupAndPushValue => exact h.lookup lexeme
  | lookupSavedId =>
      simp only [Machine.perform]
      split
      · exact (h.drop 1).lookup _
      · exact h.drop 1

theorem performAll (h : m.AllTexts P) (hlimit : ∀ x, x.utf8ByteSize ≤ maxTextSize → P x)
    (hcs : ∀ c ∈ cs, c.action = .pushString → P (unquote c.lexeme)) :
    (m.performAll cs).1.AllTexts P := by
  induction cs generalizing m with
  | nil => exact h
  | cons c cs ih =>
      rw [List.forall_mem_cons] at hcs
      exact ih (h.perform hlimit hcs.1) hcs.2

end AllTexts

end Machine

/-! ## A literal on its own -/

namespace Program.Tones

/-- The program that is nothing but a literal. -/
def program (s : Tones) : Program where
  statements := []
  last := .sum (.product (.literal s) []) []

/-- Its text: the literal and a semicolon. -/
def source (s : Tones) : String := "\"" ++ s.text ++ "\"" ++ ";"

theorem scans_source (s : Tones) :
    Scan.ofSource s.source =
      [.token ⟨.literal, "\"" ++ s.text ++ "\"", 1⟩, .token ⟨.symbol, ";", 1⟩] := by
  have htext : String.ofList ('"' :: s.text.toList ++ ['"']) = "\"" ++ s.text ++ "\"" := by
    simp [← String.toList_inj]
  have hstart : Cursor.ofString s.source = ⟨'"' :: (s.text.toList ++ '"' :: [';']), 1⟩ := by
    simp [Cursor.ofString, source]
  have hmark : Cursor.scans ⟨[';'], 1⟩ = [.token ⟨.symbol, ";", 1⟩] := by decide +kernel
  rw [Scan.ofSource, hstart, Cursor.scans_of_rest_ne_nil (List.cons_ne_nil _ _),
    Cursor.next_literal s.isTone, htext, hmark]

/-- The letter `o`, over and over. -/
def long (n : Nat) : Tones where
  text := String.join (List.replicate n "o")
  isTone := by simp [String.toList_join, Alphabet.isTone, Alphabet.toneLetters]

theorem utf8ByteSize_long (n : Nat) : (long n).text.utf8ByteSize = n := by
  rw [long, utf8ByteSize_join_replicate]
  exact Nat.one_mul n

end Program.Tones

/-- A literal on its own is compiled to what stands between its quotes, however long that is. -/
theorem compile_source (s : Program.Tones) :
    ∃ c, compile .tone s.source = some c ∧ c.finalResult = some s.text ∧ c.diagnostics = [] := by
  have hd : (tokenize s.source).diagnostics = [] := by
    rw [tokenize, s.scans_source]
    rfl
  have hp : (tokenize s.source).significant.map (fun k => (k.category, k.text)) =
      s.program.spelling := by
    rw [tokenize, s.scans_source]
    rfl
  obtain ⟨o, hrun, hout, _⟩ := Parse.exists_run_program s.program hd hp
  obtain ⟨hfinal, hclean⟩ := Parse.finalResult_eq hout
  refine ⟨.ofOutcome o.outcome, ?_, hfinal, hclean.2 rfl⟩
  rw [compile, hrun]
  rfl

/-! ## Whole programs -/

namespace Parse

variable {t : Table} {source : String} {E : List Event} {o : Outcome}

/-- What the calls on literals keep, the evaluator keeps at every moment. -/
theorem History.allTexts (h : History .tone source E o)
    (hlimit : ∀ x, x.utf8ByteSize ≤ maxTextSize → P x)
    (hcalls : ∀ c ∈ callsOf E, c.action = .pushString → P (unquote c.lexeme)) :
    ∀ E' s, Visits .tone source E' s → s.machine.AllTexts P := by
  intro E' s hs
  have hsubset := (hs.prefix_of_history h).filterMap Event.call?
  rw [hs.machine_eq]
  exact (Machine.allTexts_empty P).performAll hlimit fun c hc => hcalls c (hsubset.subset hc)

/-- A text that is pushed is the inside of a literal of the program. -/
theorem History.exists_literal (h : History .tone source E o) {c : Machine.Call}
    (hc : c ∈ callsOf E) (ha : c.action = .pushString) :
    ∃ k ∈ (tokenize source).significant, k.category = .literal ∧ c.lexeme = k.text := by
  obtain ⟨k, hk, hterminal, hlexeme, _⟩ :=
    h.onToken Grammar.guards_tone c hc Token.Category.literal.name (by rw [ha]; rfl)
  have hwf := Token.WellFormed.of_mem_ofSource (mem_ofSource_of_mem_significant hk)
  exact ⟨k, hk, hwf.category_eq hterminal, hlexeme⟩

/-- The result of the compiler is held by the evaluator at the end. -/
theorem exists_visits_of_finalResult {c : Compilation} (hc : compile t source = some c)
    (hx : x ∈ c.finalResult) : ∃ E s, Visits t source E s ∧ x ∈ s.machine.output := by
  obtain ⟨o, hrun, rfl⟩ := Option.map_eq_some_iff.1 hc
  obtain ⟨s, hs, rfl⟩ := Option.map_eq_some_iff.1 hrun
  obtain ⟨E, h⟩ := exists_visits_of_finalState hs
  refine ⟨E, s, h, ?_⟩
  rw [Compilation.ofOutcome] at hx
  split at hx
  · exact hx
  · cases hx

/-- The text is within the limit, or it stands between the quotes of a literal of the program. -/
def BoundedOrLiteral (source x : String) : Prop :=
  x.utf8ByteSize ≤ maxTextSize ∨
    ∃ k ∈ (tokenize source).significant, k.category = .literal ∧ x = unquote k.text

/-- At every moment of the parse of a tone program, well formed or not, a text that the evaluator
holds is within the limit, or it stands between the quotes of a literal of the program; and so is
the result of the compiler.  The limit is kept at all moments if and only if it is kept by all
literals that are pushed. -/
theorem visits_bounded (source : String) :
    ∃ o E, run .tone source = some o ∧ History .tone source E o ∧
      (∀ E' s, Visits .tone source E' s → s.machine.AllTexts (BoundedOrLiteral source)) ∧
      (∀ c, compile .tone source = some c → ∀ x ∈ c.finalResult, BoundedOrLiteral source x) ∧
      ((∀ E' s, Visits .tone source E' s →
          s.machine.AllTexts fun x => x.utf8ByteSize ≤ maxTextSize) ↔
        ∀ c ∈ callsOf E, c.action = .pushString →
          (unquote c.lexeme).utf8ByteSize ≤ maxTextSize) := by
  obtain ⟨o, hrun⟩ := exists_run Table.build_tone Grammar.anchored_tone.conclusive source
  obtain ⟨E, hist⟩ := exists_history hrun
  have hcalls : ∀ c ∈ callsOf E, c.action = .pushString →
      BoundedOrLiteral source (unquote c.lexeme) := by
    intro c hc ha
    obtain ⟨k, hk, hcategory, hlexeme⟩ := hist.exists_literal hc ha
    exact .inr ⟨k, hk, hcategory, by rw [hlexeme]⟩
  have htexts := hist.allTexts (P := BoundedOrLiteral source) (fun x hx => .inl hx) hcalls
  refine ⟨o, E, hrun, hist, htexts, ?_, ?_, ?_⟩
  · intro c hc x hx
    obtain ⟨E', s, hs, hout⟩ := exists_visits_of_finalResult hc hx
    exact (htexts E' s hs).output x hout
  · -- right behind the call, what was pushed is on top of the stack
    intro hall c hc ha
    obtain ⟨E', s, m, hs, hm⟩ := hist.exists_visits hc
    refine (hall E' s hs).stack _ ?_
    rw [hm, ha]
    exact List.mem_cons_self
  · exact fun hpushed => hist.allTexts (fun _ hx => hx) hpushed

/-- Literals are not held to the limit: one that is a byte longer is compiled without complaint,
and the evaluator ends up with it. -/
theorem compile_long_exceeds : ∃ c x,
    compile .tone (Program.Tones.long (maxTextSize + 1)).source = some c ∧ c.isSuccess ∧
      c.finalResult = some x ∧ maxTextSize < x.utf8ByteSize ∧
      ∃ E s, Visits .tone (Program.Tones.long (maxTextSize + 1)).source E s ∧
        x ∈ s.machine.output := by
  obtain ⟨c, hc, hresult, hclean⟩ := compile_source (.long (maxTextSize + 1))
  have hsize : maxTextSize < (Program.Tones.long (maxTextSize + 1)).text.utf8ByteSize := by
    rw [Program.Tones.utf8ByteSize_long]
    exact Nat.lt_succ_self maxTextSize
  refine ⟨c, _, hc, ?_, hresult, hsize, exists_visits_of_finalResult hc hresult⟩
  rw [Compilation.isSuccess, hclean, hresult]
  rfl

end Parse

end ToneScript
