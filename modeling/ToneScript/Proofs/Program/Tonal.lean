import ToneScript.Proofs.Parse.Guards
import ToneScript.Proofs.Parse.Moments
import ToneScript.Proofs.Parse.Return
import ToneScript.Proofs.Token.Lexemes

/-!
# Programs deal in tones

What the evaluator holds can only stem from the tokens of a program.  Its texts are made of tone
letters, its numbers are never negative, and its names are names of variables.  The evaluator
itself checks nothing of that.  It holds because whatever is pushed is pushed from a token of the
right kind, even where tokens have been skipped or symbols been taken as read, and because all
actions keep it, also those that fail and take something from the stack that they have no use for.

## Main definitions

* `IsTones`, `IsName` — texts over the tone alphabet, and names.
* `Machine.Tonal` — an evaluator that holds nothing else.
* `Machine.Call.Apt` — a call on a text of the right kind.

## Main statements

* `Machine.Tonal.perform`, `Machine.Tonal.performAll` — apt calls keep an evaluator tonal.
* `Parse.History.apt` — all calls in the parse of a tone program are apt.
* `Parse.visits_tonal` — the evaluator is tonal at every moment of a parse.
-/

namespace ToneScript

/-! ## Texts, names and values -/

/-- The text consists of tone letters and spaces. -/
def IsTones (x : String) : Prop := x.toList.all Alphabet.isTone

/-- The text is a letter with letters and digits behind it. -/
def IsName (x : String) : Prop :=
  ∃ c r, x.toList = c :: r ∧ c.isAlpha ∧ r.all Char.isAlphanum

/-- The value is a number that is not negative, or a text over the tone alphabet. -/
def Value.Tonal : Value → Prop
  | number n => 0 ≤ n ∧ n ≤ 0x7fff_ffff_ffff_ffff
  | text x => IsTones x

variable {x y : String} {n k : Int} {u v w : Value}

theorem IsTones.append (hx : IsTones x) (hy : IsTones y) : IsTones (x ++ y) := by
  rw [IsTones, String.toList_append, List.all_append, Bool.and_eq_true]
  exact ⟨hx, hy⟩

theorem IsTones.copies (hx : IsTones x) (n : Nat) : IsTones (copies x n) := by
  rw [IsTones, toList_copies, List.all_flatten, List.all_replicate]
  split
  · rfl
  · exact hx

/-- Between the quotes of a literal there are tone letters. -/
theorem isTones_unquote (h : Token.Category.literal.Admits x.toList) : IsTones (unquote x) := by
  obtain ⟨r, hx, hr⟩ := h
  rw [List.cons_append] at hx
  simp [unquote, hx, IsTones, hr]

namespace Value

theorem tonal_of_checked (hn : 0 ≤ n) (h : checked n = some k) : (number k).Tonal := by
  obtain ⟨⟨_, hmax⟩, rfl⟩ := checked_eq_some_iff.1 h
  exact ⟨hn, hmax⟩

/-- A run of digits is read as the number that it denotes, if that is not too large. -/
theorem readNumber?_of_admits (hx : Token.Category.number.Admits x.toList) :
    readNumber? x = checked (Numeral.ofDigits x.toList) := by
  rw [readNumber?, Numeral.readInt?_of_all_isDigit hx.1 hx.2, Option.bind_some]

/-- A number that is read from digits is not negative. -/
theorem tonal_of_readNumber? (hx : Token.Category.number.Admits x.toList)
    (h : readNumber? x = some n) : (number n).Tonal := by
  rw [readNumber?_of_admits hx] at h
  exact tonal_of_checked (Int.natCast_nonneg _) h

theorem Tonal.ofRepeated (hx : IsTones x) (h : ofRepeated x n = .ok u) : u.Tonal := by
  rw [Value.ofRepeated, repeated?] at h
  split at h
  · rename_i y hy
    split at hy
    · cases hy
      cases h
      exact hx.copies _
    · cases hy
  · cases h

theorem Tonal.add (hv : v.Tonal) (hw : w.Tonal) (h : add v w = .ok u) : u.Tonal := by
  cases v with
  | number a =>
      cases w with
      | number b =>
          rw [Value.add] at h
          split at h
          · rename_i hsum
            cases h
            exact tonal_of_checked (Int.add_nonneg hv.1 hw.1) hsum
          · cases h
      | text y => cases h
  | text x =>
      cases w with
      | number b => cases h
      | text y =>
          rw [Value.add] at h
          split at h
          · cases h
            exact IsTones.append hv hw
          · cases h

theorem Tonal.mul (hv : v.Tonal) (hw : w.Tonal) (h : mul v w = .ok u) : u.Tonal := by
  cases v with
  | number a =>
      cases w with
      | number b =>
          rw [Value.mul] at h
          split at h
          · rename_i hproduct
            cases h
            exact tonal_of_checked (Int.mul_nonneg hv.1 hw.1) hproduct
          · cases h
      | text y => exact Tonal.ofRepeated hw h
  | text x =>
      cases w with
      | number b => exact Tonal.ofRepeated hv h
      | text y => cases h

end Value

/-! ## The evaluator -/

/-- The operand is such a value, or a name. -/
def Operand.Tonal : Operand → Prop
  | value v => v.Tonal
  | name x => IsName x

namespace Machine

/-- The evaluator holds nothing but tones, numbers that are not negative, and names. -/
structure Tonal (m : Machine) : Prop where
  stack : ∀ a ∈ m.stack, a.Tonal
  store : ∀ x v, m.store[x]? = some v → IsName x ∧ v.Tonal
  output : ∀ x ∈ m.output, IsTones x

variable {m : Machine} {c : Call} {cs : List Call}

theorem tonal_empty : ({} : Machine).Tonal where
  stack _ ha := absurd ha List.not_mem_nil
  store x v h := by
    have hnone : (∅ : Store)[x]? = none := Std.TreeMap.getElem?_emptyc
    exact absurd (hnone.symm.trans h) (fun h => nomatch h)
  output _ hx := nomatch hx

namespace Tonal

theorem push (h : m.Tonal) {a : Operand} (ha : a.Tonal) : (m.push a).Tonal where
  stack := List.forall_mem_cons.2 ⟨ha, h.stack⟩
  store := h.store
  output := h.output

theorem drop (h : m.Tonal) (n : Nat) : (m.drop n).Tonal where
  stack a ha := h.stack a (List.mem_of_mem_drop ha)
  store := h.store
  output := h.output

/-- A result is pushed, or none is. -/
theorem conclude (h : m.Tonal) {r : Except Value.Fault Value} (hr : ∀ v, r = .ok v → v.Tonal) :
    (m.conclude r).1.Tonal := by
  cases r with
  | ok v => exact h.push (a := .value v) (hr v rfl)
  | error f => exact h

theorem lookup (h : m.Tonal) (x : String) : (m.lookup x).1.Tonal := by
  refine h.conclude (fun v hv => ?_)
  split at hv
  · rename_i v' hx
    cases hv
    exact (h.store x v hx).2
  · cases hv

theorem combine (h : m.Tonal) {f : Value → Value → Except Value.Fault Value}
    (hf : ∀ v w u, v.Tonal → w.Tonal → f v w = .ok u → u.Tonal) (e : Value.Fault) :
    (m.combine f e).1.Tonal := by
  refine (h.drop 2).conclude (fun u hu => ?_)
  split at hu
  · rename_i rhs lhs rest hstack
    have hall := h.stack
    rw [hstack, List.forall_mem_cons, List.forall_mem_cons] at hall
    exact hf lhs rhs u hall.2.1 hall.1 hu
  · cases hu

end Tonal

/-- The call is made on a text of the kind that the action needs. -/
def Call.Apt (c : Call) : Prop :=
  match c.action with
  | .saveId => Token.Category.identifier.Admits c.lexeme.toList
  | .pushNumber => Token.Category.number.Admits c.lexeme.toList
  | .pushString => Token.Category.literal.Admits c.lexeme.toList
  | _ => True

theorem Tonal.assign (h : m.Tonal) (lexeme : String) : (m.perform .assign lexeme).1.Tonal := by
  rw [perform]
  split
  · rename_i v x rest hstack
    have hall := h.stack
    rw [hstack, List.forall_mem_cons, List.forall_mem_cons] at hall
    refine ⟨(h.drop 2).stack, fun y w hy => ?_, h.output⟩
    change (m.store.insert x v)[y]? = some w at hy
    rw [Std.TreeMap.getElem?_insert] at hy
    split at hy
    · rename_i heq
      rw [Std.LawfulEqOrd.compare_eq_iff_eq] at heq
      cases hy
      rw [← heq]
      exact ⟨hall.2.1, hall.1⟩
    · exact h.store y w hy
  · exact h.drop 2
  · exact h.drop 2

/-- Apt calls keep the evaluator tonal, whether they fail or not. -/
theorem Tonal.perform (h : m.Tonal) (hc : c.Apt) : (m.perform c.action c.lexeme).1.Tonal := by
  obtain ⟨a, lexeme, line⟩ := c
  cases a with
  | printFinalResult =>
      simp only [Machine.perform]
      split
      · rename_i x rest hstack
        have hall := h.stack
        rw [hstack, List.forall_mem_cons] at hall
        refine ⟨(h.drop 1).stack, h.store, fun y hy => ?_⟩
        cases hy
        exact hall.1
      · exact h.drop 1
  | saveId => exact h.push (a := .name lexeme) hc
  | assign => exact h.assign lexeme
  | pushNumber =>
      refine h.conclude (fun v hv => ?_)
      split at hv
      · rename_i n hn
        cases hv
        exact Value.tonal_of_readNumber? hc hn
      · cases hv
  | pushString => exact h.push (a := .value (.text _)) (isTones_unquote hc)
  | add => exact h.combine (fun _ _ _ => Value.Tonal.add) _
  | multiply => exact h.combine (fun _ _ _ => Value.Tonal.mul) _
  | lookupAndPushValue => exact h.lookup lexeme
  | lookupSavedId =>
      simp only [Machine.perform]
      split
      · exact (h.drop 1).lookup _
      · exact h.drop 1

theorem Tonal.performAll (h : m.Tonal) (hcs : ∀ c ∈ cs, c.Apt) : (m.performAll cs).1.Tonal := by
  induction cs generalizing m with
  | nil => exact h
  | cons c cs ih =>
      rw [List.forall_mem_cons] at hcs
      exact ih (h.perform hcs.1) hcs.2

end Machine

/-! ## Whole programs -/

namespace Parse

open Machine (Call)

variable {source : String} {E : List Event} {o : Outcome}

theorem mem_ofSource_of_mem_significant {k : Token} (h : k ∈ (tokenize source).significant) :
    .token k ∈ Scan.ofSource source := by
  obtain ⟨c, hc, htoken⟩ := List.mem_filterMap.1 (List.mem_of_mem_filter h)
  cases c with
  | token k' =>
      cases htoken
      exact hc
  | invalid f x n => cases htoken
  | truncated x n => cases htoken
  | done => cases htoken

/-- A call on a token of its kind is apt. -/
theorem OnToken.apt {c : Call} (h : OnToken Action.terminal? (tokenize source).significant c) :
    c.Apt := by
  have hadmits (category : Token.Category)
      (hx : category.name ∈ Action.terminal? c.action) : category.Admits c.lexeme.toList := by
    obtain ⟨k, hk, hterminal, hlexeme, _⟩ := h _ hx
    have hwf := Token.WellFormed.of_mem_ofSource (mem_ofSource_of_mem_significant hk)
    have hcategory := hwf.category_eq hterminal
    rw [hlexeme, ← hcategory]
    exact hwf
  obtain ⟨a, lexeme, line⟩ := c
  cases a with
  | saveId => exact hadmits .identifier rfl
  | pushNumber => exact hadmits .number rfl
  | pushString => exact hadmits .literal rfl
  | _ => trivial

/-- All calls in the parse of a tone program are apt. -/
theorem History.apt (h : History .tone source E o) : ∀ c ∈ callsOf E, c.Apt := by
  intro c hc
  exact (h.onToken Grammar.guards_tone c hc).apt

/-- At every moment of the parse of a tone program, well formed or not, all texts that the
evaluator holds are texts over the tone alphabet, its numbers are those of 63 bits without a
sign, and its names are a letter followed by letters and digits.  So is the output a text over
the tone alphabet, and the result of the compiler. -/
theorem visits_tonal (source : String) :
    ∃ o, run .tone source = some o ∧ (∀ E s, Visits .tone source E s → s.machine.Tonal) ∧
      (∀ x ∈ o.output, IsTones x) ∧
      ∀ c, compile .tone source = some c → ∀ x ∈ c.finalResult, IsTones x := by
  obtain ⟨o, hrun⟩ := exists_run Table.build_tone Grammar.anchored_tone.conclusive source
  obtain ⟨E, hist⟩ := exists_history hrun
  have htonal : ∀ E s, Visits .tone source E s → s.machine.Tonal := by
    intro E' s h
    have hsubset := (h.prefix_of_history hist).filterMap Event.call?
    rw [h.machine_eq]
    exact Machine.tonal_empty.performAll fun c hc => hist.apt c (hsubset.subset hc)
  have houtput : ∀ x ∈ o.output, IsTones x := by
    obtain ⟨s, hs, rfl⟩ := Option.map_eq_some_iff.1 hrun
    obtain ⟨E', h⟩ := exists_visits_of_finalState hs
    exact (htonal E' s h).output
  refine ⟨o, hrun, htonal, houtput, fun c hc x hx => ?_⟩
  rw [compile, hrun, Option.map_some, Option.some.injEq] at hc
  subst hc
  refine houtput x ?_
  rw [Compilation.ofOutcome] at hx
  split at hx
  · exact hx
  · cases hx

/-- A star is skipped before the value of a variable, which is tonal all the same. -/
theorem visits_tonal_skipped :
    ∃ E s, Visits .tone "a = * \"e\" * 2; a;" E s ∧ s.report.toList = [⟨1, .illegal "*"⟩] ∧
      s.machine.store["a"]? = some (.text "ee") ∧ s.machine.Tonal := by
  have hfinal : (finalState .tone (.ofSource "a = * \"e\" * 2; a;")).map
      (fun s => (s.report.toList, s.machine.store["a"]?)) =
        some ([⟨1, .illegal "*"⟩], some (.text "ee")) := by decide +kernel
  obtain ⟨s, hs, heq⟩ := Option.map_eq_some_iff.1 hfinal
  obtain ⟨hreport, hstore⟩ := Prod.mk.inj heq
  obtain ⟨E, h⟩ := exists_visits_of_finalState hs
  obtain ⟨o, _, htonal, _⟩ := visits_tonal "a = * \"e\" * 2; a;"
  exact ⟨E, s, h, hreport, hstore, htonal E s h⟩

end Parse

end ToneScript
