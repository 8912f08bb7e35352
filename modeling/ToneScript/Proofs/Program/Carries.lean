import ToneScript.Proofs.Program.Arithmetic
import ToneScript.Proofs.Parse.Walks

/-!
# What a walk does to the evaluator

A walk along a sequence of symbols takes some tokens and performs some actions.  What it
does to the evaluator depends on the tokens it takes and on nothing else, as long as every
action succeeds; after the first action that fails, only the failure counts.  `Carries`
says so in the manner of a triple: over these tokens, along these symbols, from this
evaluator to that one, where `none` stands for one that has failed.

## Main definitions

* `Parse.State.machine?` — the evaluator, unless something is wrong.
* `Parse.State.Ready` — everything ahead is a token.
* `Parse.Carries` — what a walk does to the evaluator.

## Main statements

* `Parse.Carries.cons` — two walks, one behind the other.
* `Parse.Carries.terminal`, `Parse.Carries.fire`, `Parse.Carries.nonterminal` — walks along a
  single symbol.
-/

namespace ToneScript

/-- What counts of a token. -/
def Token.word (k : Token) : Program.Word := (k.category, k.text)

/-- What a grammar matches a word against. -/
def Program.terminal (k : Word) : String := Token.terminal ⟨k.1, k.2, 0⟩

theorem Token.terminal_word (k : Token) : Program.terminal k.word = k.terminal := rfl

namespace Parse

variable {g : Grammar} {p : Production} {u v w : List Symbol} {ks ls : List Program.Word}
  {A B C : Option Machine} {s s' : State}

namespace State

/-- The evaluator, as long as nothing is wrong. -/
def machine? (s : State) : Option Machine := if s.report.toList = [] then some s.machine else none

/-- Everything ahead is a token. -/
structure Ready (s : State) : Prop where
  settled : s.Settled
  diagnostic?_eq_none : s.pending.filterMap Scan.diagnostic? = []

theorem SamePlace.ready (h : s.SamePlace s') (hs : s.Ready) : s'.Ready where
  settled := h.settled hs.settled
  diagnostic?_eq_none := by
    rw [h.1]
    exact hs.diagnostic?_eq_none

/-- Where everything ahead is a token, the way to the next one changes nothing. -/
theorem Advances.machine?_eq (h : s.Advances s')
    (hs : s.pending.filterMap Scan.diagnostic? = []) :
    s'.Ready ∧ s'.machine? = s.machine? := by
  have hs' : s'.pending.filterMap Scan.diagnostic? = [] := by
    rw [List.filterMap_eq_nil_iff] at hs ⊢
    intro c hc
    exact hs c (h.suffix.subset hc)
  have hrep := h.report_eq
  rw [lexicalReport, lexicalReport, hs, hs', List.append_nil, List.append_nil] at hrep
  refine ⟨⟨h.settled, hs'⟩, ?_⟩
  rw [machine?, machine?, hrep, h.machine_eq]

/-- An action changes the evaluator, or it fails. -/
theorem machine?_fire (s : State) (a : Action) :
    (s.fire a).machine? = s.machine?.bind fun m => m.step? a s.lexeme := by
  unfold fire machine? Machine.step?
  rcases hp : s.machine.perform a s.lexeme with ⟨m, _ | e⟩
  · by_cases h : s.report.toList = [] <;> simp [h, hp]
  · by_cases h : s.report.toList = [] <;> simp [h, hp]

end State

/-- Over the words `ks` and along the symbols `w`, a walk carries the evaluator from `A` to
`B`, whatever comes behind. -/
def Carries (g : Grammar) (w : List Symbol) (ks : List Program.Word) (A B : Option Machine) :
    Prop :=
  ∀ s rest, s.Ready → s.ahead.map Token.word = ks ++ rest → s.machine? = A →
    ∃ s', Walks g w s s' ∧ s'.Ready ∧ s'.ahead.map Token.word = rest ∧ s'.machine? = B

namespace Carries

theorem append (hu : Carries g u ks A B) (hv : Carries g v ls B C) :
    Carries g (u ++ v) (ks ++ ls) A C := by
  intro s rest hs ha hm
  rw [List.append_assoc] at ha
  obtain ⟨s₁, hwalk, hs₁, ha₁, hm₁⟩ := hu s (ls ++ rest) hs ha hm
  obtain ⟨s₂, hwalk', hs₂, ha₂, hm₂⟩ := hv s₁ rest hs₁ ha₁ hm₁
  exact ⟨s₂, hwalk.append hwalk', hs₂, ha₂, hm₂⟩

theorem cons {x : Symbol} (hx : Carries g [x] ks A B) (hw : Carries g w ls B C) :
    Carries g (x :: w) (ks ++ ls) A C :=
  hx.append hw

theorem of_eq (h : Carries g w ks A B) (hB : B = C) : Carries g w ks A C := hB ▸ h

/-- A terminal takes one token. -/
theorem terminal {t : String} {k : Program.Word} (hk : Program.terminal k = t)
    (A : Option Machine) :
    Carries g [.terminal t] [k] A A := by
  intro s rest hs ha hm
  obtain ⟨k', ks, hahead, rfl, hrest⟩ := List.map_eq_cons_iff.1 ha
  have hc := State.current_eq_of_ahead hs.settled.pending_eq_nil hahead
  obtain ⟨s', heq, hadv⟩ := State.exists_consume hs.settled.plain hc
  obtain ⟨hs', hm'⟩ := hadv.machine?_eq hs.diagnostic?_eq_none
  rw [State.ahead_eq_cons hc, ← hadv.ahead_eq] at hahead
  rw [Token.terminal_word] at hk
  subst hk
  refine ⟨s', .terminal hc heq (.nil _), hs', ?_, hm'.trans hm⟩
  rw [(List.cons.inj hahead).2]
  exact hrest

/-- An action whose effect does not depend on the token that comes next. -/
theorem action {a : Action} (h : ∀ lexeme, A.bind (fun m => m.step? a lexeme) = B) :
    Carries g [.action a] [] A B := by
  intro s rest hs ha hm
  have hplace := State.samePlace_fire s a
  refine ⟨s.fire a, .action a (.nil _), hplace.ready hs, ?_, ?_⟩
  · rw [hplace.ahead_eq]
    exact ha
  · rw [State.machine?_fire, hm]
    exact h s.lexeme

/-- An action on the token that is matched next. -/
theorem fire {a : Action} {t : String} {k : Program.Word} (hk : Program.terminal k = t)
    (A : Option Machine) :
    Carries g [.action a, .terminal t] [k] A (A.bind fun m => m.step? a k.2) := by
  intro s rest hs ha hm
  have hplace := State.samePlace_fire s a
  have hlex : s.lexeme = k.2 := by
    obtain ⟨k', ks, hahead, rfl, _⟩ := List.map_eq_cons_iff.1 ha
    rw [State.lexeme, State.current_eq_of_ahead hs.settled.pending_eq_nil hahead]
    rfl
  obtain ⟨s', hwalk, hs', ha', hm'⟩ := terminal hk _ (s.fire a) rest (hplace.ready hs)
    (by rw [hplace.ahead_eq, ha]) rfl
  refine ⟨s', .action a hwalk, hs', ha', ?_⟩
  rw [hm', State.machine?_fire, hm, hlex]

theorem epsilon (A : Option Machine) : Carries g [.epsilon] [] A A := by
  intro s rest hs ha hm
  exact ⟨s.deriveEmpty, .epsilon (.nil _), s.samePlace_deriveEmpty.ready hs, ha, hm⟩

theorem nonterminal (hp : p ∈ g.productions) (h : Carries g p.rhs ks A B) :
    Carries g [.nonterminal p.lhs] ks A B := by
  intro s rest hs ha hm
  obtain ⟨s', hwalk, hs', ha', hm'⟩ :=
    h (s.enter p.lhs) rest ((s.samePlace_enter p.lhs).ready hs) ha hm
  exact ⟨s'.leaveAll 1, .nonterminal hp hwalk (.nil _), (s'.samePlace_leaveAll 1).ready hs', ha',
    hm'⟩

end Carries

end Parse

end ToneScript
