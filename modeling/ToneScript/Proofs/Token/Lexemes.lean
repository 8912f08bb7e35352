import ToneScript.Proofs.Token.Direct
import ToneScript.Token.Listing

/-!
# The text of a token

What the scanner takes for a token of some category has the form of that category: only digits
make a number, and only tone letters stand between the quotes of a literal.  The automaton sees
to it, because in each of its states the text read so far is the beginning of such a lexeme.

## Main definitions

* `Token.Category.Admits` — the texts of the lexemes of a category.
* `Scan.State.Reads` — the texts read so far, state by state.

## Main statements

* `Cursor.admits_of_munch` — a token that is found has a text of its category.
* `Token.WellFormed.of_mem_ofSource` — so has every token of a program.
* `Token.WellFormed.category_eq` — what a grammar calls a token tells its category.
* `Cursor.next_literal` — tone letters between quotes are a literal.
-/

namespace ToneScript

/-- The texts of the lexemes of a category. -/
def Token.Category.Admits : Token.Category → List Char → Prop
  | number, x => x ≠ [] ∧ x.all Char.isDigit
  | identifier, x => ∃ c r, x = c :: r ∧ c.isAlpha ∧ r.all Char.isAlphanum
  | symbol, x => ∃ c, x = [c] ∧ Alphabet.isSymbol c
  | comment, x => ∃ r, (x = '/' :: '/' :: r ∨ x = '/' :: '/' :: r ++ ['\n']) ∧ '\n' ∉ r
  | blank, x => ∃ c, x = [c] ∧ Alphabet.isBlank c
  | literal, x => ∃ r, x = '"' :: r ++ ['"'] ∧ r.all Alphabet.isTone

/-- The text of the token is one of its category. -/
def Token.WellFormed (k : Token) : Prop := k.category.Admits k.text.toList

/-! ## The automaton -/

namespace Scan.State

variable {s : State} {x : List Char}

/-- The text read so far when the automaton is in this state.  In a final state it reads no
further. -/
def Reads : State → List Char → Prop
  | start, x => x = []
  | digits, x => Token.Category.number.Admits x
  | name, x => Token.Category.identifier.Admits x
  | quoted, x => ∃ r, x = '"' :: r ∧ r.all Alphabet.isTone
  | slash, x => x = ['/']
  | remark, x => ∃ r, x = '/' :: '/' :: r ∧ '\n' ∉ r
  | _, _ => False

/-- The state may be reached by the character `c` behind the text `x`. -/
def Suits (t : State) (x : List Char) (c : Char) : Prop :=
  match t.verdict with
  | none => t.Reads (x ++ [c])
  | some (.token k) => k.Admits (if t.retracts then x else x ++ [c])
  | some (.reject _) => True

/-- One character on, the text read so far is one of the state that is reached, or it is a
lexeme. -/
theorem Reads.suits_step (h : s.Reads x) (c : Char) : (s.step (.char c)).Suits x c := by
  cases s with
  | start =>
      cases h
      rw [step_start_char]
      split
      · rename_i hc
        exact ⟨List.cons_ne_nil _ _, by simpa using hc⟩
      split
      · rename_i hc
        exact ⟨[], by simpa using hc, rfl⟩
      split
      · rename_i hc
        exact ⟨c, [], rfl, hc, rfl⟩
      split
      · rename_i hc
        exact ⟨c, rfl, hc⟩
      split
      · rename_i hc
        exact congrArg (· :: []) (by simpa using hc)
      split
      · rename_i hc
        exact ⟨c, rfl, hc⟩
      · trivial
  | digits =>
      obtain ⟨hne, hall⟩ := h
      rw [step_digits_char]
      split
      · rename_i hc
        exact ⟨by simp, by simp [hall, hc]⟩
      split
      · trivial
      split
      · exact ⟨hne, hall⟩
      · trivial
  | quoted =>
      obtain ⟨r, rfl, hr⟩ := h
      rw [step_quoted_char]
      split
      · rename_i hc
        exact ⟨r ++ [c], rfl, by simp [hr, hc]⟩
      split
      · rename_i hc
        rw [beq_iff_eq] at hc
        exact ⟨r, by rw [hc]; rfl, hr⟩
      split
      · trivial
      · trivial
  | name =>
      obtain ⟨d, r, rfl, hd, hr⟩ := h
      rw [step_name_char]
      split
      · rename_i hc
        exact ⟨d, r ++ [c], rfl, hd, by simp [hr, hc]⟩
      split
      · exact ⟨d, r, rfl, hd, hr⟩
      · trivial
  | slash =>
      cases h
      rw [step_slash_char]
      split
      · rename_i hc
        rw [beq_iff_eq] at hc
        exact ⟨[], by rw [hc]; rfl, List.not_mem_nil⟩
      · trivial
  | remark =>
      obtain ⟨r, rfl, hr⟩ := h
      rw [step_remark_char]
      split
      · rename_i hc
        rw [beq_iff_eq] at hc
        exact ⟨r, .inr (by rw [hc]; rfl), hr⟩
      · rename_i hc
        rw [beq_iff_eq] at hc
        refine ⟨r ++ [c], rfl, ?_⟩
        rw [List.mem_append, List.mem_singleton, not_or]
        exact ⟨hr, fun h => hc h.symm⟩
  | _ => cases h

/-- At the end of the text, what has been read is a lexeme, or it is cut short. -/
theorem Reads.admits_eof {k : Token.Category} (h : s.Reads x)
    (hv : (s.step .eof).verdict = some (.token k)) : k.Admits x := by
  cases s with
  | start => cases hv
  | digits =>
      cases hv
      exact h
  | quoted => cases hv
  | name =>
      cases hv
      exact h
  | slash => cases hv
  | remark =>
      cases hv
      obtain ⟨r, hx, hr⟩ := h
      exact ⟨r, .inl hx, hr⟩
  | _ => cases h

end Scan.State

/-! ## Scans -/

theorem Scan.Verdict.eq_of_scan_eq_token {v : Verdict} {x : String} {n : ℕ} {k : Token}
    (h : v.scan x n = .token k) : v = .token k.category ∧ k.text = x := by
  cases v with
  | token c =>
      cases h
      exact ⟨rfl, rfl⟩
  | reject f => cases h

namespace Cursor

variable {s : Scan.State} {n line : ℕ} {taken rest : List Char} {k : Token}

/-- A token that is found has a text of its category. -/
theorem admits_of_munch (h : s.Reads taken.reverse)
    (hm : (munch n s taken line rest).1 = .token k) : k.WellFormed := by
  induction rest generalizing s taken line with
  | nil =>
      simp only [munch] at hm
      split at hm
      · cases hm
      · split at hm
        · rename_i v hv
          obtain ⟨rfl, htext⟩ := Scan.Verdict.eq_of_scan_eq_token hm
          rw [Token.WellFormed, htext, String.toList_ofList]
          exact h.admits_eof hv
        · cases hm
  | cons c rest ih =>
      have hsuits := h.suits_step c
      generalize ht : s.step (.char c) = t at hsuits
      by_cases hsink : t = .sink
      · simp only [munch, ht, hsink] at hm
        split at hm
        · cases hm
        · cases hm
      · rw [munch_cons_of_ne_sink ht hsink] at hm
        rw [Scan.State.Suits] at hsuits
        cases hv : t.verdict with
        | none =>
            rw [hv] at hm hsuits
            exact ih (by rwa [List.reverse_cons]) hm
        | some v =>
            rw [hv] at hm hsuits
            by_cases hr : t.retracts
            · simp only [hr, if_true] at hm hsuits
              obtain ⟨rfl, htext⟩ := Scan.Verdict.eq_of_scan_eq_token hm
              rwa [Token.WellFormed, htext, String.toList_ofList]
            · simp only [hr, if_false, Bool.false_eq_true] at hm hsuits
              obtain ⟨rfl, htext⟩ := Scan.Verdict.eq_of_scan_eq_token hm
              rwa [Token.WellFormed, htext, String.toList_ofList, List.reverse_cons]

/-- What holds of every scan from any place holds of all scans. -/
theorem forall_mem_scans {P : Scan → Prop} (h : ∀ k : Cursor, k.rest ≠ [] → P k.next.1)
    (k : Cursor) : ∀ c ∈ k.scans, P c := by
  by_cases hk : k.rest = []
  · simp [scans, trace_of_rest_eq_nil hk]
  · have hlt := length_rest_next hk
    have ih := forall_mem_scans h k.next.2
    rw [scans, trace_of_rest_ne_nil hk, List.map_cons, List.forall_mem_cons]
    exact ⟨h k hk, ih⟩
termination_by k.rest.length

end Cursor

namespace Token

variable {k : Token}

/-- Every token of a program has a text of its category. -/
theorem WellFormed.of_mem_ofSource {source : String} (h : .token k ∈ Scan.ofSource source) :
    k.WellFormed := by
  have hall : ∀ c ∈ Scan.ofSource source, ∀ k, c = .token k → k.WellFormed := by
    refine Cursor.forall_mem_scans ?_ _
    rintro ⟨_ | ⟨c, rest⟩, n⟩ hne k hk
    · exact absurd rfl hne
    · have hstart : Scan.State.start.Reads ([] : List Char).reverse := rfl
      rw [Cursor.next_cons] at hk
      exact Cursor.admits_of_munch hstart hk
  exact hall _ h k rfl

theorem Category.name_injective {c d : Category} (h : c.name = d.name) : c = d := by
  have hc := ofName?_name c
  rw [h, ofName?_name] at hc
  exact (Option.some.inj hc).symm

/-- A token that a grammar calls by the name of a category is of this category: no symbol has a
text as long as that. -/
theorem WellFormed.category_eq {c : Category} (h : k.WellFormed) (hk : k.terminal = c.name) :
    k.category = c := by
  by_cases hsymbol : k.category = .symbol
  · rw [WellFormed, hsymbol] at h
    obtain ⟨d, hd, _⟩ := h
    have htext : k.terminal = k.text := by
      unfold terminal
      rw [hsymbol]
    have hlength : c.name.toList.length = 1 := by rw [← hk, htext, hd, List.length_singleton]
    cases c <;> exact absurd hlength (by decide)
  · rw [terminal_of_ne_symbol hsymbol] at hk
    exact Category.name_injective hk

end Token

/-! ## Literals -/

theorem Scan.eq_of_finding_eq_token {s : Scan} {k : Token} (h : s.finding = .token k) :
    s = .token k := by
  cases s with
  | token t => exact congrArg Scan.token (Finding.token.inj h)
  | invalid f x n => cases h
  | truncated x n => cases h
  | done => cases h

namespace Cursor

variable {x rest : List Char}

/-- The token that the direct scanner finds is found. -/
theorem next_of_direct {t : List Char} {n : ℕ} {k : Token.Category}
    (h : direct ⟨t, n⟩ = found n k x rest) :
    next ⟨t, n⟩ = (.token ⟨k, String.ofList x, n⟩, ⟨rest, n + x.count '\n'⟩) := by
  rw [← next_eq_direct] at h
  obtain ⟨hfinding, hrest⟩ := Prod.mk.inj h
  exact Prod.ext (Scan.eq_of_finding_eq_token hfinding) hrest

theorem direct_literal (hx : x.all Alphabet.isTone) (n : ℕ) :
    direct ⟨'"' :: (x ++ '"' :: rest), n⟩ = found n .literal ('"' :: x ++ ['"']) rest := by
  have hall : ∀ c ∈ x, Alphabet.isTone c := List.all_eq_true.1 hx
  have hquote : ¬ Alphabet.isTone '"' := by decide
  have hdirect : direct ⟨'"' :: (x ++ '"' :: rest), n⟩ =
      directLiteral n ('"' :: (x ++ '"' :: rest).takeWhile Alphabet.isTone)
        ((x ++ '"' :: rest).dropWhile Alphabet.isTone) := rfl
  rw [hdirect, List.takeWhile_append_of_pos hall, List.takeWhile_cons_of_neg hquote,
    List.dropWhile_append_of_pos hall, List.dropWhile_cons_of_neg hquote, List.append_nil,
    directLiteral, if_pos rfl]

/-- Tone letters between quotes are a literal, however many they are. -/
theorem next_literal (hx : x.all Alphabet.isTone) (n : ℕ) :
    next ⟨'"' :: (x ++ '"' :: rest), n⟩ =
      (.token ⟨.literal, String.ofList ('"' :: x ++ ['"']), n⟩, ⟨rest, n⟩) := by
  have hcount : ('"' :: x ++ ['"']).count '\n' = 0 := by
    have hmem : '\n' ∉ x := fun h => absurd (List.all_eq_true.1 hx _ h) (by decide)
    simpa [List.count_eq_zero] using hmem
  rw [next_of_direct (direct_literal hx n), hcount, Nat.add_zero]

end Cursor

end ToneScript
