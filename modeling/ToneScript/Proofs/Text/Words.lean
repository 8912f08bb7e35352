import Mathlib.Data.List.DropRight
import Mathlib.Data.List.Infix
import ToneScript.Text.Words

/-!
# Words between white space

Words are cut out of a text: each of them stands in it, and none of them holds white space.  Put
down with a space before each, they are cut out again as they were.  An arrow that is set off by a
space is the first one of its line if there is none before the space.

## Main definitions

* `Text.IsWord` — a text that is a single word.
* `Text.spaced` — words with a space before each.

## Main statements

* `Text.isWord_of_mem_words`, `Text.infix_of_mem_words` — what is cut out of a text.
* `Text.words_spaced` — words that are put down one behind the other.
* `Text.words_eq_singleton_iff` — the texts that hold a single word.
* `Text.splitAtArrow?_append` — an arrow that is set off.
-/

namespace ToneScript.Text

variable {p : Char → Bool} {s t l r w : List Char} {ws : List (List Char)} {c : Char}

/-- A text that is a single word. -/
def IsWord (w : List Char) : Prop := w ≠ [] ∧ ∀ c ∈ w, isSpace c = false

/-! ## Pieces -/

/-- A text without separators is one piece, and any other begins with a piece and a separator. -/
theorem splitOnP_cases (p : Char → Bool) (s : List Char) :
    ((∀ c ∈ s, p c = false) ∧ s.splitOnP p = [s]) ∨
      ∃ a c b, s = a ++ c :: b ∧ (∀ c ∈ a, p c = false) ∧ p c ∧
        s.splitOnP p = a :: b.splitOnP p := by
  have hcut := List.takeWhile_append_dropWhile (p := fun c => !p c) (l := s)
  have hbefore : ∀ c ∈ s.takeWhile (fun c => !p c), p c = false := by
    intro c hc
    simpa using List.all_eq_true.1 List.all_takeWhile c hc
  cases hd : s.dropWhile (fun c => !p c) with
  | nil =>
      rw [hd, List.append_nil] at hcut
      rw [hcut] at hbefore
      exact .inl ⟨hbefore, List.splitOnP_eq_singleton hbefore⟩
  | cons c b =>
      have hc : p c := by
        have hne : s.dropWhile (fun c => !p c) ≠ [] := by simp [hd]
        have hhead := List.head_dropWhile_not (fun c => !p c) hne
        simpa [hd] using hhead
      rw [hd] at hcut
      refine .inr ⟨_, c, b, hcut.symm, hbefore, hc, ?_⟩
      conv_lhs => rw [← hcut]
      exact List.splitOnP_append_cons_of_forall_mem hbefore c hc b

/-- A piece holds no separator, and it stands in the text. -/
theorem of_mem_splitOnP {s : List Char} (h : w ∈ s.splitOnP p) :
    (∀ c ∈ w, p c = false) ∧ w <:+: s := by
  rcases splitOnP_cases p s with ⟨hs, heq⟩ | ⟨a, c, b, hs, ha, _, heq⟩
  · rw [heq, List.mem_singleton] at h
    subst h
    exact ⟨hs, List.infix_rfl⟩
  · rw [heq, List.mem_cons] at h
    rcases h with rfl | h
    · exact ⟨ha, [], c :: b, by rw [hs]; rfl⟩
    · have hlt : b.length < s.length := by
        rw [hs, List.length_append, List.length_cons]
        omega
      obtain ⟨hw, hinfix⟩ := of_mem_splitOnP h
      refine ⟨hw, hinfix.trans ⟨a ++ [c], [], ?_⟩⟩
      rw [hs, List.append_nil, List.append_assoc]
      rfl
termination_by s.length

/-! ## Words -/

theorem isWord_of_mem_words (h : w ∈ words s) : IsWord w :=
  ⟨ne_nil_of_mem_words h, (of_mem_splitOnP (List.mem_filter.1 h).1).1⟩

theorem infix_of_mem_words (h : w ∈ words s) : w <:+: s :=
  (of_mem_splitOnP (List.mem_filter.1 h).1).2

theorem words_append_cons (hc : isSpace c) (s t : List Char) :
    words (s ++ c :: t) = words s ++ words t := by
  rw [words, List.splitOnP_append_cons s t hc, List.filter_append]
  rfl

theorem words_cons (hc : isSpace c) (t : List Char) : words (c :: t) = words t :=
  words_append_cons hc [] t

theorem words_of_isWord (h : IsWord w) : words w = [w] := by
  rw [words, List.splitOnP_eq_singleton h.2]
  exact List.filter_cons_of_pos (by simp [h.1])

/-- A text that does not begin with white space begins with its first word. -/
theorem head?_eq_of_words_eq (hc : isSpace c = false) (h : words (c :: s) = w :: ws) :
    w.head? = some c := by
  rcases splitOnP_cases isSpace (c :: s) with ⟨_, heq⟩ | ⟨a, d, b, hs, _, hd, heq⟩
  · rw [words, heq, List.filter_singleton] at h
    cases h
    rfl
  · cases a with
    | nil =>
        cases hs
        rw [hd] at hc
        cases hc
    | cons x a =>
        cases hs
        rw [words, heq, List.filter_cons_of_pos (by simp)] at h
        cases h
        rfl

theorem words_cons_ne_nil (hc : isSpace c = false) (s : List Char) : words (c :: s) ≠ [] := by
  rcases splitOnP_cases isSpace (c :: s) with ⟨_, heq⟩ | ⟨a, d, b, hs, _, hd, heq⟩
  · simp [words, heq]
  · cases a with
    | nil => simp_all
    | cons x a => simp [words, heq]

theorem words_eq_nil_iff : words s = [] ↔ ∀ c ∈ s, isSpace c := by
  induction s with
  | nil => simp [words]
  | cons c s ih =>
      by_cases hc : isSpace c
      · simp [words_cons hc, ih, hc]
      · simp only [Bool.not_eq_true] at hc
        simp [words_cons_ne_nil hc, hc]

/-- Words with a space before each. -/
def spaced (ws : List (List Char)) : List Char := ws.flatMap (' ' :: ·)

theorem spaced_cons (w : List Char) (ws : List (List Char)) :
    spaced (w :: ws) = ' ' :: (w ++ spaced ws) := rfl

theorem words_spaced (h : ∀ w ∈ ws, IsWord w) : words (spaced ws) = ws := by
  induction ws with
  | nil => rfl
  | cons w ws ih =>
      rw [List.forall_mem_cons] at h
      have hrest := ih h.2
      rw [spaced_cons, words_cons (by decide)]
      cases ws with
      | nil =>
          rw [spaced, List.flatMap_nil, List.append_nil]
          exact words_of_isWord h.1
      | cons v ws =>
          rw [spaced_cons, words_cons (by decide)] at hrest
          rw [spaced_cons, words_append_cons (by decide), words_of_isWord h.1, hrest]
          rfl

/-- Words that are put down end with the last character of the last of them. -/
theorem isSpace_getLast?_spaced (hne : ws ≠ []) (h : ∀ w ∈ ws, IsWord w) :
    ∀ c ∈ (spaced ws).getLast?, isSpace c = false := by
  obtain ⟨vs, v, rfl⟩ := (List.eq_nil_or_concat ws).resolve_left hne
  rw [List.concat_eq_append] at h ⊢
  have hv : IsWord v := h v (by simp)
  intro c hc
  have hlast : (spaced (vs ++ [v])).getLast? = v.getLast? := by
    rw [spaced, List.flatMap_append, List.flatMap_singleton,
      List.getLast?_append_of_ne_nil _ (List.cons_ne_nil _ _), List.getLast?_cons_of_ne_nil hv.1]
  rw [hlast] at hc
  exact hv.2 c (List.mem_of_mem_getLast? hc)

/-! ## White space at the ends -/

/-- A text that neither begins nor ends with white space. -/
theorem trim_eq_self (hfirst : ∀ c ∈ s.head?, isSpace c = false)
    (hlast : ∀ c ∈ s.getLast?, isSpace c = false) : trim s = s := by
  have hdrop : ∀ {s : List Char}, (∀ c ∈ s.head?, isSpace c = false) →
      s.dropWhile isSpace = s := by
    intro s h
    cases s with
    | nil => rfl
    | cons c s => exact List.dropWhile_cons_of_neg (by simp [h c rfl])
  rw [trim, hdrop hfirst, hdrop (by simpa using hlast), List.reverse_reverse]

/-- A text without the white space at its ends does not begin with white space. -/
theorem isSpace_head?_trim (s : List Char) : ∀ c ∈ (trim s).head?, isSpace c = false := by
  intro c hc
  have hprefix : trim s <+: s.dropWhile isSpace := by
    have h := List.dropWhile_suffix isSpace (l := (s.dropWhile isSpace).reverse)
    rw [← List.reverse_prefix, List.reverse_reverse] at h
    exact h
  obtain ⟨t, ht⟩ := hprefix
  have hhead : (s.dropWhile isSpace).head? = some c := by
    rw [← ht, List.head?_append, hc]
    rfl
  have hne : s.dropWhile isSpace ≠ [] := by
    intro h
    rw [h] at hhead
    cases hhead
  have hnot := List.head_dropWhile_not isSpace hne
  rw [List.head_eq_iff_head?_eq_some hne |>.2 hhead] at hnot
  exact hnot

theorem isSpace_getLast?_trim (s : List Char) : ∀ c ∈ (trim s).getLast?, isSpace c = false := by
  intro c hc
  have hne : trim s ≠ [] := by
    intro h
    simp [h] at hc
  have hlast := List.rdropWhile_last_not isSpace (s.dropWhile isSpace) hne
  rw [Option.mem_def, List.getLast?_eq_some_getLast hne, Option.some.injEq] at hc
  subst hc
  exact Bool.eq_false_iff.2 hlast

/-- White space at the ends belongs to no word. -/
theorem words_trim (s : List Char) : words (trim s) = words s := by
  have hdrop : words (s.dropWhile isSpace) = words s := by
    induction s with
    | nil => rfl
    | cons c s ih =>
        by_cases hc : isSpace c
        · rw [List.dropWhile_cons_of_pos hc, ih, words_cons hc]
        · rw [List.dropWhile_cons_of_neg hc]
  have hback : ∀ t : List Char, words (t.rdropWhile isSpace) = words t := by
    intro t
    induction t using List.reverseRecOn with
    | nil => rfl
    | append_singleton t c ih =>
        rw [List.rdropWhile_concat]
        split
        · rename_i hc
          rw [ih, words_append_cons hc]
          exact (List.append_nil _).symm
        · rfl
  exact (hback _).trans hdrop

/-- A text holds a single word if and only if the word is all that is left of it without the white
space at its ends. -/
theorem words_eq_singleton_iff : words s = [w] ↔ IsWord w ∧ trim s = w := by
  rw [← words_trim s]
  constructor
  · intro h
    have hw : IsWord w := isWord_of_mem_words (s := trim s) (by simp [h])
    refine ⟨hw, ?_⟩
    have hfirst := isSpace_head?_trim s
    have hlast := isSpace_getLast?_trim s
    generalize trim s = t at h hfirst hlast
    rcases splitOnP_cases isSpace t with ⟨ht, _⟩ | ⟨a, c, b, rfl, ha, hc, _⟩
    · have hne : t ≠ [] := by
        rintro rfl
        simp [words] at h
      simpa [words_of_isWord ⟨hne, ht⟩] using h
    · -- there is a word before the white space, and another one behind it
      have hane : a ≠ [] := by
        rintro rfl
        simp [hc] at hfirst
      have hb : words b ≠ [] := by
        rw [ne_eq, words_eq_nil_iff]
        intro hspace
        obtain ⟨d, hd⟩ : ∃ d, (c :: b).getLast? = some d := by
          simp [List.getLast?_eq_some_getLast]
        have hd' : isSpace d := by
          rcases List.mem_cons.1 (List.mem_of_getLast? hd) with rfl | hmem
          · exact hc
          · exact hspace d hmem
        simp [hlast d (by simp [hd])] at hd'
      rw [words_append_cons hc, words_of_isWord ⟨hane, ha⟩] at h
      simp [hb] at h
  · rintro ⟨hw, ht⟩
    rw [ht, words_of_isWord hw]

/-! ## Arrows -/

/-- There is an arrow in the text. -/
def HasArrow (s : List Char) : Prop := ['-', '>'] <:+: s

/-- Before the first arrow there is none. -/
theorem not_hasArrow_of_splitAtArrow? (h : splitAtArrow? s = some (l, r)) : ¬ HasArrow l := by
  fun_induction splitAtArrow? s generalizing l with
  | case1 r =>
      cases h
      exact fun h => absurd (List.infix_nil.1 h) (List.cons_ne_nil _ _)
  | case2 c t hc ih =>
      obtain ⟨⟨l', r'⟩, ht, heq⟩ := Option.map_eq_some_iff.1 h
      cases heq
      intro harrow
      rcases List.infix_cons_iff.1 harrow with hfirst | hrest
      · obtain ⟨l'', hl⟩ := hfirst
        obtain ⟨rfl, rfl⟩ := List.cons.inj hl
        exact hc _ rfl (eq_of_splitAtArrow? ht)
      · exact ih ht hrest
  | case3 => cases h

theorem isSome_splitAtArrow?_iff : (splitAtArrow? s).isSome ↔ HasArrow s := by
  constructor
  · intro h
    obtain ⟨⟨l, r⟩, hs⟩ := Option.isSome_iff_exists.1 h
    exact ⟨l, r, by simp [eq_of_splitAtArrow? hs]⟩
  · intro h
    fun_induction splitAtArrow? s with
    | case1 r => rfl
    | case2 c t hc ih =>
        rw [Option.isSome_map]
        apply ih
        rcases List.infix_cons_iff.1 h with ⟨r, hr⟩ | htail
        · obtain ⟨rfl, rfl⟩ := List.cons.inj hr
          exact absurd rfl (hc r rfl)
        · exact htail
    | case3 => simp [HasArrow] at h

/-- Behind a text without an arrow, the first arrow is the one that is set off by a space. -/
theorem splitAtArrow?_append (h : ¬ HasArrow l) (r : List Char) :
    splitAtArrow? (l ++ ' ' :: '-' :: '>' :: r) = some (l ++ [' '], r) := by
  induction l with
  | nil => simp [splitAtArrow?]
  | cons c l ih =>
      have hl : ¬ HasArrow l := fun hl => h (List.infix_cons hl)
      rw [List.cons_append, splitAtArrow?, ih hl]
      · rfl
      · rintro t rfl ht
        cases l with
        | nil => cases ht
        | cons d l =>
            obtain ⟨rfl, _⟩ := List.cons.inj ht
            exact h ⟨[], l, rfl⟩

end ToneScript.Text
