import ToneScript.Proofs.Token.Tape

/-!
# Where a scan ends

A scan looks at no more than one character behind the text that it takes, and what it hands back
begins the next lexeme or belongs to no lexeme with what has been read.  White space is as good as
any such character, and as good as the end of the text.  There are two exceptions, both at the end
of the text: a lexeme that is cut short goes on with the white space, and so does a comment.

## Main definitions

* `Scan.word?`, `Scan.message?` — what a scan comes to, wherever it is.
* `Cursor.HandsBack` — the characters that a scan leaves to the next one.
* `Cursor.Replaces` — the texts that may stand behind a scan in place of what is there.

## Main statements

* `Cursor.next_replace` — a scan finds the same with another text behind it.
* `Cursor.exists_next_append` — a scan with white space put in right behind it.
-/

namespace ToneScript

/-- Whether a scan has found white space or a comment. -/
def Scan.isTrivia : Scan → Bool
  | token k => k.isTrivia
  | _ => false

theorem Scan.isTrivia_reline (f : ℕ → ℕ) (c : Scan) : (c.reline f).isTrivia = c.isTrivia := by
  cases c <;> rfl

/-- The category and the text of a token that is found, unless it is white space or a comment. -/
def Scan.word? (c : Scan) : Option (Token.Category × String) :=
  (c.token?.filter (!·.isTrivia)).map fun k => (k.category, k.text)

theorem Scan.word?_of_isTrivia {c : Scan} (h : c.isTrivia) : c.word? = none := by
  cases c with
  | token k =>
      have hk : k.isTrivia := h
      simp [word?, token?, Option.filter_some, hk]
  | _ => rfl

theorem Scan.word?_reline (f : ℕ → ℕ) (c : Scan) : (c.reline f).word? = c.word? := by
  cases c with
  | token k =>
      have hk : (k.reline f).isTrivia = k.isTrivia := rfl
      simp only [word?, reline, token?, Option.filter_some, hk]
      split
      · rfl
      · rfl
  | _ => rfl

theorem map_significant_eq (source : String) :
    (tokenize source).significant.map (fun k => (k.category, k.text)) =
      (Scan.ofSource source).filterMap Scan.word? := by
  simp only [Listing.significant, tokenize, List.filter_filterMap, List.map_filterMap]
  rfl

/-- What a scan has to report, wherever it is. -/
def Scan.message? (c : Scan) : Option String := c.diagnostic?.map Diagnostic.message

theorem Scan.message?_of_isTrivia {c : Scan} (h : c.isTrivia) : c.message? = none := by
  cases c with
  | token k => rfl
  | _ => cases h

theorem Scan.message?_reline (f : ℕ → ℕ) (c : Scan) : (c.reline f).message? = c.message? := by
  cases c <;> rfl

theorem map_message_diagnostics_eq (source : String) :
    (tokenize source).diagnostics.map Diagnostic.message =
      (Scan.ofSource source).filterMap Scan.message? := by
  rw [tokenize, List.map_filterMap]
  rfl

/-! ## White space behind a state -/

namespace Scan.State

variable {q : State} {c d : Char}

/-- White space begins a lexeme of its own, and ends any other outside of literals and comments. -/
theorem step_of_mem_blanks : ∀ c ∈ Alphabet.blanks,
    start.step (.char c) = .blankDone ∧ digits.step (.char c) = .numberDone ∧
      name.step (.char c) = .nameDone ∧ slash.step (.char c) = .sink := by
  have hall : Alphabet.blanks.all fun c => decide (start.step (.char c) = .blankDone ∧
      digits.step (.char c) = .numberDone ∧ name.step (.char c) = .nameDone ∧
      slash.step (.char c) = .sink) := by
    decide +kernel
  intro c hc
  exact of_decide_eq_true (List.all_eq_true.1 hall c hc)

/-- White space does what any character does that is handed back. -/
theorem step_of_isBlank (hq : q.verdict = none) (hc : Alphabet.isBlank c)
    (hd : (q.step (.char d)).retracts ∨ q.step (.char d) = .sink ∧ Alphabet.isKnown d) :
    q.step (.char c) = q.step (.char d) := by
  obtain ⟨_, hdigits, hname, hslash⟩ := step_of_mem_blanks c (Alphabet.isBlank_iff.1 hc)
  cases q with
  | start =>
      rw [step_start_char] at hd
      grind [Alphabet.isKnown, Char.isAlphanum, retracts]
  | digits =>
      rw [step_digits_char] at hd
      rw [hdigits, step_digits_char]
      grind [retracts]
  | quoted =>
      rw [step_quoted_char] at hd
      grind [retracts]
  | name =>
      rw [step_name_char] at hd
      rw [hname, step_name_char]
      grind [retracts]
  | slash =>
      rw [step_slash_char] at hd
      rw [hslash, step_slash_char]
      grind [retracts]
  | remark =>
      rw [step_remark_char] at hd
      grind [retracts]
  | _ => cases hq

/-- Where the text may end, except in a comment, white space does the same and is handed back. -/
theorem step_of_isBlank_of_eof (hq : q.verdict = none) (hc : Alphabet.isBlank c)
    (hsink : q.step .eof ≠ .sink) (hremark : q ≠ .remark) :
    q.step (.char c) = q.step .eof ∧ (q.step (.char c)).retracts := by
  obtain ⟨_, hdigits, hname, _⟩ := step_of_mem_blanks c (Alphabet.isBlank_iff.1 hc)
  cases q with
  | digits => simp [hdigits, retracts]
  | name => simp [hname, retracts]
  | remark => exact absurd rfl hremark
  | _ => simp_all [verdict]

end Scan.State

namespace Cursor

variable {n m line : ℕ} {q : Scan.State} {c d : Char} {taken x t t' r w : List Char}
  {v : Scan.Verdict} {found : Scan}

/-! ## What is handed back -/

/-- In the state `q`, with `taken` read so far, the character `c` is left to the next scan. -/
def HandsBack (q : Scan.State) (taken : List Char) (c : Char) : Prop :=
  (q.step (.char c)).retracts ∨ q.step (.char c) = .sink ∧ Alphabet.isKnown c ∧ taken ≠ []

theorem munch_cons_of_verdict_eq_none (hv : (q.step (.char c)).verdict = none) :
    munch n q taken line (c :: r) =
      munch n (q.step (.char c)) (c :: taken) (lineAfter c line) r := by
  have hsink : q.step (.char c) ≠ .sink := by
    intro h
    rw [h] at hv
    cases hv
  rw [munch_cons_of_ne_sink rfl hsink, hv]

theorem munch_cons_of_handsBack (hv : (q.step (.char c)).verdict = some v)
    (h : HandsBack q taken c) :
    munch n q taken line (c :: r) =
      (v.scan (String.ofList taken.reverse) n, ⟨c :: r, line⟩) := by
  by_cases hsink : q.step (.char c) = .sink
  · rcases h with h | ⟨_, hc, htaken⟩
    · rw [hsink] at h
      cases h
    · rw [hsink] at hv
      cases hv
      simp only [munch, hsink, hc, htaken, ne_eq, not_false_eq_true, and_self, if_true]
      rfl
  · rw [munch_cons_of_ne_sink rfl hsink, hv]
    have hretracts := h.resolve_right fun h => hsink h.1
    simp only [hretracts, if_true]

theorem munch_cons_of_not_handsBack (hv : (q.step (.char c)).verdict = some v)
    (h : ¬ HandsBack q taken c) :
    munch n q taken line (c :: r) =
      (v.scan (String.ofList (c :: taken).reverse) n, ⟨r, lineAfter c line⟩) := by
  rw [HandsBack, not_or] at h
  by_cases hsink : q.step (.char c) = .sink
  · rw [hsink] at hv
    cases hv
    have hpass : ¬ (Alphabet.isKnown c ∧ taken ≠ []) := fun hc => h.2 ⟨hsink, hc⟩
    simp only [munch, hsink, hpass, if_false]
    rfl
  · rw [munch_cons_of_ne_sink rfl hsink, hv]
    simp only [h.1, Bool.false_eq_true, if_false]

/-- What is left as it was has been handed back. -/
theorem exists_verdict_of_rest_eq (h : (munch n q taken line (c :: r)).2.rest = c :: r) :
    ∃ v, (q.step (.char c)).verdict = some v ∧ HandsBack q taken c := by
  cases hv : (q.step (.char c)).verdict with
  | none =>
      rw [munch_cons_of_verdict_eq_none hv] at h
      have hle := length_rest_munch_le n (q.step (.char c)) (c :: taken) (lineAfter c line) r
      rw [h, List.length_cons] at hle
      omega
  | some v =>
      refine ⟨v, rfl, ?_⟩
      by_contra hback
      rw [munch_cons_of_not_handsBack hv hback] at h
      simp at h

/-! ## What may stand behind a scan -/

/-- What the end of the text ends, white space ends as well, unless it is a comment. -/
theorem munch_of_isBlank_of_eof (hq : q.verdict = none) (hc : Alphabet.isBlank c)
    (hcut : ∀ text n, found ≠ .truncated text n) (htrivia : found.isTrivia = false)
    (h : munch n q taken line [] = (found, ⟨[], m⟩)) :
    munch n q taken line (c :: r) = (found, ⟨c :: r, m⟩) := by
  obtain ⟨v, hv⟩ := Tape.exists_verdict_step_eof hq
  rw [Tape.munch_nil hv] at h
  have hsink : q.step .eof ≠ .sink := by
    intro hsink
    rw [if_pos hsink] at h
    cases h
    exact hcut _ _ rfl
  rw [if_neg hsink] at h
  cases h
  have hremark : q ≠ .remark := by
    rintro rfl
    rw [Scan.State.step_remark_eof] at hv
    cases hv
    cases htrivia
  obtain ⟨hstep, hretracts⟩ := Scan.State.step_of_isBlank_of_eof hq hc hsink hremark
  rw [← hstep] at hv
  exact munch_cons_of_handsBack hv (.inl hretracts)

/-- What a character ends that is handed back, white space ends as well. -/
theorem munch_of_isBlank (hq : q.verdict = none) (hc : Alphabet.isBlank c)
    (hv : (q.step (.char d)).verdict = some v) (hback : HandsBack q taken d) :
    munch n q taken line (c :: r) = (v.scan (String.ofList taken.reverse) n, ⟨c :: r, line⟩) := by
  have hd : (q.step (.char d)).retracts ∨ q.step (.char d) = .sink ∧ Alphabet.isKnown d :=
    hback.imp_right fun h => ⟨h.1, h.2.1⟩
  have hstep := Scan.State.step_of_isBlank hq hc hd
  have hknown : Alphabet.isKnown c := by simp [Alphabet.isKnown, hc]
  rw [← hstep] at hv
  apply munch_cons_of_handsBack hv
  rw [HandsBack, hstep]
  exact hback.imp_right fun h => ⟨h.1, hknown, h.2.2⟩

/-- The text `t'` may stand in place of `t` behind a scan: it begins with white space, or with
the same character. -/
def Replaces (t' t : List Char) : Prop :=
  ∃ c r, t' = c :: r ∧ (Alphabet.isBlank c ∨ t.head? = some c)

theorem munch_replace (hq : q.verdict = none) (ht : Replaces t' t)
    (hcut : ∀ text n, found ≠ .truncated text n) (htrivia : t = [] → found.isTrivia = false)
    (h : munch n q taken line (x ++ t) = (found, ⟨t, m⟩)) :
    munch n q taken line (x ++ t') = (found, ⟨t', m⟩) := by
  induction x generalizing q taken line with
  | nil =>
      obtain ⟨c, r, rfl, hc⟩ := ht
      cases t with
      | nil =>
          have hblank : Alphabet.isBlank c := by simpa using hc
          exact munch_of_isBlank_of_eof hq hblank hcut (htrivia rfl) h
      | cons d t =>
          obtain ⟨v, hv, hback⟩ := exists_verdict_of_rest_eq (congrArg (fun r => r.2.rest) h)
          rw [List.nil_append, munch_cons_of_handsBack hv hback] at h
          cases h
          rcases hc with hc | hc
          · exact munch_of_isBlank hq hc hv hback
          · cases hc
            exact munch_cons_of_handsBack hv hback
  | cons e x ih =>
      cases hv : (q.step (.char e)).verdict with
      | none =>
          rw [List.cons_append, munch_cons_of_verdict_eq_none hv] at h ⊢
          exact ih hv h
      | some v =>
          by_cases hback : HandsBack q taken e
          · rw [List.cons_append, munch_cons_of_handsBack hv hback] at h
            have hlength := congrArg (fun r => r.2.rest.length) h
            simp only [List.length_cons, List.length_append] at hlength
            omega
          · rw [List.cons_append, munch_cons_of_not_handsBack hv hback] at h ⊢
            obtain ⟨rfl, hrest⟩ := Prod.mk.inj h
            obtain ⟨hx, rfl⟩ := Cursor.mk.inj hrest
            rw [List.append_left_eq_self.1 hx, List.nil_append]

/-- A scan that is not cut short finds the same with something else behind it that begins like
what is there, or with white space.  At the end of the text this is not so of comments. -/
theorem next_replace (hx : x ≠ []) (ht : Replaces t' t)
    (hcut : ∀ text n, found ≠ .truncated text n) (htrivia : t = [] → found.isTrivia = false)
    (h : next ⟨x ++ t, n⟩ = (found, ⟨t, m⟩)) : next ⟨x ++ t', n⟩ = (found, ⟨t', m⟩) := by
  cases x with
  | nil => exact absurd rfl hx
  | cons e x => exact munch_replace rfl ht hcut htrivia h

/-- A comment goes on to the end of its line, and no further. -/
theorem exists_munch_remark (n : ℕ) (taken : List Char) (line : ℕ) (w : List Char) :
    ∃ text y z, w = y ++ z ∧ '\n' ∉ y.dropLast ∧
      munch n .remark taken line w = (.token ⟨.comment, text, n⟩, ⟨z, line + y.count '\n'⟩) := by
  induction w generalizing taken line with
  | nil =>
      have hv : (Scan.State.remark.step .eof).verdict = some (.token .comment) := by
        rw [Scan.State.step_remark_eof]
        rfl
      refine ⟨String.ofList taken.reverse, [], [], rfl, List.not_mem_nil, ?_⟩
      rw [Tape.munch_nil hv, Scan.State.step_remark_eof]
      rfl
  | cons c w ih =>
      have hstep := Scan.State.step_remark_char c
      by_cases hc : c = '\n'
      · subst hc
        rw [if_pos (by decide)] at hstep
        have hv : (Scan.State.remark.step (.char '\n')).verdict = some (.token .comment) := by
          rw [hstep]
          rfl
        have hpass : ¬ HandsBack .remark taken '\n' := by
          rw [HandsBack, hstep]
          simp [Scan.State.retracts]
        exact ⟨_, ['\n'], w, rfl, List.not_mem_nil, munch_cons_of_not_handsBack hv hpass⟩
      · rw [if_neg (by simpa using hc)] at hstep
        have hv : (Scan.State.remark.step (.char c)).verdict = none := by
          rw [hstep]
          rfl
        obtain ⟨text, y, z, rfl, hy, h⟩ := ih (c :: taken) (lineAfter c line)
        refine ⟨text, c :: y, z, rfl, ?_, ?_⟩
        · cases y with
          | nil => exact List.not_mem_nil
          | cons d y =>
              rw [List.dropLast_cons_cons]
              exact List.not_mem_cons_of_ne_of_not_mem (Ne.symm hc) hy
        · rw [munch_cons_of_verdict_eq_none hv, hstep, h, lineAfter, if_neg hc,
            List.count_cons_of_ne hc]

/-- White space or a comment at the end of the text stays white space or a comment.  It may take
in some of the text behind it, but not more than a line. -/
theorem exists_munch_append (hq : q.verdict = none) (hf : found.isTrivia)
    (h : munch n q taken line x = (found, ⟨[], m⟩)) (w : List Char) :
    ∃ f y z, w = y ++ z ∧ '\n' ∉ y.dropLast ∧ f.isTrivia ∧
      munch n q taken line (x ++ w) = (f, ⟨z, m + y.count '\n'⟩) := by
  induction x generalizing q taken line with
  | nil =>
      obtain ⟨v, hv⟩ := Tape.exists_verdict_step_eof hq
      rw [Tape.munch_nil hv] at h
      obtain ⟨rfl, hrest⟩ := Prod.mk.inj h
      cases hrest
      cases q with
      | remark =>
          obtain ⟨text, y, z, hw, hy, hmunch⟩ := exists_munch_remark n taken m w
          exact ⟨.token ⟨.comment, text, n⟩, y, z, hw, hy, rfl, hmunch⟩
      | digits =>
          rw [Scan.State.step_digits_eof] at hv hf
          cases hv
          cases hf
      | name =>
          rw [Scan.State.step_name_eof] at hv hf
          cases hv
          cases hf
      | start => simp [Scan.isTrivia] at hf
      | quoted => simp [Scan.isTrivia] at hf
      | slash => simp [Scan.isTrivia] at hf
      | _ => cases hq
  | cons e x ih =>
      cases hv : (q.step (.char e)).verdict with
      | none =>
          rw [munch_cons_of_verdict_eq_none hv] at h
          rw [List.cons_append, munch_cons_of_verdict_eq_none hv]
          exact ih hv h
      | some v =>
          by_cases hback : HandsBack q taken e
          · rw [munch_cons_of_handsBack hv hback] at h
            cases h
          · rw [munch_cons_of_not_handsBack hv hback] at h
            cases h
            exact ⟨_, [], w, rfl, List.not_mem_nil, hf, munch_cons_of_not_handsBack hv hback⟩

/-- With white space behind its slice a scan finds the same, or something that is not heard either
way, and leaves what is left of the white space. -/
theorem exists_next_append (hw : ∀ c ∈ w, Alphabet.isBlank c) (hx : x ≠ [])
    (hcut : ∀ text n, found ≠ .truncated text n) (h : next ⟨x ++ t, n⟩ = (found, ⟨t, m⟩)) :
    ∃ f y z, w = y ++ z ∧ (f = found ∨ f.isTrivia ∧ found.isTrivia) ∧
      next ⟨x ++ (w ++ t), n⟩ = (f, ⟨z ++ t, m + y.count '\n'⟩) := by
  by_cases hend : t = [] ∧ found.isTrivia
  · obtain ⟨rfl, hf⟩ := hend
    cases x with
    | nil => exact absurd rfl hx
    | cons e x =>
        rw [List.append_nil] at h
        obtain ⟨f, y, z, hyz, _, htrivia, hmunch⟩ := exists_munch_append rfl hf h w
        refine ⟨f, y, z, hyz, .inr ⟨htrivia, hf⟩, ?_⟩
        rw [List.append_nil, List.append_nil]
        exact hmunch
  · cases w with
    | nil => exact ⟨found, [], [], rfl, .inl rfl, h⟩
    | cons b w =>
        have hb := hw b List.mem_cons_self
        have htrivia : t = [] → found.isTrivia = false := by
          intro ht
          simpa [ht] using hend
        refine ⟨found, [], b :: w, rfl, .inl rfl, ?_⟩
        exact next_replace hx ⟨b, w ++ t, rfl, .inl hb⟩ hcut htrivia h

theorem next_of_isBlank (hc : Alphabet.isBlank c) (r : List Char) (n : ℕ) :
    next ⟨c :: r, n⟩ = (.token ⟨.blank, String.ofList [c], n⟩, ⟨r, n + [c].count '\n'⟩) := by
  have hstep := (Scan.State.step_of_mem_blanks c (Alphabet.isBlank_iff.1 hc)).1
  have hv : (Scan.State.start.step (.char c)).verdict = some (.token .blank) := by
    rw [hstep]
    rfl
  have hpass : ¬ HandsBack .start [] c := by
    rw [HandsBack, hstep]
    simp [Scan.State.retracts]
  rw [next_cons, munch_cons_of_not_handsBack hv hpass]
  have hline := lineAfter_count n [] c
  rw [List.count_nil, Nat.add_zero, List.nil_append] at hline
  rw [hline]
  rfl

end Cursor

end ToneScript
