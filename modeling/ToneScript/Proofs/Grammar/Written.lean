import ToneScript.Grammar.Text
import ToneScript.Proofs.Text.Words

/-!
# The written form of a grammar

A grammar that has been read can be written down, one production a line, and read again.  The
reader takes each symbol from a single word, and the symbol is written as that word; so the only
thing that could go wrong is how the words are put down.  A word holds no white space, no
alternative holds a bar, a nonterminal that has been read holds no arrow, and it does not begin
like a comment, since the line would have been passed over.

## Main definitions

* `Grammar.Spells` — the words that a production has been read from.

## Main statements

* `Grammar.toList_toString_readSymbol` — a symbol is written as the word it has been read from.
* `Grammar.Spells.readLine?_eq` — a written production is read as itself.
* `Grammar.exists_spells` — all productions of a grammar have been read from words.
* `Grammar.ofText_text` — the written form of a grammar is read as the grammar.
-/

namespace ToneScript.Grammar

open Text (IsWord HasArrow spaced)

variable {g : Grammar} {p : Production} {ps : List Production} {qs : List (Production × Nat)}
  {line : List Char} {lines : List (List Char × Nat)} {name w : List Char}
  {ws : List (List Char)}

/-! ## Symbols and productions -/

/-- A word that is read as an action is the mark and the name of the action. -/
theorem eq_of_readAction? {a : Action} (h : readAction? w = some a) :
    w = actionMark ++ a.name.toList := by
  rw [readAction?] at h
  split at h
  · rename_i hmark
    obtain ⟨t, rfl⟩ := List.isPrefixOf_iff_prefix.1 hmark
    rw [List.drop_left] at h
    rw [Action.name_of_ofName?_eq_some h, String.toList_ofList]
  · cases h

/-- A symbol is written as the word it has been read from. -/
theorem toList_toString_readSymbol (w : List Char) : (toString (readSymbol w)).toList = w := by
  unfold readSymbol
  split
  · rename_i t
    change ("/" ++ String.ofList t).toList = '/' :: t
    simp
  dsimp only
  split
  · rename_i h
    rw [← String.toList_ofList (l := w), h]
    rfl
  split
  · rename_i h
    rw [← String.toList_ofList (l := w), h]
    rfl
  split
  · rename_i a ha
    change ("Action" ++ a.name).toList = w
    rw [eq_of_readAction? ha, String.toList_append]
    rfl
  · exact String.toList_ofList

/-- A production is written as its nonterminal, an arrow, and the words of its symbols. -/
theorem toList_toString (p : Production) :
    (toString p).toList =
      p.lhs.toList ++ ' ' :: '-' :: '>' :: spaced (p.rhs.map fun x => (toString x).toList) := by
  have hfold : ∀ (xs : List Symbol) (s : String),
      (xs.foldl (fun s x => s ++ " " ++ toString x) s).toList =
        s.toList ++ spaced (xs.map fun x => (toString x).toList) := by
    intro xs
    induction xs with
    | nil => simp [spaced]
    | cons x xs ih =>
        intro s
        rw [List.foldl_cons, ih, List.map_cons, Text.spaced_cons]
        simp
  change (p.rhs.foldl (fun s x => s ++ " " ++ toString x) (p.lhs ++ " ->")).toList = _
  rw [hfold]
  simp

/-- The production has been read from these words. -/
structure Spells (name : List Char) (ws : List (List Char)) (p : Production) : Prop where
  lhs_eq : p.lhs = String.ofList name
  rhs_eq : p.rhs = ws.map readSymbol
  isWord_name : IsWord name
  not_hasArrow : ¬ HasArrow name
  head?_ne : name.head? ≠ some '#'
  ne_nil : ws ≠ []
  isWord : ∀ w ∈ ws, IsWord w
  bar_notMem : ∀ w ∈ ws, '|' ∉ w

namespace Spells

theorem toList_toString_eq (h : Spells name ws p) :
    (toString p).toList = name ++ ' ' :: '-' :: '>' :: spaced ws := by
  rw [toList_toString, h.lhs_eq, h.rhs_eq, String.toList_ofList, List.map_map]
  simp [Function.comp_def, toList_toString_readSymbol]

/-- A written production is read as itself. -/
theorem readLine?_eq (h : Spells name ws p) : readLine? (toString p).toList = some [p] := by
  have hleft : Text.words (name ++ [' ']) = [name] := by
    rw [Text.words_append_cons (by decide), Text.words_of_isWord h.isWord_name]
    rfl
  have hbar : '|' ∉ spaced ws := by
    rw [spaced, List.mem_flatMap]
    rintro ⟨w, hw, hmem⟩
    rcases List.mem_cons.1 hmem with hspace | hmem
    · cases hspace
    · exact h.bar_notMem w hw hmem
  have hright : ((spaced ws).splitOn '|').map Text.words = [ws] := by
    rw [List.splitOn_eq_singleton hbar, List.map_singleton, Text.words_spaced h.isWord]
  have hp : p = ⟨String.ofList name, ws.map readSymbol⟩ := by
    rw [← h.lhs_eq, ← h.rhs_eq]
  rw [h.toList_toString_eq, readLine?, Text.splitAtArrow?_append h.not_hasArrow]
  simp only [hleft, hright]
  rw [if_neg (by simpa using h.ne_nil), hp]
  rfl

/-- A written production begins with the nonterminal. -/
theorem head?_toList_toString (h : Spells name ws p) :
    (toString p).toList.head? = name.head? := by
  rw [h.toList_toString_eq, List.head?_append_of_ne_nil _ h.isWord_name.1]

/-- There is no white space at the ends of a written production. -/
theorem trim_eq (h : Spells name ws p) : Text.trim (toString p).toList = (toString p).toList := by
  refine Text.trim_eq_self ?_ ?_
  · intro c hc
    rw [h.head?_toList_toString] at hc
    exact h.isWord_name.2 c (List.mem_of_mem_head? hc)
  · rw [h.toList_toString_eq]
    have hne : spaced ws ≠ [] := by
      obtain ⟨w, ws, rfl⟩ := List.exists_cons_of_ne_nil h.ne_nil
      exact List.cons_ne_nil _ _
    intro c hc
    rw [List.getLast?_append_of_ne_nil _ (List.cons_ne_nil _ _),
      List.getLast?_cons_of_ne_nil (List.cons_ne_nil _ _),
      List.getLast?_cons_of_ne_nil (List.cons_ne_nil _ _), List.getLast?_cons_of_ne_nil hne] at hc
    exact Text.isSpace_getLast?_spaced h.ne_nil h.isWord c hc

/-- A written production stands on one line. -/
theorem newline_notMem (h : Spells name ws p) : '\n' ∉ (toString p).toList := by
  have hword : ∀ {w : List Char}, IsWord w → '\n' ∉ w := by
    intro w hw hmem
    exact absurd (hw.2 _ hmem) (by decide)
  rw [h.toList_toString_eq, spaced]
  simp only [List.mem_append, List.mem_cons, List.mem_flatMap, not_or, not_exists, not_and]
  exact ⟨hword h.isWord_name, by decide, by decide, by decide,
    fun w hw => ⟨by decide, hword (h.isWord w hw)⟩⟩

/-- A written production is no comment. -/
theorem counts (h : Spells name ws p) :
    !(toString p).toList.isEmpty && (toString p).toList.head? != some '#' := by
  have hne : (toString p).toList ≠ [] := by
    rw [h.toList_toString_eq]
    exact List.append_ne_nil_of_right_ne_nil _ (List.cons_ne_nil _ _)
  rw [h.head?_toList_toString]
  simp [hne, h.head?_ne]

end Spells

/-! ## What has been read -/

/-- The productions of a line that counts have been read from words. -/
theorem exists_spells_of_readLine? (hspace : ∀ c ∈ line.head?, Text.isSpace c = false)
    (hmark : line.head? ≠ some '#') (h : readLine? line = some ps) (hp : p ∈ ps) :
    ∃ name ws, Spells name ws p := by
  unfold readLine? at h
  split at h
  · cases h
  rename_i left right hsplit
  split at h
  case h_2 => cases h
  rename_i name hname
  dsimp only at h
  split at h
  · cases h
  rename_i hne
  cases h
  obtain ⟨ws, hws, rfl⟩ := List.mem_map.1 hp
  obtain ⟨piece, hpiece, rfl⟩ := List.mem_map.1 hws
  have hmem : name ∈ Text.words left := by
    rw [hname]
    exact List.mem_singleton_self name
  have hhead : name.head? = line.head? := by
    rw [Text.eq_of_splitAtArrow? hsplit] at hspace ⊢
    cases left with
    | nil => cases hname
    | cons c left => exact Text.head?_eq_of_words_eq (hspace c rfl) hname
  have hbar : '|' ∉ piece := by
    intro hc
    simpa using (Text.of_mem_splitOnP hpiece).1 _ hc
  refine ⟨name, Text.words piece, ⟨rfl, rfl, Text.isWord_of_mem_words hmem, ?_, ?_, ?_,
    fun w hw => Text.isWord_of_mem_words hw, ?_⟩⟩
  · exact fun harrow => Text.not_hasArrow_of_splitAtArrow? hsplit
      (harrow.trans (Text.infix_of_mem_words hmem))
  · rwa [hhead]
  · exact fun hnil => hne (hnil ▸ hws)
  · exact fun w hw hc => hbar ((Text.infix_of_mem_words hw).subset hc)

/-- A production that has been read stands on one of the lines. -/
theorem exists_line_of_readLines (h : readLines lines = .ok qs) {q : Production × Nat}
    (hq : q ∈ qs) : ∃ line, (line, q.2) ∈ lines ∧ ∃ ps, readLine? line = some ps ∧ q.1 ∈ ps := by
  induction lines generalizing qs with
  | nil =>
      cases h
      cases hq
  | cons l lines ih =>
      obtain ⟨line, n⟩ := l
      unfold readLines at h
      split at h
      · cases h
      rename_i ps hline
      split at h
      · cases h
      rename_i rest hrest
      cases h
      rcases List.mem_append.1 hq with hq | hq
      · obtain ⟨p, hp, rfl⟩ := List.mem_map.1 hq
        exact ⟨line, List.mem_cons_self, ps, hline, hp⟩
      · obtain ⟨line', hmem, hex⟩ := ih hrest hq
        exact ⟨line', List.mem_cons_of_mem _ hmem, hex⟩

/-- A line that counts neither begins with white space nor like a comment. -/
theorem of_mem_countedLines {text : String} {n : Nat} (h : (line, n) ∈ countedLines text) :
    (∀ c ∈ line.head?, Text.isSpace c = false) ∧ line.head? ≠ some '#' := by
  obtain ⟨hmem, hcounts⟩ := List.mem_filter.1 h
  obtain ⟨raw, _, rfl⟩ := List.mem_map.1 (List.fst_mem_of_mem_zipIdx hmem)
  refine ⟨Text.isSpace_head?_trim raw, ?_⟩
  simp only [Bool.and_eq_true, bne_iff_ne] at hcounts
  exact hcounts.2

/-- What has been read are the productions of the lines. -/
theorem exists_readLines_of_ofText {text : String} (h : ofText text = .ok g) :
    ∃ qs, readLines (countedLines text) = .ok qs ∧ g.productions = qs.map Prod.fst := by
  unfold ofText at h
  split at h
  · cases h
  rename_i qs hread
  refine ⟨qs, hread, ?_⟩
  unfold ofProductions at h
  split at h
  · cases h
  split at h
  · cases h
  split at h
  · cases h
  · cases h
    rfl

/-- All productions of a grammar that has been read have been read from words. -/
theorem exists_spells {text : String} (h : ofText text = .ok g) (hp : p ∈ g.productions) :
    ∃ name ws, Spells name ws p := by
  obtain ⟨qs, hread, hps⟩ := exists_readLines_of_ofText h
  rw [hps, List.mem_map] at hp
  obtain ⟨q, hq, rfl⟩ := hp
  obtain ⟨line, hline, ps, hsome, hmem⟩ := exists_line_of_readLines hread hq
  obtain ⟨hspace, hmark⟩ := of_mem_countedLines hline
  exact exists_spells_of_readLine? hspace hmark hsome hmem

/-! ## Reading what has been written -/

/-- Written productions are read one a line. -/
theorem readLines_written (h : ∀ p ∈ ps, ∃ name ws, Spells name ws p) (n : Nat) :
    readLines ((ps.map fun p => (toString p).toList).zipIdx n) = .ok (ps.zipIdx n) := by
  induction ps generalizing n with
  | nil => rfl
  | cons p ps ih =>
      rw [List.forall_mem_cons] at h
      obtain ⟨⟨name, ws, hp⟩, hps⟩ := h
      rw [List.map_cons, List.zipIdx_cons, readLines, hp.readLine?_eq]
      dsimp only
      rw [ih hps]
      rfl

/-- All lines of the written form count. -/
theorem countedLines_text (h : ∀ p ∈ g.productions, ∃ name ws, Spells name ws p) :
    countedLines g.text = (g.productions.map fun p => (toString p).toList).zipIdx 1 := by
  have hcut : g.text.toList.splitOn '\n' = g.productions.map fun p => (toString p).toList := by
    have hlist : g.text.toList =
        ['\n'].intercalate (g.productions.map fun p => (toString p).toList) := by
      rw [text, String.toList_intercalate, List.map_map]
      rfl
    rw [hlist]
    refine List.splitOn_intercalate '\n' ?_ (by simpa using g.productions_ne_nil)
    intro l hl
    obtain ⟨p, hp, rfl⟩ := List.mem_map.1 hl
    obtain ⟨_, _, hs⟩ := h p hp
    exact hs.newline_notMem
  have htrim : (g.productions.map fun p => (toString p).toList).map Text.trim =
      g.productions.map fun p => (toString p).toList := by
    rw [List.map_map]
    refine List.map_congr_left fun p hp => ?_
    obtain ⟨_, _, hs⟩ := h p hp
    exact hs.trim_eq
  rw [countedLines, hcut, htrim, List.filter_eq_self]
  intro l hl
  obtain ⟨p, hp, hl⟩ := List.mem_map.1 (List.fst_mem_of_mem_zipIdx hl)
  obtain ⟨_, _, hs⟩ := h p hp
  rw [← hl]
  exact hs.counts

/-- A line break at the end makes no difference. -/
theorem countedLines_append_newline (text : String) :
    countedLines (text ++ "\n") = countedLines text := by
  have hcut : (text ++ "\n").toList.splitOn '\n' = text.toList.splitOn '\n' ++ [[]] := by
    rw [String.toList_append]
    exact List.splitOnP_append_cons (p := (· == '\n')) text.toList [] (by decide)
  rw [countedLines, hcut, List.map_append, List.zipIdx_append, List.filter_append]
  exact List.append_nil _

/-- The productions of a grammar make it up again, whatever the lines that they stand on. -/
theorem ofProductions_eq (h : qs.map Prod.fst = g.productions) : ofProductions qs = .ok g := by
  have hclosed : danglingReferences qs = [] := by
    rw [danglingReferences, List.filter_eq_nil_iff]
    rintro ⟨x, n⟩ hx
    obtain ⟨⟨p, m⟩, hp, hmem⟩ := List.mem_flatMap.1 hx
    obtain ⟨_, href, heq⟩ := List.mem_map.1 hmem
    cases heq
    have hp' : p ∈ g.productions := h ▸ List.mem_map.2 ⟨_, hp, rfl⟩
    have hdeclared := g.closed p hp' x href
    rw [h]
    simpa using hdeclared
  have hne : qs.map Prod.fst ≠ [] := h ▸ g.productions_ne_nil
  obtain ⟨ps, _, _⟩ := g
  dsimp only at h
  subst h
  unfold ofProductions
  rw [dif_neg hne]
  split
  · rename_i hfind
    rw [hclosed] at hfind
    cases hfind
  · split
    · rename_i hd
      rw [hclosed] at hd
      cases hd
    · rfl

/-- The written form of a grammar that has been read, with a line break at the end or without,
is read as that grammar; so no other grammar has been read that is written the same. -/
theorem ofText_text {text : String} (h : ofText text = .ok g) :
    ofText g.text = .ok g ∧ ofText (g.text ++ "\n") = .ok g ∧
      ∀ text' g', ofText text' = .ok g' → g'.text = g.text → g' = g := by
  have hread : ∀ {text : String} {g : Grammar}, ofText text = .ok g → ofText g.text = .ok g := by
    intro text g h
    have hps : ∀ p ∈ g.productions, ∃ name ws, Spells name ws p := fun p hp => exists_spells h hp
    rw [ofText, countedLines_text hps, readLines_written hps]
    exact ofProductions_eq (List.zipIdx_map_fst 1 g.productions)
  refine ⟨hread h, ?_, ?_⟩
  · have hsame : ofText (g.text ++ "\n") = ofText g.text := by
      rw [ofText, ofText, countedLines_append_newline]
    rw [hsame]
    exact hread h
  · intro text' g' h' hsame
    have hg := hread h'
    rw [hsame, hread h] at hg
    exact (Except.ok.inj hg).symm

/-- A text with comments, empty lines and names that come close to what reading goes by: a bar
before an arrow, an arrow and nothing at all as terminals, and nonterminals that begin like an
action and like the empty sequence. -/
def mixedText : String :=
  "# A -> B\r\n\n  A|-->\t/-> /| Actions A // $\r\nActions->ActionAdd\u00a0EPSILON/\n" ++
    " # -> B\nEPSILON/ -> EPSILON|/EPSILON\nA -> $|A\n"

/-- The grammar that stands in that text. -/
def mixed : Grammar where
  productions :=
    [⟨"A|-", [.terminal "->", .terminal ""]⟩,
     ⟨"A|-", [.nonterminal "Actions", .nonterminal "A", .terminal "/", .endMark]⟩,
     ⟨"Actions", [.action .add, .nonterminal "EPSILON/"]⟩,
     ⟨"EPSILON/", [.epsilon]⟩,
     ⟨"EPSILON/", [.terminal "EPSILON"]⟩,
     ⟨"A", [.endMark]⟩,
     ⟨"A", [.nonterminal "A"]⟩]
  productions_ne_nil := by decide
  closed := by decide

theorem ofText_text_mixed :
    ofText mixedText = .ok mixed ∧ mixed.start = "A|-" ∧
      (ofText mixed.text = .ok mixed ∧ ofText (mixed.text ++ "\n") = .ok mixed ∧
        ∀ text' g', ofText text' = .ok g' → g'.text = mixed.text → g' = mixed) := by
  have hread : ofText mixedText = .ok mixed := by decide +kernel
  exact ⟨hread, rfl, ofText_text hread⟩

end ToneScript.Grammar
