import ToneScript.Proofs.Parse.Indifference
import ToneScript.Proofs.Token.Insertion

/-!
# White space in a program

White space can be put into a program wherever a scan begins, and nothing becomes of it: the
tokens and the faults of the text are the same, further down, and so are the result, the
derivation tree and everything that is found wrong.

## Main statements

* `Scan.starts_length_iff` — whether a scan begins at the end of a program.
* `Scan.heard_insertAt` — what is heard of a program with white space put in.
* `compile_insertAt` — what becomes of a program with white space put in.
-/

namespace ToneScript

variable {source w : String} {p : ℕ} {f : ℕ → ℕ}

/-! ## What the scanner finds -/

namespace Scan

/-- At the end of a program a scan begins unless a lexeme is cut short there. -/
theorem starts_length_iff (source : String) :
    Starts source source.length ↔ ¬ IsCut (ofSource source) := by
  obtain ⟨xs, hxs, hsource⟩ := exists_slices_ofSource source
  constructor
  · rintro ⟨i, hlength, hcut⟩ ⟨text, n, hmem⟩
    rw [hsource, List.mem_map] at hmem
    obtain ⟨j, _, hj⟩ := hmem
    have hrest : (place source i).rest = [] := by
      rw [← List.length_eq_zero_iff]
      omega
    by_cases hij : j < i
    · exact hcut j hij text n hj
    · have hdone := (foundAt_of_rest_eq_nil hrest (Nat.le_of_not_lt hij)).1
      rw [hj] at hdone
      cases hdone
  · intro h
    refine ⟨xs.length, ?_, ?_⟩
    · simp [hxs.place_eq]
    · intro j hj text n hfound
      refine h ⟨text, n, ?_⟩
      rw [hsource, List.mem_map]
      exact ⟨j, List.mem_range.2 hj, hfound⟩

theorem reline_reline (f g : ℕ → ℕ) (c : Scan) : (c.reline g).reline f = c.reline (f ∘ g) := by
  cases c <;> rfl

/-- Whatever passes over white space and comments, and does not tell a line from the one that the
line ends of the white space make of it, makes the same of both programs. -/
theorem filterMap_insertAt {α : Type} {f : Scan → Option α} (hp : Starts source p)
    (hw : ∀ c ∈ w.toList, Alphabet.isBlank c) (htrivia : ∀ c, c.isTrivia → f c = none)
    (hline : ∀ c, f (c.reline (· + w.toList.count '\n')) = f c) :
    (ofSource (insertAt source p w)).filterMap f = (ofSource source).filterMap f := by
  have hitems (source : String) :
      (ofSource source).filterMap f = (items source).filterMap (f ∘ Prod.snd) := by
    rw [← List.filterMap_map, map_snd_items, List.filterMap_filter]
    congr 1
    funext c
    by_cases hc : c.isTrivia
    · simp [hc, htrivia c hc]
    · simp [hc]
  rw [hitems, hitems, items_insertAt hp hw, List.filterMap_map]
  congr 1
  funext m
  rw [Function.comp_apply, Function.comp_apply, moved]
  split
  · exact hline m.2
  · rfl

theorem heard_insertAt (hp : Starts source p) (hw : ∀ c ∈ w.toList, Alphabet.isBlank c)
    (hf : ∀ n, f (n + w.toList.count '\n') = f n) :
    heard true f (ofSource (insertAt source p w)) = heard true f (ofSource source) := by
  rw [heard, heard, ← List.filterMap_eq_map, List.filterMap_filter, List.filterMap_filter]
  refine filterMap_insertAt hp hw ?_ ?_
  · intro c hc
    cases c <;> simp_all [isTrivia, isHeard]
  · intro c
    have hcomp : f ∘ (· + w.toList.count '\n') = f := funext hf
    have hheard : (c.reline (· + w.toList.count '\n')).isHeard true = c.isHeard true := by
      cases c <;> rfl
    rw [hheard, Function.comp_apply, Function.comp_apply, reline_reline, hcomp]

end Scan

/-- The same tokens, by category and text, come from both programs. -/
theorem map_significant_insertAt (hp : Scan.Starts source p)
    (hw : ∀ c ∈ w.toList, Alphabet.isBlank c) :
    (tokenize (insertAt source p w)).significant.map (fun k => (k.category, k.text)) =
      (tokenize source).significant.map fun k => (k.category, k.text) := by
  rw [map_significant_eq, map_significant_eq]
  exact Scan.filterMap_insertAt hp hw (fun _ => Scan.word?_of_isTrivia) (Scan.word?_reline _)

/-- The same messages come from both programs. -/
theorem map_diagnostics_insertAt (hp : Scan.Starts source p)
    (hw : ∀ c ∈ w.toList, Alphabet.isBlank c) :
    (tokenize (insertAt source p w)).diagnostics.map Diagnostic.message =
      (tokenize source).diagnostics.map Diagnostic.message := by
  rw [map_message_diagnostics_eq, map_message_diagnostics_eq]
  exact Scan.filterMap_insertAt hp hw (fun _ => Scan.message?_of_isTrivia) (Scan.message?_reline _)

theorem endLine_insertAt (source : String) (p : ℕ) (w : String) :
    endLine (insertAt source p w) = endLine source + w.toList.count '\n' := by
  have hcount : source.toList.count '\n' =
      (source.toList.take p).count '\n' + (source.toList.drop p).count '\n' := by
    rw [← List.count_append, List.take_append_drop]
  rw [endLine, endLine, insertAt, String.toList_ofList, hcount]
  simp only [List.count_append]
  omega

/-! ## What becomes of the program -/

theorem Report.heard_true (f : ℕ → ℕ) (r : Report) :
    r.heard true f = r.toList.map (Diagnostic.reline f) := by
  have hheard : Diagnostic.isHeard true = fun _ => true := rfl
  rw [heard, hheard, List.filter_true]

/-- White space where a scan of a program begins.  What is found apart from white space and
comments is the same, and what is found from there on stands as many characters and lines further
down; so the tokens and the messages of the scanner are the same.  Compiled as tone programs, both
have the same result, the same tree, and the same found wrong with them, on the same lines if there
is no line end in the white space. -/
theorem compile_insertAt (hp : Scan.Starts source p) (hw : ∀ c ∈ w.toList, Alphabet.isBlank c) :
    Scan.items (insertAt source p w) = (Scan.items source).map (Scan.moved p w.toList) ∧
      (tokenize (insertAt source p w)).significant.map (fun k => (k.category, k.text)) =
        (tokenize source).significant.map (fun k => (k.category, k.text)) ∧
      (tokenize (insertAt source p w)).diagnostics.map Diagnostic.message =
        (tokenize source).diagnostics.map Diagnostic.message ∧
      ∃ c c', compile .tone source = some c ∧ compile .tone (insertAt source p w) = some c' ∧
        c'.finalResult = c.finalResult ∧ c'.tree = c.tree ∧
        c'.diagnostics.map (fun d => (d.kind, d.message)) =
          c.diagnostics.map (fun d => (d.kind, d.message)) ∧
        ('\n' ∉ w.toList → c'.diagnostics = c.diagnostics) := by
  refine ⟨Scan.items_insertAt hp hw, map_significant_insertAt hp hw,
    map_diagnostics_insertAt hp hw, ?_⟩
  obtain ⟨o, hr⟩ := Parse.exists_run Table.build_tone Grammar.anchored_tone.conclusive source
  -- all lines are forgotten first
  obtain ⟨o', hr', houtput, htree, hreport⟩ :=
    Parse.exists_run_of_heard_eq (Scan.heard_insertAt (f := fun _ => 0) hp hw fun _ => rfl) rfl hr
  rw [Report.heard_true, Report.heard_true] at hreport
  refine ⟨.ofOutcome o, .ofOutcome o', by rw [compile, hr]; rfl, by rw [compile, hr']; rfl, ?_,
    htree, ?_, ?_⟩
  · have hempty : o'.report.isEmpty = o.report.isEmpty := by
      have hlength := congrArg List.length hreport
      rw [Bool.eq_iff_iff, Report.isEmpty_iff, Report.isEmpty_iff]
      simp only [List.length_map] at hlength
      simp only [← List.length_eq_zero_iff, hlength]
    simp only [Compilation.ofOutcome, hempty, houtput]
  · have hcauses := congrArg (List.map fun d : Diagnostic => (d.kind, d.message)) hreport
    simpa [Function.comp_def, Diagnostic.reline, Diagnostic.kind, Diagnostic.message,
      Compilation.ofOutcome] using hcauses
  · intro hnewline
    have hcount : w.toList.count '\n' = 0 := List.count_eq_zero.2 hnewline
    have hlast : id (endLine (insertAt source p w)) = id (endLine source) := by
      rw [endLine_insertAt, hcount, Nat.add_zero]
    obtain ⟨o₁, hr₁, _, _, hreport⟩ := Parse.exists_run_of_heard_eq
      (Scan.heard_insertAt (f := id) hp hw fun n => by rw [hcount, Nat.add_zero]) hlast hr
    rw [hr'] at hr₁
    cases hr₁
    have hid : Diagnostic.reline id = id := rfl
    rwa [Report.heard_true, Report.heard_true, hid, List.map_id, List.map_id] at hreport

/-- Behind a comment at the very end of a program, where the comment takes in the line end. -/
theorem compile_insertAt_comment :
    Scan.Starts "1; // one" 9 ∧ (∀ c ∈ "\n\t".toList, Alphabet.isBlank c) ∧
      insertAt "1; // one" 9 "\n\t" = "1; // one\n\t" ∧
      Scan.items "1; // one\n\t" = (Scan.items "1; // one").map (Scan.moved 9 "\n\t".toList) ∧
      ∃ c c', compile .tone "1; // one" = some c ∧ compile .tone "1; // one\n\t" = some c' ∧
        c'.finalResult = c.finalResult ∧ c'.tree = c.tree := by
  have hp : Scan.Starts "1; // one" 9 :=
    (Scan.starts_length_iff "1; // one").2 (Scan.not_isCut_of_all_isPlain (by decide +kernel))
  have hw : ∀ c ∈ "\n\t".toList, Alphabet.isBlank c :=
    List.all_eq_true.1 (show "\n\t".toList.all Alphabet.isBlank by decide +kernel)
  have hinsert : insertAt "1; // one" 9 "\n\t" = "1; // one\n\t" := by decide +kernel
  obtain ⟨hitems, _, _, c, c', hc, hc', hresult, htree, _⟩ := compile_insertAt hp hw
  rw [hinsert] at hitems hc'
  exact ⟨hp, hw, hinsert, hitems, c, c', hc, hc', hresult, htree⟩

end ToneScript
