import ToneScript.CommandLine.Work
import ToneScript.Proofs.Parse.Derivation
import ToneScript.Proofs.Program.Success

/-!
# What the exit code tells

The exit code, the standard error and the standard output of a run are put together in different
places.  They agree all the same: a run fails if and only if it says why.

For a program that is compiled this is not a matter of the command alone.  The run fails if there
is no result, and then something has to be wrong with the program; and a complaint that there is no
derivation tree must not come from a run that succeeds, so there has to be a tree where nothing is
wrong.

Nothing is said of how arguments, settings and JSON are written.  The options of a run, its reader
of settings and its writer of JSON are arbitrary, and so is the system around it: reading a file may
change what is read later, as it does on the standard input.  Only where a run that prints JSON is
to succeed, the writer must not fail, which is `CommandLine.Formats.RendersJson`.

## Main definitions

* `Compilation.Complete` — there is a result where nothing is wrong, and only there, and a tree.
* `CommandLine.Output.Telling` — the exit code tells whether there is a message.
* `CommandLine.Formats.RendersJson` — the writer of JSON never fails.
* `CommandLine.Surroundings.Yields` — the settings and the source of a run can be read.

## Main statements

* `exists_complete` — every program is compiled to something complete.
* `CommandLine.Output.telling_ofCompilation`, `CommandLine.Output.exitCode_ofCompilation` — the
  exit code for a compiled program.
* `CommandLine.work_exitCode` — the exit code of a run.
-/

namespace ToneScript

variable {g : Grammar} {source : String} {c : Compilation} {s : Settings}

/-! ## Complete compilations -/

/-- If nothing is wrong with a program, then there is a result and a derivation tree; and there is
no result otherwise. -/
structure Compilation.Complete (c : Compilation) : Prop where
  finalResult_isSome_iff : c.finalResult.isSome ↔ c.diagnostics = []
  tree_isSome : c.diagnostics = [] → c.tree.isSome

namespace Parse

variable {E : List Event} {o : Outcome}

/-- If nothing is reported of a program that is not cut short, the start symbol has been derived,
so that there is a tree. -/
theorem History.tree_isSome (h : History (.compute g) source E o) (hreport : o.report.toList = [])
    (hcut : ¬ Scan.IsCut (Scan.ofSource source)) : o.tree.isSome := by
  have htakes := State.takes_ofSource source
  have hroot : (State.ofSource source).advance.2.tree = {} := State.tree_advance _
  rw [h.report_eq] at hreport
  cases h with
  | cut ha =>
      rw [ha] at htakes
      exact absurd (htakes.of_halt rfl).2 hcut
  | parsed ha hlogs =>
      rw [ha] at htakes hroot
      rw [reportOf_append, List.append_eq_nil_iff] at hreport
      have hproceeds := hlogs.proceeds htakes.ordered hreport.2
        (fun h => hcut ((htakes.isCut_iff rfl).1 h))
      rcases hlogs.grows_outside (P := fun _ => True) (fun _ => trivial) hroot
        (.inl fun _ => trivial) with ⟨e, cs, _, hfinish, _⟩ | ⟨_, hclean⟩
      · exact Option.isSome_of_eq_some hfinish
      · exact absurd hproceeds.1 hclean

/-- A tone program of which nothing is reported is not cut short. -/
theorem History.not_isCut_of_report_eq_nil (h : History .tone source E o)
    (hreport : o.report.toList = []) : ¬ Scan.IsCut (Scan.ofSource source) := by
  have hd : (tokenize source).diagnostics = [] := by
    obtain ⟨_, _, _, _, hlexical⟩ := h.parts_tokens Grammar.closing_tone (by decide) (by decide)
    rw [← hlexical, hreport, List.filter_nil]
  exact Scan.not_isCut_of_tokenize hd

end Parse

/-- Every tone program is compiled to something complete. -/
theorem exists_complete (source : String) : ∃ c, compile .tone source = some c ∧ c.Complete := by
  obtain ⟨o, hrun⟩ := Parse.exists_run Table.build_tone Grammar.anchored_tone.conclusive source
  obtain ⟨E, hist⟩ := Parse.exists_history hrun
  refine ⟨.ofOutcome o, by rw [compile, hrun, Option.map_some], ?_, ?_⟩
  · by_cases hreport : o.report.toList = []
    · have hcut := hist.not_isCut_of_report_eq_nil hreport
      have hsome := hist.output_isSome (by decide) hreport hcut
      simp [Compilation.ofOutcome, o.report.isEmpty_iff, hreport, hsome]
    · simp [Compilation.ofOutcome, o.report.isEmpty_iff, hreport]
  · intro hreport
    exact hist.tree_isSome hreport (hist.not_isCut_of_report_eq_nil hreport)

/-! ## The limit -/

namespace Settings

@[simp] theorem diagnostics_enforce (s : Settings) (c : Compilation) :
    (s.enforce c).diagnostics = c.diagnostics := by
  unfold enforce
  split <;> rfl

@[simp] theorem finalResult_enforce (s : Settings) (c : Compilation) :
    (s.enforce c).finalResult = if s.withholds c then none else c.finalResult := by
  unfold enforce
  split <;> simp_all

/-- A result is withheld only if there is a limit and it is longer. -/
theorem withholds_eq_false_iff :
    s.withholds c = false ↔
      ∀ x m, c.finalResult = some x → s.maxOutputLength = some m → x.length ≤ m := by
  cases hx : c.finalResult <;> cases hm : s.maxOutputLength <;>
    simp [withholds, allows, hx, hm]

theorem exists_limit_of_withholds (h : s.withholds c) : ∃ m, s.maxOutputLength = some m := by
  by_contra hnone
  have hm : s.maxOutputLength = none := by simpa [Option.eq_none_iff_forall_ne_some] using hnone
  have hfalse : s.withholds c = false := withholds_eq_false_iff.2 (by simp [hm])
  simp [hfalse] at h

/-- A result that is left is the result of a compilation with which nothing is wrong. -/
theorem isSuccess_enforce_iff (hc : c.Complete) :
    (s.enforce c).isSuccess ↔ c.diagnostics = [] ∧ s.withholds c = false := by
  have hresult : c.diagnostics = [] → c.finalResult.isSome := hc.finalResult_isSome_iff.2
  by_cases hw : s.withholds c
  · simp [Compilation.isSuccess, hw]
  · simpa [Compilation.isSuccess, hw] using hresult

/-- What makes a run fail once the result is printed. -/
theorem fails_eq_false_iff (hc : c.Complete) :
    (!(s.enforce c).isSuccess || s.withholds c) = false ↔
      c.diagnostics = [] ∧ s.withholds c = false := by
  simp [isSuccess_enforce_iff hc]

theorem isSome_finalResult_enforce_iff (hc : c.Complete) :
    (s.enforce c).finalResult.isSome ↔ (s.enforce c).isSuccess := by
  rw [isSuccess_enforce_iff hc, ← hc.finalResult_isSome_iff, finalResult_enforce]
  by_cases hw : s.withholds c <;> simp [hw]

end Settings

namespace CommandLine

/-! ## Outputs -/

namespace Output

variable {out : Output} {render : Compilation → Except String String} {json tree : Bool}

/-- A run succeeds or fails, and it fails if and only if there is a message. -/
structure Telling (out : Output) : Prop where
  exitCode_eq : out.exitCode = 0 ∨ out.exitCode = 1
  exitCode_eq_zero_iff : out.exitCode = 0 ↔ out.stderr = ""

/-- The messages of a run that fails exactly if there are any. -/
theorem telling_of_lines {l : List String} {b : Bool} (hstderr : out.stderr = lines l)
    (hcode : out.exitCode = if b then 1 else 0) (hl : l = [] ↔ b = false) : out.Telling := by
  constructor
  · cases b <;> simp [hcode]
  · rw [hstderr, lines_eq_empty_iff, hl, hcode]
    cases b <;> simp

theorem telling_failure (message : String) : (failure message).Telling :=
  telling_of_lines (l := [message]) (b := true) (by simp [failure]) rfl (by simp)

theorem telling_ofListing (l : Listing) : (ofListing l).Telling :=
  telling_of_lines (b := !l.diagnostics.isEmpty) rfl (by simp [ofListing]) (by simp)

theorem complaints_eq_nil_iff :
    complaints s c = [] ↔ c.diagnostics = [] ∧ s.withholds c = false := by
  by_cases hw : s.withholds c
  · obtain ⟨m, hm⟩ := Settings.exists_limit_of_withholds hw
    simp [complaints, hw, hm]
  · simp [complaints, hw]

/-- A tree is missing only where something is wrong. -/
theorem treeRemarks_eq_nil (hc : c.Complete) (hd : c.diagnostics = []) :
    treeRemarks tree c = [] := by
  have htree : c.tree.isNone = false := by
    rw [← Option.not_isSome, hc.tree_isSome hd, Bool.not_true]
  simp [treeRemarks, htree]

theorem exists_resultLines_iff :
    (∃ l, resultLines render json c = .ok l) ↔ (json → ∃ text, render c = .ok text) := by
  cases json with
  | false => simp [resultLines]
  | true => cases hrender : render c <;> simp [resultLines, hrender, Except.map]

theorem telling_ofCompilation (hc : c.Complete) :
    (ofCompilation render json tree s c).Telling := by
  cases hlines : resultLines render json (s.enforce c) with
  | error message =>
      rw [ofCompilation, hlines]
      exact telling_of_lines (b := true) rfl rfl (by simp)
  | ok result =>
      rw [ofCompilation, hlines]
      refine telling_of_lines rfl rfl ?_
      rw [List.append_eq_nil_iff, complaints_eq_nil_iff, Settings.fails_eq_false_iff hc]
      exact ⟨And.right, fun h => ⟨treeRemarks_eq_nil hc h.1, h⟩⟩

/-- The run succeeds if nothing is wrong with the program, the result keeps to the limit, and there
is JSON where it is wanted. -/
theorem exitCode_ofCompilation (hc : c.Complete) :
    (ofCompilation render json tree s c).exitCode = 0 ↔
      (c.diagnostics = [] ∧ s.withholds c = false) ∧
        (json → ∃ text, render (s.enforce c) = .ok text) := by
  rw [← exists_resultLines_iff, ← Settings.fails_eq_false_iff hc]
  cases hlines : resultLines render json (s.enforce c) with
  | error message => simp [ofCompilation, hlines]
  | ok result => simp [ofCompilation, hlines]

/-- Where neither JSON nor the tree is wanted, the result stands on a line of its own. -/
theorem stdout_ofCompilation :
    (ofCompilation render false false s c).stdout = lines (s.enforce c).finalResult.toList := by
  simp [ofCompilation, resultLines]

theorem exists_stdout_ofCompilation (hc : c.Complete)
    (hcode : (ofCompilation render false false s c).exitCode = 0) :
    ∃ x, c.finalResult = some x ∧
      (ofCompilation render false false s c).stdout = x ++ "\n" := by
  obtain ⟨⟨hd, hw⟩, _⟩ := (exitCode_ofCompilation hc).1 hcode
  obtain ⟨x, hx⟩ := Option.isSome_iff_exists.1 (hc.finalResult_isSome_iff.2 hd)
  exact ⟨x, hx, by simp [stdout_ofCompilation, hw, hx]⟩

theorem stdout_ofCompilation_eq_empty (hc : c.Complete)
    (hcode : (ofCompilation render false false s c).exitCode = 1) :
    (ofCompilation render false false s c).stdout = "" := by
  have hfails : ¬ (s.enforce c).isSuccess := by
    intro hsuccess
    have hzero : (ofCompilation render false false s c).exitCode = 0 :=
      (exitCode_ofCompilation hc).2 ⟨(Settings.isSuccess_enforce_iff hc).1 hsuccess, by simp⟩
    rw [hzero] at hcode
    cases hcode
  rw [← Settings.isSome_finalResult_enforce_iff hc, Option.not_isSome_iff_eq_none] at hfails
  rw [stdout_ofCompilation, hfails]
  rfl

end Output

/-! ## Runs -/

variable {σ Path : Type} {f : Formats} {o : Options Path}

/-- The writer of JSON never fails.  It could on a key that is no text or on a value that refuses
to be written, and there is neither in a compilation: its parts are texts, line numbers and
lists. -/
def Formats.RendersJson (f : Formats) : Prop := ∀ c, ∃ text, f.json c = .ok text

theorem telling_compileSource (f : Formats) (o : Options Path) (s : Settings) (source : String) :
    (compileSource f o s source).Telling := by
  unfold compileSource
  split
  · exact Output.telling_ofListing _
  · obtain ⟨c, hc, hcomplete⟩ := exists_complete source
    rw [hc]
    exact Output.telling_ofCompilation hcomplete

variable [PathType Path] {around : Surroundings (StateM σ) Path} {w : σ}

/-- From `w` on, a run reads these settings and, behind them, this source. -/
structure Surroundings.Yields (f : Formats) (around : Surroundings (StateM σ) Path)
    (o : Options Path) (w : σ) (s : Settings) (source : String) : Prop where
  settings_eq : f.readSettings o.settings ((around.settingsFile o).run w).1 = .ok s
  source_eq :
    File.text ((around.sourceFile o).run ((around.settingsFile o).run w).2).1 = .ok source

/-- Reading goes on from where the first reading has left the system. -/
theorem run_bind {α β : Type} (x : StateM σ α) (g : α → StateM σ β) (w : σ) :
    (x >>= g).run w = (g (x.run w).1).run (x.run w).2 := rfl

/-- Where the settings cannot be read, nothing but a message is printed. -/
theorem work_of_settings_error {message : String}
    (hs : f.readSettings o.settings ((around.settingsFile o).run w).1 = .error message) :
    ((work f around o).run w).1 = settingsFailure message := by
  rw [work, run_bind, hs]
  rfl

theorem work_of_grammar
    (hs : f.readSettings o.settings ((around.settingsFile o).run w).1 = .ok s)
    (hg : o.has .grammar) :
    ((work f around o).run w).1 = { stdout := toString Table.tone } := by
  rw [work, run_bind, hs]
  simp only [hg, if_true]
  rfl

theorem work_of_source_error {message : String}
    (hs : f.readSettings o.settings ((around.settingsFile o).run w).1 = .ok s)
    (hg : o.has .grammar = false)
    (hx : File.text ((around.sourceFile o).run ((around.settingsFile o).run w).2).1 =
      .error message) :
    ((work f around o).run w).1 = sourceFailure message := by
  rw [work, run_bind, hs]
  simp only [hg, Bool.false_eq_true, if_false]
  rw [run_bind, hx]
  rfl

theorem work_of_yields (h : around.Yields f o w s source) (hg : o.has .grammar = false) :
    ((work f around o).run w).1 = compileSource f o s source := by
  rw [work, run_bind, h.settings_eq]
  simp only [hg, Bool.false_eq_true, if_false]
  rw [run_bind, h.source_eq]
  rfl

theorem telling_work (f : Formats) (around : Surroundings (StateM σ) Path) (o : Options Path)
    (w : σ) : Output.Telling ((work f around o).run w).1 := by
  cases hs : f.readSettings o.settings ((around.settingsFile o).run w).1 with
  | error message =>
      rw [work_of_settings_error hs]
      exact Output.telling_failure _
  | ok s =>
      by_cases hg : o.has .grammar
      · rw [work_of_grammar hs hg]
        exact ⟨.inl rfl, by simp⟩
      · rw [Bool.not_eq_true] at hg
        cases hx : File.text
            ((around.sourceFile o).run ((around.settingsFile o).run w).2).1 with
        | error message =>
            rw [work_of_source_error hs hg hx]
            exact Output.telling_failure _
        | ok source =>
            rw [work_of_yields ⟨hs, hx⟩ hg]
            exact telling_compileSource f o s source

/-- Where the settings or the source cannot be read, nothing but a message is printed. -/
theorem work_of_forall_not_yields (h : ∀ s source, ¬ around.Yields f o w s source)
    (hg : o.has .grammar = false) :
    ∃ message, ((work f around o).run w).1 = .failure message := by
  cases hs : f.readSettings o.settings ((around.settingsFile o).run w).1 with
  | error message => exact ⟨_, work_of_settings_error hs⟩
  | ok s =>
      cases hx : File.text ((around.sourceFile o).run ((around.settingsFile o).run w).2).1 with
      | error message => exact ⟨_, work_of_source_error hs hg hx⟩
      | ok source => exact absurd ⟨hs, hx⟩ (h s source)

/-- A run fails if and only if it says why, whatever it is asked to do, whatever files are around
it and whatever its formats make of them.  A run that compiles a program succeeds if nothing is
wrong with the program and the result keeps to the limit; on its own, the result is then all that
is printed, and nothing is printed if the run fails. -/
theorem work_exitCode (f : Formats) (around : Surroundings (StateM σ) Path) (o : Options Path)
    (w : σ) :
    let out : Output := ((work f around o).run w).1
    (out.exitCode = 0 ∨ out.exitCode = 1) ∧
      (out.exitCode = 0 ↔ out.stderr = "") ∧
      (o.has .grammar = false → (∀ s source, ¬ around.Yields f o w s source) →
        out.exitCode = 1 ∧ out.stdout = "") ∧
      (o.has .grammar = false → o.has .tokens = false →
        ∀ s source, around.Yields f o w s source → ∃ c, compile .tone source = some c ∧
          ((o.wantsJson s → f.RendersJson) → (out.exitCode = 0 ↔ c.diagnostics = [] ∧
            ∀ x m, c.finalResult = some x → s.maxOutputLength = some m → x.length ≤ m)) ∧
          (o.wantsJson s = false → o.wantsTree s = false →
            (out.exitCode = 0 → ∃ x, c.finalResult = some x ∧ out.stdout = x ++ "\n") ∧
            (out.exitCode = 1 → out.stdout = ""))) := by
  intro out
  have htelling : out.Telling := telling_work f around o w
  refine ⟨htelling.exitCode_eq, htelling.exitCode_eq_zero_iff, ?_, ?_⟩
  · intro hg hnot
    obtain ⟨message, hout⟩ := work_of_forall_not_yields hnot hg
    simp only [out, hout]
    exact ⟨rfl, rfl⟩
  · intro hg ht s source hyields
    obtain ⟨c, hc, hcomplete⟩ := exists_complete source
    have hout : out = .ofCompilation f.json (o.wantsJson s) (o.wantsTree s) s c := by
      simp only [out, work_of_yields hyields hg, compileSource, hc, ht]
      rfl
    refine ⟨c, hc, ?_, ?_⟩
    · intro hrenders
      have hjson : o.wantsJson s → ∃ text, f.json (s.enforce c) = .ok text :=
        fun h => hrenders h _
      rw [hout, Output.exitCode_ofCompilation hcomplete, Settings.withholds_eq_false_iff]
      exact and_iff_left hjson
    · intro hjson htree
      rw [hjson, htree] at hout
      rw [hout]
      exact ⟨Output.exists_stdout_ofCompilation hcomplete,
        Output.stdout_ofCompilation_eq_empty hcomplete⟩

/-- A standard input that can be read once, and a file with a limit of three characters. -/
def limited : Surroundings (StateM String) where
  file path := pure (if path = "limits.yaml" then .ofText "max_output_len: 3\n" else .missing)
  input := modifyGet fun text => (.ofText text, "")
  home := none

/-- The settings of that file, and JSON for programs with which nothing is wrong. -/
def limitedFormats : Formats where
  settings text :=
    if text = "max_output_len: 3\n" then .ok { maxOutputLength := some 3 }
    else .error "unknown settings"
  json c := .ok ("\x7b\n  \"finalResult\": " ++ c.finalResult.elim "null" ("\"" ++ · ++ "\"") ++
    ",\n  \"compilationErrors\": []\n\x7d")

/-- A run with that limit on the source that is left on the standard input. -/
def limitedRun (flags : List Flag) (source : String) : Output :=
  ((work limitedFormats limited { settings := some "limits.yaml", flags }).run source).1

theorem yields_limited (flags : List Flag) (source : String) :
    limited.Yields limitedFormats { settings := some "limits.yaml", flags } source
      { maxOutputLength := some 3 } source := by
  constructor
  · change Settings.load limitedFormats.settings (.ofText "max_output_len: 3\n") = _
    rw [Settings.load_ofText, if_neg (by decide)]
    rfl
  · exact File.text_ofText source

/-- What is known of one compilation of a program holds of any. -/
theorem result_of_compile {x : String} (hc : compile .tone source = some c)
    (h : (compile .tone source).map (fun c => (c.diagnostics, c.finalResult)) = some ([], some x)) :
    c.diagnostics = [] ∧ c.finalResult = some x := by
  simpa [hc] using h

/-- A result of three characters is printed, in JSON as well, and one of four is not.  Without a
file of settings under the path that is given, the run fails. -/
theorem work_exitCode_limited :
    (limitedRun [] "\"oa\" + \"e\";").stdout = "oae\n" ∧
      (limitedRun [.json] "\"oa\" + \"e\";").exitCode = 0 ∧
      ((limitedRun [] "\"oa\" * 2;").exitCode = 1 ∧ (limitedRun [] "\"oa\" * 2;").stdout = "") ∧
      Output.exitCode ((work limitedFormats limited { settings := some "none.yaml" }).run "").1 =
        1 := by
  have hsum : (compile .tone "\"oa\" + \"e\";").map
      (fun c => (c.diagnostics, c.finalResult)) = some ([], some "oae") := by
    decide +kernel
  have hproduct : (compile .tone "\"oa\" * 2;").map
      (fun c => (c.diagnostics, c.finalResult)) = some ([], some "oaoa") := by
    decide +kernel
  have hrenders : limitedFormats.RendersJson := fun _ => ⟨_, rfl⟩
  refine ⟨?_, ?_, ?_, ?_⟩
  · obtain ⟨_, _, _, hcompiled⟩ :=
      work_exitCode limitedFormats limited { settings := some "limits.yaml" } "\"oa\" + \"e\";"
    obtain ⟨c, hc, hcode, hplain⟩ := hcompiled rfl rfl _ _ (yields_limited [] _)
    have hsum := result_of_compile hc hsum
    have hzero := (hcode fun _ => hrenders).2 (by simp [hsum]; decide)
    obtain ⟨x, hx, hstdout⟩ := (hplain rfl rfl).1 hzero
    rw [hsum.2] at hx
    cases hx
    exact hstdout
  · obtain ⟨_, _, _, hcompiled⟩ := work_exitCode limitedFormats limited
      { settings := some "limits.yaml", flags := [.json] } "\"oa\" + \"e\";"
    obtain ⟨c, hc, hcode, _⟩ := hcompiled rfl rfl _ _ (yields_limited [.json] _)
    have hsum := result_of_compile hc hsum
    exact (hcode fun _ => hrenders).2 (by simp [hsum]; decide)
  · obtain ⟨hone, _, _, hcompiled⟩ :=
      work_exitCode limitedFormats limited { settings := some "limits.yaml" } "\"oa\" * 2;"
    obtain ⟨c, hc, hcode, hplain⟩ := hcompiled rfl rfl _ _ (yields_limited [] _)
    have hproduct := result_of_compile hc hproduct
    have hfails := hone.resolve_left fun hzero =>
      absurd ((hcode fun _ => hrenders).1 hzero) (by simp [hproduct]; decide)
    exact ⟨hfails, (hplain rfl rfl).2 hfails⟩
  · obtain ⟨_, _, hnot, _⟩ :=
      work_exitCode limitedFormats limited { settings := some "none.yaml" } ""
    refine (hnot rfl ?_).1
    intro s source hyields
    cases hyields.settings_eq

end CommandLine

end ToneScript
