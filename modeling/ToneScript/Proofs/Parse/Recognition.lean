import ToneScript.Proofs.Parse.Depth
import ToneScript.Proofs.Parse.Termination
import ToneScript.Compile

/-!
# The programs without a token out of place

For an anchored grammar without conflicts the parser decides what it is made for: no token
of a program is out of place or missing if and only if the tokens, with the end mark behind
them, can be derived from the start symbol.

## Main statements

* `Parse.run_faultless_iff` — the outcome is without fault just for the words of the grammar.
* `Grammar.anchored_tone`, `Table.build_tone` — the tone grammar is such a grammar.
-/

namespace ToneScript

/-! ## The tone grammar -/

theorem Table.build_tone : Table.build .tone = .ok .tone := by
  have h : (Table.compute .tone).conflict? = none := by decide +kernel
  rw [Table.build, h]
  rfl

theorem Grammar.predictive_tone : Grammar.tone.Predictive :=
  (Table.build_eq_ok Table.build_tone).2

theorem Grammar.anchored_tone : Grammar.tone.Anchored where
  count_endMark := by decide
  getLast?_rhs := by decide
  endMark_notMem := by decide
  start_notMem := by decide

namespace Parse

variable {g : Grammar} {t : Table} {source : String} {s : State} {r : Flow × State}
  {ks : List Token}

/-! ## Both directions -/

/-- What a program says to the grammar: its tokens, and then its end. -/
def word (ks : List Token) : List Symbol := ks.map (fun k => .terminal k.terminal) ++ [.endMark]

/-- A parse without fault has gone through a word. -/
theorem derives_of_runs (hg : g.Anchored) (hs : s.Settled)
    (h : Runs (.compute g) [.expand (Table.compute g).start] s r) (hr : r.2.Faultless) :
    g.Derives [.nonterminal g.start] (word s.ahead) := by
  obtain ⟨_, hwalk⟩ := h.walks (w := [.nonterminal g.start]) rfl
    (fun x hx => by simp_all [g.start_mem_nonterminals]) hs.plain hr
  generalize hx : g.start = x at hwalk
  cases hwalk with
  | @nonterminal p _ _ s₁ _ hp hbody _ =>
      obtain ⟨w, hw, hinner⟩ := hg.exists_inner hp hx.symm
      rw [hw] at hbody
      obtain ⟨s₂, hbody, hend⟩ := hbody.split
      obtain ⟨ks, hks, hset, hd⟩ :=
        hbody.derives hg hinner ((s.samePlace_enter p.lhs).settled hs)
      cases hend with
      | endMark hc _ =>
          have hahead : s.ahead = ks := by
            rw [State.ahead_of_current_eq_none hset.pending_eq_nil hc, List.append_nil] at hks
            exact hks
          apply Grammar.Derives.of_nonterminal hp
          rw [hw, hahead, word]
          exact hd.append (.input rfl .nil)

/-- Every word is gone through without a fault. -/
theorem exists_runs_of_derives (hpred : g.Predictive) (hg : g.Anchored) (hs : s.Settled)
    (hf : s.Faultless) (h : g.Derives [.nonterminal g.start] (word s.ahead)) :
    ∃ r, Runs (.compute g) [.expand (Table.compute g).start] s r ∧ r.2.Faultless := by
  obtain ⟨p, hp, hlhs, hd⟩ := h.exists_production
  obtain ⟨w, hw, _⟩ := hg.exists_inner hp hlhs
  rw [hw] at hd
  obtain ⟨z₁, z₂, hz, hd₁, hd₂⟩ := hd.split
  obtain ⟨rfl⟩ : z₂ = [.endMark] := by
    cases hd₂ with
    | input _ h =>
        cases h
        rfl
    | skip hx _ => cases hx
  rw [word] at hz
  rw [← List.append_cancel_right hz] at hd₁
  have ha : (s.enter p.lhs).ahead = s.ahead ++ [] := (List.append_nil _).symm
  obtain ⟨s₁, hwalk, hset, hahead, hfault⟩ :=
    exists_walks hd₁ ((s.samePlace_enter p.lhs).settled hs) ha
  have hc := State.current_eq_none_of_ahead hahead
  have hbody : Walks g p.rhs (s.enter p.lhs) s₁.expectEnd := by
    rw [hw]
    exact hwalk.append (.endMark hc (.nil _))
  have hcend : s₁.expectEnd.current = none := (State.samePlace_expectEnd s₁).2.trans hc
  have hstart : Walks g [.nonterminal g.start] s (s₁.expectEnd.leaveAll 1) := by
    rw [← hlhs]
    exact .nonterminal hp hbody (.nil _)
  exact ⟨_, hstart.runs_start hpred hcend, (hfault hf).expectEnd hc⟩

/-! ## The whole parse -/

/-- The parser comes to an end, and it finds no token out of place and none missing if and
only if the tokens with the end mark behind them are derived from the start symbol. -/
theorem run_faultless_iff (ht : Table.build g = .ok t) (hg : g.Anchored)
    (hs : ∀ text n, Scan.truncated text n ∉ Scan.ofSource source) :
    ∃ o, run t source = some o ∧ ((∀ d ∈ o.report.toList, d.kind ≠ .semantic) ↔
      g.Rewrites [.nonterminal g.start]
        ((tokenize source).significant.map (fun k => .terminal k.terminal) ++ [.endMark])) := by
  obtain ⟨rfl, hpred⟩ := Table.build_eq_ok ht
  obtain ⟨s, ha, hadv⟩ := State.exists_advance (s := .ofSource source)
    (Scan.isPlain_of_mem_ofSource hs)
  have hahead : s.ahead = (tokenize source).significant := hadv.ahead_eq
  have hword : g.Rewrites [.nonterminal g.start] (word s.ahead) ↔
      g.Derives [.nonterminal g.start] (word s.ahead) := by
    refine Grammar.rewrites_iff_derives (w := [.nonterminal g.start]) ?_
    intro x hx
    rw [word, List.mem_append, List.mem_map, List.mem_singleton] at hx
    rcases hx with ⟨k, _, rfl⟩ | rfl <;> rfl
  obtain ⟨r, hr⟩ := exists_runs_start hpred hg s
  have hfinal := finalState_of_runs ha hr
  refine ⟨r.2.outcome, by rw [run, hfinal]; rfl, ?_⟩
  rw [← hahead]
  refine Iff.trans ?_ hword.symm
  constructor
  · intro h
    exact derives_of_runs hg hadv.settled hr h
  · intro h
    have hf : s.Faultless := hadv.faultless (fun d hd => absurd hd List.not_mem_nil)
    obtain ⟨r', hr', hfault⟩ := exists_runs_of_derives hpred hg hadv.settled hf h
    rw [finalState_of_runs ha hr'] at hfinal
    rw [Option.some.inj hfinal] at hfault
    exact hfault

/-- A parenthesis that is never closed, and a character that no lexeme begins with. -/
theorem run_faultless_iff_unclosed :
    (∀ text n, Scan.truncated text n ∉ Scan.ofSource "(\"o\" ?;") ∧
      ∃ o, run .tone "(\"o\" ?;" = some o ∧
        ((∀ d ∈ o.report.toList, d.kind ≠ .semantic) ↔
          Grammar.tone.Rewrites [.nonterminal "Program"]
            ((tokenize "(\"o\" ?;").significant.map
              (fun k => .terminal k.terminal) ++ [.endMark])) := by
  have hs : ∀ text n, Scan.truncated text n ∉ Scan.ofSource "(\"o\" ?;" := by
    intro text n h
    have hall : (Scan.ofSource "(\"o\" ?;").all Scan.isPlain := by decide +kernel
    exact absurd (List.all_eq_true.1 hall _ h) (by simp [Scan.isPlain])
  exact ⟨hs, run_faultless_iff Table.build_tone Grammar.anchored_tone hs⟩

end Parse

end ToneScript
