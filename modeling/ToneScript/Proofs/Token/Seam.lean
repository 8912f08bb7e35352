import ToneScript.Proofs.Parse.Order
import ToneScript.Proofs.Token.Boundary

/-!
# Two programs on lines of their own

A program is put behind another one with a line end in between.  The scans of the first come out
as they were, and so do those of the second, further down: the line end begins a lexeme of its
own, or it ends a comment, in which case the comment takes it in.  Only a literal that is never
closed would go on in the second program, and so the first must not be cut short.

## Main statements

* `Cursor.next_append_newline` — one scan of the first program.
* `Cursor.scans_add` — the scans from a place, further down.
* `Scan.filterMap_ofSource_append` — what is found in both together.
-/

namespace ToneScript

namespace Cursor

variable {n m : ℕ} {x y t : List Char} {found : Scan}

/-! ## One scan -/

/-- A scan of the first text finds the same with a line end and another text behind it.  Where it
comes to the end of the first text with white space or a comment, it finds one of these again. -/
theorem next_append_newline (hx : x ≠ []) (hcut : ∀ text n, found ≠ .truncated text n)
    (h : next ⟨x ++ y, n⟩ = (found, ⟨y, m⟩)) (t : List Char) :
    next ⟨x ++ (y ++ '\n' :: t), n⟩ = (found, ⟨y ++ '\n' :: t, m⟩) ∨
      y = [] ∧ found.isTrivia ∧ ∃ f k, next ⟨x ++ (y ++ '\n' :: t), n⟩ = (f, k) ∧ f.isTrivia ∧
        (k = ⟨'\n' :: t, m⟩ ∨ k = ⟨t, m + 1⟩) := by
  have hblank : Alphabet.isBlank '\n' := by decide
  cases y with
  | cons c y => exact .inl (next_replace hx ⟨c, _, rfl, .inr rfl⟩ hcut (fun h => by cases h) h)
  | nil =>
      by_cases hf : found.isTrivia
      · obtain ⟨e, x, rfl⟩ := List.exists_cons_of_ne_nil hx
        rw [List.append_nil, next_cons] at h
        obtain ⟨f, y, z, hyz, hy, htrivia, hmunch⟩ := exists_munch_append rfl hf h ('\n' :: t)
        refine .inr ⟨rfl, hf, f, _, hmunch, htrivia, ?_⟩
        -- of what is behind, a comment takes in the line end, and anything else takes in nothing
        rcases y with _ | ⟨c, _ | ⟨d, y⟩⟩
        · exact .inl (by rw [hyz]; rfl)
        · cases hyz
          exact .inr rfl
        · cases hyz
          exact absurd List.mem_cons_self hy
      · have hf' : found.isTrivia = false := by simpa using hf
        exact .inl (next_replace hx ⟨'\n', t, rfl, .inl hblank⟩ hcut (fun _ => hf') h)

/-! ## All scans -/

/-- Further down in a text the same is found, further down. -/
theorem scans_add (t : List Char) (n d : ℕ) :
    scans ⟨t, n + d⟩ = (scans ⟨t, n⟩).map (Scan.reline (· + d)) := by
  by_cases ht : t = []
  · rw [scans_of_rest_eq_nil ht, scans_of_rest_eq_nil ht, List.map_nil]
  · have hlt := length_rest_next (k := ⟨t, n⟩) ht
    rw [scans_of_rest_ne_nil (k := ⟨t, n + d⟩) ht, scans_of_rest_ne_nil (k := ⟨t, n⟩) ht, next_add,
      List.map_cons, scans_add (next ⟨t, n⟩).2.rest]
termination_by t.length

variable {α : Type} {g : Scan → Option α}

/-- What does not depend on lines is the same on any line. -/
theorem filterMap_scans_congr (hline : ∀ c d, g (c.reline (· + d)) = g c) (t : List Char)
    (n m : ℕ) : (scans ⟨t, n⟩).filterMap g = (scans ⟨t, m⟩).filterMap g := by
  have hzero (n : ℕ) : (scans ⟨t, n⟩).filterMap g = (scans ⟨t, 0⟩).filterMap g := by
    have hadd := scans_add t 0 n
    rw [Nat.zero_add] at hadd
    rw [hadd, List.filterMap_map]
    exact List.filterMap_congr fun c _ => hline c n
  rw [hzero n, hzero m]

/-- What passes over white space and comments passes over a line end. -/
theorem filterMap_scans_newline (htrivia : ∀ c, c.isTrivia → g c = none)
    (hline : ∀ c d, g (c.reline (· + d)) = g c) (t : List Char) (n m : ℕ) :
    (scans ⟨'\n' :: t, n⟩).filterMap g = (scans ⟨t, m⟩).filterMap g := by
  have hblank : Alphabet.isBlank '\n' := by decide
  rw [scans_of_rest_ne_nil (List.cons_ne_nil _ _), next_of_isBlank hblank,
    List.filterMap_cons_none (htrivia _ rfl)]
  exact filterMap_scans_congr hline t _ m

/-- Whatever passes over white space and comments and does not depend on lines makes the same of
two texts with a line end in between as of each of them, if the first is not cut short. -/
theorem filterMap_scans_append (htrivia : ∀ c, c.isTrivia → g c = none)
    (hline : ∀ c d, g (c.reline (· + d)) = g c) {x : List Char} {n : ℕ}
    (hcut : ¬ Scan.IsCut (scans ⟨x, n⟩)) (t : List Char) (m : ℕ) :
    (scans ⟨x ++ '\n' :: t, n⟩).filterMap g =
      (scans ⟨x, n⟩).filterMap g ++ (scans ⟨t, m⟩).filterMap g := by
  by_cases hx : x = []
  · subst hx
    rw [scans_of_rest_eq_nil (k := ⟨[], n⟩) rfl]
    exact filterMap_scans_newline htrivia hline t n m
  · obtain ⟨x', hx', hrest, _, _⟩ := exists_slice (k := ⟨x, n⟩) hx
    have hlt := length_rest_next (k := ⟨x, n⟩) hx
    rw [scans_of_rest_ne_nil (k := ⟨x, n⟩) hx] at hcut ⊢
    rcases hnext : next ⟨x, n⟩ with ⟨found, y, l⟩
    rw [hnext] at hrest hcut hlt
    replace hlt : y.length < x.length := hlt
    have hfound : ∀ text n, found ≠ .truncated text n := by
      rintro text n rfl
      exact hcut ⟨text, n, List.mem_cons_self⟩
    have hcut' : ¬ Scan.IsCut (scans ⟨y, l⟩) := by
      rintro ⟨text, n, hmem⟩
      exact hcut ⟨text, n, List.mem_cons_of_mem _ hmem⟩
    have ih := filterMap_scans_append htrivia hline hcut' t m
    obtain rfl : x = x' ++ y := hrest
    have hne : x' ++ (y ++ '\n' :: t) ≠ [] := by simp [hx']
    rw [List.append_assoc, scans_of_rest_ne_nil (k := ⟨x' ++ (y ++ '\n' :: t), n⟩) hne]
    rcases next_append_newline hx' hfound hnext t with hsame | ⟨rfl, hf, f, k, hother, htf, hk⟩
    · rw [hsame, List.filterMap_cons, List.filterMap_cons, ih]
      cases g found with
      | none => rfl
      | some a => rfl
    · have hbehind : (scans k).filterMap g = (scans ⟨t, m⟩).filterMap g := by
        rcases hk with rfl | rfl
        · exact filterMap_scans_newline htrivia hline t l m
        · exact filterMap_scans_congr hline t (l + 1) m
      rw [hother, List.filterMap_cons_none (htrivia f htf), List.filterMap_cons_none (htrivia _ hf),
        scans_of_rest_eq_nil (k := ⟨[], l⟩) rfl, hbehind]
      rfl
termination_by x.length

end Cursor

/-- Whatever passes over white space and comments and does not depend on lines makes the same of
two programs with a line end in between as of each of them, if the first is not cut short. -/
theorem Scan.filterMap_ofSource_append {α : Type} {g : Scan → Option α} {p : String}
    (htrivia : ∀ c, c.isTrivia → g c = none) (hline : ∀ c d, g (c.reline (· + d)) = g c)
    (hcut : ¬ IsCut (ofSource p)) (q : String) :
    (ofSource (p ++ "\n" ++ q)).filterMap g =
      (ofSource p).filterMap g ++ (ofSource q).filterMap g := by
  have hlist : (p ++ "\n" ++ q).toList = p.toList ++ '\n' :: q.toList := by
    rw [String.toList_append, String.toList_append, List.append_assoc]
    rfl
  rw [ofSource, Cursor.ofString, hlist]
  exact Cursor.filterMap_scans_append htrivia hline hcut q.toList 1

end ToneScript
