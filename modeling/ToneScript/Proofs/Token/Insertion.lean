import ToneScript.Proofs.Token.Boundary

/-!
# White space between scans

White space may be put wherever a scan of a program begins: the scans before it find what they
have found before, and those behind it find the same further down.

Two programs are compared whose scans do not go in step.  The white space takes scans of its own,
and a comment at the end of a program takes in as much of it as stands on its line.  So what is
compared are the scans that find something else, each together with its place.

## Main definitions

* `Cursor.marks`, `Scan.items` — what is found apart from white space and comments, and where.
* `Scan.moved` — where it is found once a text has been put in.
* `Scan.Starts` — the places of a program where a scan begins.
* `insertAt` — a program with a text put into it.

## Main statements

* `Cursor.marks_insert` — white space at a place, and the scans from an earlier place on.
* `Scan.items_insertAt` — white space in a program.
-/

namespace ToneScript

/-- Where a thing is found once the text `w` has been put in at the place `p`: from there on it is
found as many characters and as many lines further down. -/
def Scan.moved (p : ℕ) (w : List Char) (m : ℕ × Scan) : ℕ × Scan :=
  if p ≤ m.1 then (m.1 + w.length, m.2.reline (· + w.count '\n')) else m

namespace Cursor

variable {n m N i : ℕ} {pre x y t w : List Char} {found : Scan} {k k' : Cursor}

/-! ## All scans from a place on -/

/-- What is found from a place to the end of the text apart from white space and comments, each
with the number of characters before it, where the text has `N` characters in all. -/
def marks (N : ℕ) (k : Cursor) : List (ℕ × Scan) :=
  ((List.range k.scans.length).map fun i =>
    (N - (after i k).rest.length, (after i k).next.1)).filter fun m => !m.2.isTrivia

theorem marks_of_rest_eq_nil (h : k.rest = []) : marks N k = [] := by
  simp [marks, scans_of_rest_eq_nil h]

theorem marks_of_next_eq (h : k.rest ≠ []) (hk : k.next = (found, k')) :
    marks N k =
      if found.isTrivia then marks N k' else (N - k.rest.length, found) :: marks N k' := by
  have hfound : (after 0 k).next.1 = found := congrArg Prod.fst hk
  have hrest : k.next.2 = k' := congrArg Prod.snd hk
  have hafter (i : ℕ) : after (i + 1) k = after i k' := by rw [after_succ, hrest]
  rw [marks, scans_of_rest_ne_nil h, hrest, List.length_cons, List.range_succ_eq_map,
    List.map_cons, List.map_map, List.filter_cons, hfound]
  simp only [Function.comp_def, Nat.succ_eq_add_one, hafter]
  by_cases hf : found.isTrivia
  · simp [hf, marks]
  · simp [hf, marks, after]

/-- Nothing is found before the place. -/
theorem le_of_mem_marks {k : Cursor} {p : ℕ × Scan} (h : p ∈ marks N k) :
    N - k.rest.length ≤ p.1 := by
  by_cases hrest : k.rest = []
  · rw [marks_of_rest_eq_nil hrest] at h
    cases h
  · rcases hnext : k.next with ⟨found, k'⟩
    have hlt : k'.rest.length < k.rest.length := by
      have hlt := length_rest_next hrest
      rwa [hnext] at hlt
    rw [marks_of_next_eq hrest hnext] at h
    have hbehind (h : p ∈ marks N k') : N - k.rest.length ≤ p.1 := by
      have hle := le_of_mem_marks h
      omega
    split at h
    · exact hbehind h
    · rcases List.mem_cons.1 h with rfl | h
      · exact Nat.le_refl _
      · exact hbehind h
termination_by k.rest.length

/-- In a longer text, and further down in it, the same is found behind a place. -/
theorem marks_add {t : List Char} (hN : t.length ≤ N) (n e d : ℕ) :
    marks (N + e) ⟨t, n + d⟩ =
      (marks N ⟨t, n⟩).map fun p => (p.1 + e, p.2.reline (· + d)) := by
  by_cases ht : t = []
  · rw [marks_of_rest_eq_nil ht, marks_of_rest_eq_nil ht, List.map_nil]
  · have hadd := next_add (n := n) t d
    rcases hnext : next ⟨t, n⟩ with ⟨found, rest, l⟩
    rw [hnext] at hadd
    have hlt : rest.length < t.length := by
      have hlt := length_rest_next (k := ⟨t, n⟩) ht
      rwa [hnext] at hlt
    have hle : rest.length ≤ N := Nat.le_trans (Nat.le_of_lt hlt) hN
    have ih := marks_add hle l e d
    have hpos : N + e - t.length = N - t.length + e := Nat.sub_add_comm hN
    rw [marks_of_next_eq (k := ⟨t, n + d⟩) ht hadd, marks_of_next_eq (k := ⟨t, n⟩) ht hnext,
      Scan.isTrivia_reline, ih, hpos]
    split
    · rfl
    · rfl
termination_by t.length

/-- White space shows nothing. -/
theorem marks_append (hw : ∀ c ∈ w, Alphabet.isBlank c) (n : ℕ) :
    marks N ⟨w ++ t, n⟩ = marks N ⟨t, n + w.count '\n'⟩ := by
  induction w generalizing n with
  | nil => rfl
  | cons b w ih =>
      rw [List.forall_mem_cons] at hw
      have hne : (⟨b :: w ++ t, n⟩ : Cursor).rest ≠ [] := by simp
      rw [marks_of_next_eq hne (next_of_isBlank hw.1 (w ++ t) n), if_pos (by rfl), ih hw.2]
      have hcount : (b :: w).count '\n' = [b].count '\n' + w.count '\n' := by
        rw [← List.count_append, List.singleton_append]
      rw [hcount, Nat.add_assoc]

/-! ## White space at a place -/

theorem marks_insert_nil (hw : ∀ c ∈ w, Alphabet.isBlank c) (hN : t.length ≤ N) (n : ℕ) :
    marks (N + w.length) ⟨w ++ t, n⟩ =
      (marks N ⟨t, n⟩).map (Scan.moved (N - t.length) w) := by
  rw [marks_append hw, marks_add hN]
  refine List.map_congr_left fun p hp => ?_
  have hle : N - t.length ≤ p.1 := le_of_mem_marks hp
  rw [Scan.moved, if_pos hle]

/-- A scan that ends before the white space, or right where it is put in: what it finds is the
same unless it is not heard, and so is what is heard behind it. -/
theorem exists_next_insert (hw : ∀ c ∈ w, Alphabet.isBlank c)
    (hx : x ≠ []) (hcut : ∀ text n, found ≠ .truncated text n)
    (h : next ⟨x ++ (y ++ t), n⟩ = (found, ⟨y ++ t, m⟩)) :
    ∃ f k, next ⟨x ++ (y ++ (w ++ t)), n⟩ = (f, k) ∧ (f = found ∨ f.isTrivia ∧ found.isTrivia) ∧
      marks N k = marks N ⟨y ++ (w ++ t), m⟩ := by
  cases y with
  | nil =>
      simp only [List.nil_append] at h ⊢
      obtain ⟨f, y, z, rfl, hf, hnext⟩ := exists_next_append hw hx hcut h
      refine ⟨f, _, hnext, hf, ?_⟩
      have hz : ∀ c ∈ z, Alphabet.isBlank c := fun c hc => hw c (List.mem_append_right y hc)
      rw [marks_append hz, marks_append hw, List.count_append, Nat.add_assoc]
  | cons c y =>
      have hreplaces : Replaces (c :: y ++ (w ++ t)) (c :: y ++ t) :=
        ⟨c, y ++ (w ++ t), rfl, .inr rfl⟩
      have hnext := next_replace hx hreplaces hcut (fun h => by simp at h) h
      exact ⟨found, _, hnext, .inl rfl, rfl⟩

/-- A scan before the white space: if what is found behind it is moved, all that is found from it
on is. -/
theorem marks_insert_of_next (hw : ∀ c ∈ w, Alphabet.isBlank c)
    (hx : x ≠ []) (hcut : ∀ text n, found ≠ .truncated text n)
    (hnext : next ⟨x ++ (y ++ t), n⟩ = (found, ⟨y ++ t, m⟩)) (hN : (x ++ (y ++ t)).length ≤ N)
    (hrest : marks (N + w.length) ⟨y ++ (w ++ t), m⟩ =
      (marks N ⟨y ++ t, m⟩).map (Scan.moved (N - t.length) w)) :
    marks (N + w.length) ⟨x ++ (y ++ (w ++ t)), n⟩ =
      (marks N ⟨x ++ (y ++ t), n⟩).map (Scan.moved (N - t.length) w) := by
  obtain ⟨f, k, hnext', hf, hmarks⟩ := exists_next_insert (N := N + w.length) hw hx hcut hnext
  rw [marks_of_next_eq (by simp [hx]) hnext, marks_of_next_eq (by simp [hx]) hnext', hmarks, hrest]
  rcases hf with rfl | ⟨hf, hfound⟩
  · have hpos := List.length_pos_iff.2 hx
    simp only [List.length_append] at hN ⊢
    have hsame : N + w.length - (x.length + (y.length + (w.length + t.length))) =
        N - (x.length + (y.length + t.length)) := by
      omega
    have hbefore : ¬ N - t.length ≤ N - (x.length + (y.length + t.length)) := by omega
    split
    · rfl
    · rw [List.map_cons, Scan.moved, if_neg hbefore, hsame]
  · rw [if_pos hf, if_pos hfound]

/-- The first of some scans, of which the last leaves `t`, leaves something that ends in `t`. -/
theorem exists_next_of_after (hpre : pre ≠ []) (h : (after (i + 1) ⟨pre ++ t, n⟩).rest = t) :
    ∃ x y found l, x ≠ [] ∧ pre = x ++ y ∧ next ⟨pre ++ t, n⟩ = (found, ⟨y ++ t, l⟩) := by
  have hne : pre ++ t ≠ [] := by simp [hpre]
  obtain ⟨x, hx, hrest, _, _⟩ := exists_slice (k := ⟨pre ++ t, n⟩) hne
  obtain ⟨y, hy⟩ := exists_rest_after i (next ⟨pre ++ t, n⟩).2
  rw [← after_succ, h] at hy
  rw [hy, ← List.append_assoc] at hrest
  refine ⟨x, y, (next ⟨pre ++ t, n⟩).1, (next ⟨pre ++ t, n⟩).2.line, hx,
    List.append_cancel_right hrest, ?_⟩
  rw [← hy]

/-- White space put in behind the first scans changes nothing in what these find apart from white
space and comments, and moves what is found behind it. -/
theorem marks_insert (hw : ∀ c ∈ w, Alphabet.isBlank c)
    (hafter : (after i ⟨pre ++ t, n⟩).rest = t)
    (hcut : ∀ j < i, ∀ text l, (after j ⟨pre ++ t, n⟩).next.1 ≠ .truncated text l)
    (hN : (pre ++ t).length ≤ N) :
    marks (N + w.length) ⟨pre ++ (w ++ t), n⟩ =
      (marks N ⟨pre ++ t, n⟩).map (Scan.moved (N - t.length) w) := by
  induction i generalizing pre n with
  | zero =>
      obtain rfl := List.append_left_eq_self.1 hafter
      exact marks_insert_nil hw hN n
  | succ i ih =>
      by_cases hpre : pre = []
      · subst hpre
        exact marks_insert_nil hw hN n
      · obtain ⟨x, y, found, l, hx, rfl, hnext⟩ := exists_next_of_after hpre hafter
        have hsucc (j : ℕ) : after (j + 1) ⟨x ++ y ++ t, n⟩ = after j ⟨y ++ t, l⟩ := by
          rw [after_succ, hnext]
        have hfirst : ∀ text l, found ≠ .truncated text l := by
          have h := hcut 0 (Nat.succ_pos i)
          rwa [after, Function.iterate_zero, id_eq, hnext] at h
        have hbehind : ∀ j < i, ∀ text d, (after j ⟨y ++ t, l⟩).next.1 ≠ .truncated text d := by
          intro j hj
          rw [← hsucc]
          exact hcut (j + 1) (Nat.succ_lt_succ hj)
        rw [hsucc] at hafter
        rw [List.append_assoc] at hnext hN ⊢
        have hlength : (y ++ t).length ≤ N := by
          rw [List.length_append] at hN
          omega
        have hrest := ih hafter hbehind hlength
        rw [List.append_assoc]
        exact marks_insert_of_next hw hx hfirst hnext hN hrest

theorem map_snd_marks (N : ℕ) (k : Cursor) :
    (marks N k).map Prod.snd = k.scans.filter fun c => !c.isTrivia := by
  obtain ⟨xs, _, hscans, _, _⟩ := k.exists_slices
  have hlength : k.scans.length = xs.length := by simp [hscans]
  rw [marks, hlength, hscans]
  simp [List.filter_map, Function.comp_def]

end Cursor

/-! ## White space in a program -/

/-- The program with the text `w` put in behind `p` characters. -/
def insertAt (source : String) (p : ℕ) (w : String) : String :=
  String.ofList (source.toList.take p ++ (w.toList ++ source.toList.drop p))

namespace Scan

variable {source w : String} {p : ℕ}

/-- A scan of the program begins behind `p` characters.  It is made at all, since nothing before
it is cut short. -/
def Starts (source : String) (p : ℕ) : Prop :=
  ∃ i, p + (place source i).rest.length = source.length ∧
    ∀ j < i, ∀ text n, foundAt source j ≠ .truncated text n

/-- What is found in a program apart from white space and comments, each with the number of
characters before it. -/
def items (source : String) : List (ℕ × Scan) := (Cursor.ofString source).marks source.length

theorem map_snd_items (source : String) :
    (items source).map Prod.snd = (ofSource source).filter fun c => !c.isTrivia :=
  Cursor.map_snd_marks _ _

/-- White space where a scan of a program begins leaves everything as it is that is found before
it, and moves what is found from there on. -/
theorem items_insertAt (hp : Starts source p) (hw : ∀ c ∈ w.toList, Alphabet.isBlank c) :
    items (insertAt source p w) = (items source).map (moved p w.toList) := by
  obtain ⟨i, hlength, hcut⟩ := hp
  rcases hplace : place source i with ⟨t, m⟩
  obtain ⟨pre, hpre⟩ := Cursor.exists_rest_after i (.ofString source)
  rw [← place, hplace] at hpre
  rw [hplace] at hlength
  replace hpre : source.toList = pre ++ t := hpre
  replace hlength : p + t.length = source.length := hlength
  have hsource : source.length = (pre ++ t).length := by rw [← hpre, String.length_toList]
  have hp : pre.length = p := by
    rw [hsource, List.length_append] at hlength
    exact (Nat.add_right_cancel hlength).symm
  have hinsert : (insertAt source p w).toList = pre ++ (w.toList ++ t) := by
    rw [insertAt, String.toList_ofList, hpre, List.take_left' hp, List.drop_left' hp]
  have hlength' : (insertAt source p w).length = source.length + w.toList.length := by
    rw [← String.length_toList, hinsert, hsource]
    simp only [List.length_append]
    omega
  have hafter : (Cursor.after i ⟨pre ++ t, 1⟩).rest = t := by
    rw [← hpre]
    exact congrArg Cursor.rest hplace
  have hcut' : ∀ j < i, ∀ text l, (Cursor.after j ⟨pre ++ t, 1⟩).next.1 ≠ .truncated text l := by
    rw [← hpre]
    exact hcut
  have hmarks := Cursor.marks_insert hw hafter hcut' (Nat.le_of_eq hsource.symm)
  have hposition : source.length - t.length = p := by omega
  rw [hposition, ← hpre, ← hinsert, ← hlength'] at hmarks
  exact hmarks

end Scan

end ToneScript
