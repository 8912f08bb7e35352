import Mathlib.Data.Nat.PSub
import ToneScript.Proofs.Token.Slices

/-!
# Scanning with counters

A scanner that keeps the whole program and counts what it has read works with subtractions: to
hand a character back it lowers the position, and the number of the line if the character is a
line end.  Here is such a scanner, in which a subtraction that would go below zero, a character
or a slice that is not there, and a scan that would read on behind the end all leave it without
a result.

It always has one: it is the scanner of cursors, with the position told by what is left.  A
character is handed back only right after it has been read, and nothing is read behind the end
that would not end the scan.

## Main definitions

* `Tape` — a program with a position and the number of a line.
* `Tape.next?` — one scan, unless a counter falls below zero.

## Main statements

* `Tape.next?_ofCursor` — a scan of a tape is the scan of a cursor.
* `Scan.exists_slices_ofSource` — scans cut a program into slices, and no counter goes wrong.
-/

namespace ToneScript

/-- A program text, with the number of characters that have been read and the line of the next
one. -/
structure Tape where
  /-- The whole text. -/
  chars : List Char
  /-- The number of characters that have been read. -/
  pos : ℕ
  /-- The line of the next character, counted from one. -/
  line : ℕ
deriving DecidableEq, Repr

namespace Tape

/-- The beginning of a program text. -/
def ofString (s : String) : Tape := ⟨s.toList, 0, 1⟩

/-- Behind the character at the position. -/
def behind (r : Tape) (c : Char) : Tape := ⟨r.chars, r.pos + 1, Cursor.lineAfter c r.line⟩

/-- Hands the last character back. -/
def unread? (r : Tape) : Option Tape := do
  let pos ← r.pos.ppred
  let c ← r.chars[pos]?
  let line ← if c = '\n' then r.line.ppred else some r.line
  return ⟨r.chars, pos, line⟩

/-- Hands the last character back, unless it is all that has been read since `start`. -/
def unreadBehind? (r : Tape) (start : ℕ) : Option Tape := do
  let length ← r.pos.psub start
  if 1 < length then r.unread? else return r

/-- What has been read since `start`. -/
def lexeme? (r : Tape) (start : ℕ) : Option String :=
  if start ≤ r.pos ∧ r.pos ≤ r.chars.length then
    some (String.ofList ((r.chars.take r.pos).drop start))
  else none

/-- Ends a scan that began at `start`: what has been read since then is what it found. -/
def close? (found : String → Scan) (start : ℕ) (r? : Option Tape) : Option (Scan × Tape) := do
  let r ← r?
  let text ← r.lexeme? start
  return (found text, r)

/-- Goes on with a scan that began at `start` on line `origin` and has come to the state `q`. -/
def scanFrom? (start origin : ℕ) (q : Scan.State) (r : Tape) : Option (Scan × Tape) :=
  match _h : r.chars[r.pos]? with
  | none =>
    if r.pos = start then some (.done, r)
    else match q.step .eof with
      | .sink => close? (.truncated · origin) start (some r)
      | t => match t.verdict with
        | none => none
        | some v => close? (v.scan · origin) start (some r)
  | some c =>
    match q.step (.char c) with
    | .sink =>
      close? (.invalid .input · origin) start
        (if Alphabet.isKnown c then (r.behind c).unreadBehind? start else some (r.behind c))
    | t => match t.verdict with
      | none => scanFrom? start origin t (r.behind c)
      | some v =>
        close? (v.scan · origin) start
          (if t.retracts then (r.behind c).unread? else some (r.behind c))
termination_by r.chars.length - r.pos
decreasing_by
  have := (List.getElem?_eq_some_iff.1 _h).1
  simp only [behind]
  omega

/-- One scan. -/
def next? (r : Tape) : Option (Scan × Tape) := r.scanFrom? r.pos r.line .start

/-- The tape of which a cursor sees what is left. -/
def ofCursor (chars : List Char) (k : Cursor) : Tape :=
  ⟨chars, chars.length - k.rest.length, k.line⟩

/-- The tape that stands between two texts. -/
def between (read rest : List Char) (line : ℕ) : Tape := ⟨read ++ rest, read.length, line⟩

variable {pre run rest : List Char} {c : Char} {n origin : ℕ} {q : Scan.State}

theorem ofCursor_append (pre rest : List Char) (n : ℕ) :
    ofCursor (pre ++ rest) ⟨rest, n⟩ = between pre rest n := by
  simp [ofCursor, between]

/-! ## One character -/

theorem getElem?_between_nil (pre : List Char) (n : ℕ) :
    (between pre [] n).chars[(between pre [] n).pos]? = none := by
  simp [between]

theorem getElem?_between_cons (pre : List Char) (c : Char) (rest : List Char) (n : ℕ) :
    (between pre (c :: rest) n).chars[(between pre (c :: rest) n).pos]? = some c := by
  simp [between]

theorem behind_between (pre : List Char) (c : Char) (rest : List Char) (n : ℕ) :
    (between pre (c :: rest) n).behind c = between (pre ++ [c]) rest (Cursor.lineAfter c n) := by
  simp [between, behind]

/-- A character that has just been read can be handed back. -/
theorem unread?_between (pre : List Char) (c : Char) (rest : List Char) (n : ℕ) :
    (between (pre ++ [c]) rest (Cursor.lineAfter c n)).unread? =
      some (between pre (c :: rest) n) := by
  by_cases hc : c = '\n'
  · simp [unread?, between, Cursor.lineAfter, hc]
  · simp [unread?, between, Cursor.lineAfter, hc]

theorem unreadBehind?_between (pre run : List Char) (c : Char) (rest : List Char) (n : ℕ) :
    (between (pre ++ run ++ [c]) rest (Cursor.lineAfter c n)).unreadBehind? pre.length =
      if run ≠ [] then some (between (pre ++ run) (c :: rest) n)
      else some (between (pre ++ run ++ [c]) rest (Cursor.lineAfter c n)) := by
  have hlength : (between (pre ++ run ++ [c]) rest (Cursor.lineAfter c n)).pos.psub pre.length =
      some (run.length + 1) := by
    rw [Nat.psub_eq_some]
    simp [between]
    omega
  rw [unreadBehind?, hlength, Option.bind_eq_bind, Option.bind_some, unread?_between]
  have hrun : 1 < run.length + 1 ↔ run ≠ [] := by
    rw [Nat.lt_add_left_iff_pos, List.length_pos_iff]
  simp only [hrun]
  rfl

/-- What has been read behind a text is there. -/
theorem lexeme?_between (pre run rest : List Char) (n : ℕ) :
    (between (pre ++ run) rest n).lexeme? pre.length = some (String.ofList run) := by
  have hread : (pre ++ run ++ rest).take (pre ++ run).length = pre ++ run := List.take_left
  rw [lexeme?, if_pos (by simp [between])]
  simp only [between]
  rw [hread, List.drop_left]

/-- What a scan has found is what has been read since it began. -/
theorem close?_between (found : String → Scan) (pre run rest : List Char) (n : ℕ) :
    close? found pre.length (some (between (pre ++ run) rest n)) =
      some (found (String.ofList run), between (pre ++ run) rest n) := by
  rw [close?, Option.bind_eq_bind, Option.bind_some, lexeme?_between]
  rfl

/-! ## One scan -/

section Equations

variable {r : Tape} {start : ℕ} {t : Scan.State} {v : Scan.Verdict}

theorem scanFrom?_of_none (h : r.chars[r.pos]? = none) (hpos : r.pos ≠ start)
    (hv : (q.step .eof).verdict = some v) :
    r.scanFrom? start origin q = close?
      (fun text => if q.step .eof = .sink then .truncated text origin else v.scan text origin)
      start (some r) := by
  rw [scanFrom?]
  split
  · rw [if_neg hpos]
    generalize q.step .eof = t at hv
    cases t <;> cases hv <;> rfl
  · simp_all

theorem scanFrom?_of_sink (h : r.chars[r.pos]? = some c) (ht : q.step (.char c) = .sink) :
    r.scanFrom? start origin q = close? (.invalid .input · origin) start
      (if Alphabet.isKnown c then (r.behind c).unreadBehind? start else some (r.behind c)) := by
  rw [scanFrom?]
  split
  · simp_all
  · rename_i d hd
    cases h.symm.trans hd
    rw [ht]

theorem scanFrom?_of_ne_sink (h : r.chars[r.pos]? = some c) (ht : q.step (.char c) = t)
    (hsink : t ≠ .sink) :
    r.scanFrom? start origin q =
      match t.verdict with
      | none => (r.behind c).scanFrom? start origin t
      | some v => close? (v.scan · origin) start
          (if t.retracts then (r.behind c).unread? else some (r.behind c)) := by
  rw [scanFrom?]
  split
  · simp_all
  · rename_i d hd
    cases h.symm.trans hd
    rw [ht]
    cases t with
    | sink => exact absurd rfl hsink
    | _ => rfl

end Equations

/-- The end of the text ends every scan. -/
theorem exists_verdict_step_eof (hq : q.verdict = none) : ∃ v, (q.step .eof).verdict = some v := by
  cases q <;> simp_all [Scan.State.verdict]

theorem munch_nil {taken : List Char} {v : Scan.Verdict} (hv : (q.step .eof).verdict = some v) :
    Cursor.munch origin q taken n [] =
      (if q.step .eof = .sink then .truncated (String.ofList taken.reverse) origin
        else v.scan (String.ofList taken.reverse) origin, ⟨[], n⟩) := by
  rw [Cursor.munch]
  generalize q.step .eof = t at hv
  cases t <;> cases hv <;> rfl

/-- From wherever a scan has come to, it goes on as the scan of the cursor does. -/
theorem scanFrom?_between (hq : q.verdict = none) (hne : run ++ rest ≠ []) :
    (between (pre ++ run) rest n).scanFrom? pre.length origin q =
      some ((Cursor.munch origin q run.reverse n rest).1,
        ofCursor (pre ++ run ++ rest) (Cursor.munch origin q run.reverse n rest).2) := by
  induction rest generalizing run n q with
  | nil =>
      have hpos : (between (pre ++ run) [] n).pos ≠ pre.length := by
        simpa [between] using hne
      obtain ⟨v, hv⟩ := exists_verdict_step_eof hq
      rw [scanFrom?_of_none (getElem?_between_nil _ n) hpos hv, close?_between, munch_nil hv,
        ofCursor_append, List.reverse_reverse]
  | cons c rest ih =>
      have hassoc : pre ++ run ++ c :: rest = pre ++ (run ++ [c]) ++ rest := by simp
      have hread := getElem?_between_cons (pre ++ run) c rest n
      by_cases hsink : q.step (.char c) = .sink
      · rw [scanFrom?_of_sink hread hsink, behind_between, unreadBehind?_between, Cursor.munch,
          hsink]
        dsimp only
        by_cases hback : Alphabet.isKnown c ∧ run ≠ []
        · have htaken : Alphabet.isKnown c ∧ run.reverse ≠ [] := by simpa using hback
          rw [if_pos hback.1, if_pos hback.2, if_pos htaken, close?_between, ofCursor_append,
            List.reverse_reverse]
        · have htaken : ¬ (Alphabet.isKnown c ∧ run.reverse ≠ []) := by simpa using hback
          have hpassed : (if Alphabet.isKnown c then
              if run ≠ [] then some (between (pre ++ run) (c :: rest) n)
              else some (between (pre ++ run ++ [c]) rest (Cursor.lineAfter c n))
            else some (between (pre ++ run ++ [c]) rest (Cursor.lineAfter c n))) =
              some (between (pre ++ (run ++ [c])) rest (Cursor.lineAfter c n)) := by
            grind
          rw [hpassed, if_neg htaken, close?_between, hassoc, ofCursor_append, List.reverse_cons,
            List.reverse_reverse]
      · rw [scanFrom?_of_ne_sink hread rfl hsink, behind_between,
          Cursor.munch_cons_of_ne_sink rfl hsink]
        cases hv : (q.step (.char c)).verdict with
        | none =>
            have htaken : c :: run.reverse = (run ++ [c]).reverse := by simp
            dsimp only
            rw [List.append_assoc pre, hassoc, htaken]
            exact ih hv (by simp)
        | some v =>
            dsimp only
            split
            · rw [unread?_between, close?_between, ofCursor_append, List.reverse_reverse]
            · rw [List.append_assoc pre, close?_between, hassoc, ofCursor_append,
                List.reverse_cons, List.reverse_reverse]

/-- A scan has a result: what the cursor finds, and the tape on which the cursor then stands. -/
theorem next?_ofCursor {chars : List Char} {k : Cursor} (h : pre ++ k.rest = chars) :
    (ofCursor chars k).next? = some (k.next.1, ofCursor chars k.next.2) := by
  subst h
  obtain ⟨rest, n⟩ := k
  rw [ofCursor_append, next?]
  cases rest with
  | nil =>
      rw [scanFrom?]
      split
      · rw [if_pos rfl, Cursor.next_nil, ofCursor_append]
      · rename_i h
        rw [getElem?_between_nil] at h
        cases h
  | cons c rest =>
      have hscan : (between (pre ++ []) (c :: rest) n).scanFrom? pre.length n .start =
          some ((Cursor.munch n .start [] n (c :: rest)).1, ofCursor (pre ++ [] ++ c :: rest)
            (Cursor.munch n .start [] n (c :: rest)).2) := scanFrom?_between rfl (by simp)
      rw [List.append_nil] at hscan
      exact hscan

/-! ## Scan after scan -/

/-- The tape behind the first `i` scans. -/
def after? : ℕ → Tape → Option Tape
  | 0, r => some r
  | i + 1, r => r.next?.bind fun next => after? i next.2

theorem after?_ofCursor {chars : List Char} {k : Cursor} (i : ℕ) (h : pre ++ k.rest = chars) :
    after? i (ofCursor chars k) = some (ofCursor chars (Cursor.after i k)) := by
  induction i generalizing pre k with
  | zero => rfl
  | succ i ih =>
      rw [after?, next?_ofCursor h, Option.bind_some, Cursor.after_succ]
      obtain ⟨x, hx⟩ := k.exists_rest_eq
      have hread : pre ++ x ++ k.next.2.rest = chars := by rw [← h, hx, List.append_assoc]
      exact ih hread

end Tape

/-! ## All scans of a program -/

namespace Scan

/-- The place behind the first `i` scans of a program, however many there are to be made. -/
def place (source : String) (i : ℕ) : Cursor := Cursor.after i (.ofString source)

/-- What scan number `i` of a program finds, counted from zero. -/
def foundAt (source : String) (i : ℕ) : Scan := (place source i).next.1

/-- The program is cut into the slices `xs` by its scans. -/
structure Slices (source : String) (xs : List (List Char)) : Prop where
  /-- Together they are the program. -/
  flatten_eq : xs.flatten = source.toList
  /-- Behind some scans the rest of the slices is left, and the line is one more than there are
  line ends before. -/
  place_eq : ∀ i, place source i = ⟨(xs.drop i).flatten, (xs.take i).flatten.count '\n' + 1⟩
  /-- A scan takes a slice that is not empty and shows it, with the line on which it begins. -/
  tells : ∀ i x, xs[i]? = some x → x ≠ [] ∧
    (place source i).rest = x ++ (place source (i + 1)).rest ∧
    (foundAt source i).finding.Tells x ((xs.take i).flatten.count '\n' + 1)
  /-- Behind the last slice nothing is found, and nothing changes. -/
  done : ∀ i, xs[i]? = none → foundAt source i = .done ∧ place source (i + 1) = place source i
  /-- Nor is it once the end has been found, or a lexeme that it cuts short. -/
  ended : ∀ i j, i < j → (foundAt source i = .done ∨ ∃ x n, foundAt source i = .truncated x n) →
    foundAt source j = .done ∧ place source (j + 1) = place source j
  /-- Counters of characters and of lines never fall below zero, and hold what has been read. -/
  counts : ∀ i, ∃ r, Tape.after? i (.ofString source) = some r ∧
    r = ⟨source.toList, (xs.take i).flatten.length, (xs.take i).flatten.count '\n' + 1⟩ ∧
    ∃ s, r.next? = some (foundAt source i, s) ∧ Tape.after? (i + 1) (.ofString source) = some s

variable {source : String} {i j : ℕ}

theorem place_succ (source : String) (i : ℕ) : place source (i + 1) = (place source i).next.2 :=
  Cursor.after_succ' ..

/-- Where nothing is left, scanning on leads nowhere. -/
theorem place_eq_of_rest_eq_nil (h : (place source i).rest = []) (hij : i ≤ j) :
    place source j = place source i := by
  obtain ⟨m, rfl⟩ := Nat.exists_eq_add_of_le hij
  induction m with
  | zero => rfl
  | succ m ih =>
      rw [← Nat.add_assoc, place_succ, ih (Nat.le_add_right i m), Cursor.next_of_rest_eq_nil h]

/-- Once nothing is left, nothing is found, and nothing changes. -/
theorem foundAt_of_rest_eq_nil (h : (place source i).rest = []) (hij : i ≤ j) :
    foundAt source j = .done ∧ place source (j + 1) = place source j := by
  rw [foundAt, place_succ, place_eq_of_rest_eq_nil h hij, Cursor.next_of_rest_eq_nil h]
  exact ⟨rfl, rfl⟩

theorem after?_ofString (source : String) (i : ℕ) :
    Tape.after? i (.ofString source) = some (.ofCursor source.toList (place source i)) := by
  have hstart : Tape.ofString source = .ofCursor source.toList (.ofString source) := by
    simp [Tape.ofString, Tape.ofCursor, Cursor.ofString]
  rw [hstart]
  have hread : [] ++ (Cursor.ofString source).rest = source.toList := rfl
  exact Tape.after?_ofCursor i hread

/-- The scans of a program, one after the other for as long as one likes, cut it into slices, and
those that take a slice are the scans that are made of it. -/
theorem exists_slices_ofSource (source : String) : ∃ xs, Slices source xs ∧
    Scan.ofSource source = (List.range xs.length).map (foundAt source) := by
  obtain ⟨xs, hflatten, hscans, hplaces, hslices⟩ := (Cursor.ofString source).exists_slices
  have hline (i : ℕ) : (Cursor.ofString source).line + (xs.take i).flatten.count '\n' =
      (xs.take i).flatten.count '\n' + 1 := Nat.add_comm ..
  have hplace (i : ℕ) :
      place source i = ⟨(xs.drop i).flatten, (xs.take i).flatten.count '\n' + 1⟩ := by
    rw [place, hplaces, hline]
  have hread (i : ℕ) : (xs.take i).flatten ++ (place source i).rest = source.toList := by
    rw [hplace, ← List.flatten_append, List.take_append_drop]
    exact hflatten
  refine ⟨xs, ⟨hflatten, hplace, ?_, ?_, ?_, ?_⟩, hscans⟩
  · intro i x hx
    obtain ⟨hne, htells⟩ := hslices i x hx
    obtain ⟨hi, rfl⟩ := List.getElem?_eq_some_iff.1 hx
    refine ⟨hne, ?_, by rwa [hline] at htells⟩
    rw [hplace, hplace, List.drop_eq_getElem_cons hi, List.flatten_cons]
  · intro i hi
    refine foundAt_of_rest_eq_nil ?_ (Nat.le_refl i)
    rw [hplace, List.drop_eq_nil_iff.2 (List.getElem?_eq_none_iff.1 hi), List.flatten_nil]
  · intro i j hij hi
    have hend : (place source (i + 1)).rest = [] := by
      rw [place_succ]
      rcases hi with hi | ⟨x, n, hi⟩
      · have hrest := Cursor.rest_eq_nil_of_done hi
        rwa [Cursor.next_of_rest_eq_nil hrest]
      · exact Cursor.rest_next_of_truncated hi
    exact foundAt_of_rest_eq_nil hend hij
  · intro i
    refine ⟨_, after?_ofString source i, ?_, _, Tape.next?_ofCursor (hread i), ?_⟩
    · rw [hplace, ← hread i, hplace, Tape.ofCursor_append]
      rfl
    · rw [after?_ofString, place_succ]

end Scan

end ToneScript
