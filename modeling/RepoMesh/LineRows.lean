import Mathlib.Data.List.TakeWhile
import RepoMesh.Chunk

/-!
# Lines and rows

Editors and parsers count rows, which end at newlines; `str.splitlines` also ends a
line at form feeds, separators and other characters. `Agree` says how the two
splittings of one text may differ without any span of lines reading differently: it
holds if nothing but whitespace follows the first line end that is not a newline
(`NewlinesOnly`), and only then does every row read like the line of its number.
-/

namespace RepoMesh

/-! ## Rows -/

/-- The rows of a text, each with its newline; `row` holds the row begun, reversed. -/
def splitRows (row : List Char) : List Char → List (List Char)
  | [] => [row.reverse]
  | c :: rest =>
      if c = '\n' then (c :: row).reverse :: splitRows [] rest else splitRows (c :: row) rest

/-- The text of rows `start` to `stop`, counted from one, without trailing
whitespace. -/
def rowsText (content : String) (start stop : Nat) : String :=
  String.ofList (rstrip (((splitRows [] content.toList).take stop).drop (start - 1)).flatten)

/-- No character but whitespace follows the first end of a line that is neither a
newline nor the return before one. -/
def NewlinesOnly : List Char → Bool
  | [] => true
  | '\r' :: '\n' :: rest => NewlinesOnly rest
  | c :: rest => if isLineBreak c ∧ c ≠ '\n' then rest.all isSpace else NewlinesOnly rest

/-! ## Whitespace -/

def Blank (s : List Char) : Prop := ∀ c ∈ s, isSpace c = true

theorem blank_append {s t : List Char} : Blank (s ++ t) ↔ Blank s ∧ Blank t := by
  simp [Blank, or_imp, forall_and]

theorem blank_flatten {l : List (List Char)} (h : ∀ s ∈ l, Blank s) : Blank l.flatten := by
  intro c hc
  obtain ⟨s, hs, hcs⟩ := List.mem_flatten.mp hc
  exact h s hs c hcs

theorem isSpace_of_isLineBreak {c : Char} (h : isLineBreak c = true) : isSpace c = true := by
  simp only [isLineBreak, decide_eq_true_eq, List.mem_cons, List.not_mem_nil, or_false] at h
  simp only [isSpace, List.mem_cons, List.not_mem_nil, or_false, Bool.or_eq_true,
    Bool.and_eq_true, decide_eq_true_eq]
  omega

theorem rstrip_append_blank {s w : List Char} (h : Blank w) : rstrip (s ++ w) = rstrip s := by
  have hdrop : w.reverse.dropWhile isSpace = [] :=
    List.dropWhile_eq_nil_iff.mpr fun c hc => h c (List.mem_reverse.mp hc)
  rw [rstrip, rstrip, List.reverse_append, List.dropWhile_append, hdrop]
  rfl

theorem rstrip_blank {w : List Char} (h : Blank w) : rstrip w = [] := by
  have := rstrip_append_blank (s := []) h
  simpa [rstrip] using this

/-- Only the whitespace at the end matters. -/
theorem rstrip_append {s t : List Char} (h : ¬ Blank t) : rstrip (s ++ t) = s ++ rstrip t := by
  have hne : t.reverse.dropWhile isSpace ≠ [] := by
    intro hnil
    refine h fun c hc => ?_
    exact List.dropWhile_eq_nil_iff.mp hnil c (List.mem_reverse.mpr hc)
  rw [rstrip, rstrip, List.reverse_append, List.dropWhile_append, if_neg (by simpa using hne)]
  simp

/-- The whitespace that is stripped. -/
theorem rstrip_append_tail (s : List Char) : ∃ w, s = rstrip s ++ w ∧ Blank w := by
  refine ⟨(s.reverse.takeWhile isSpace).reverse, ?_, ?_⟩
  · rw [rstrip, ← List.reverse_append, List.takeWhile_append_dropWhile, List.reverse_reverse]
  · intro c hc
    exact List.mem_takeWhile_imp (List.mem_reverse.mp hc)

theorem blank_of_rstrip {s : List Char} (h : rstrip s = []) : Blank s := by
  obtain ⟨w, hs, hw⟩ := rstrip_append_tail s
  rw [hs, h]
  exact hw

theorem rstrip_append_congr (s : List Char) {t t' : List Char} (h : rstrip t = rstrip t') :
    rstrip (s ++ t) = rstrip (s ++ t') := by
  by_cases hb : Blank t
  · have hb' : Blank t' := blank_of_rstrip (by rw [← h, rstrip_blank hb])
    rw [rstrip_append_blank hb, rstrip_append_blank hb']
  · have hb' : ¬ Blank t' := fun hb' => hb (blank_of_rstrip (by rw [h, rstrip_blank hb']))
    rw [rstrip_append hb, rstrip_append hb', h]

/-! ## Splitting -/

theorem splitRows_cons (c : Char) (row rest : List Char) :
    splitRows row (c :: rest) =
      if c = '\n' then (c :: row).reverse :: splitRows [] rest else splitRows (c :: row) rest :=
  rfl

/-- What is begun only prolongs the first row. -/
theorem splitRows_begun (s : List Char) :
    ∃ r rows, ∀ row, splitRows row s = (row.reverse ++ r) :: rows := by
  induction s with
  | nil => exact ⟨[], [], fun row => by simp [splitRows]⟩
  | cons c s ih =>
      by_cases hc : c = '\n'
      · exact ⟨[c], splitRows [] s, fun row => by simp [splitRows_cons, hc]⟩
      · obtain ⟨r, rows, h⟩ := ih
        exact ⟨c :: r, rows, fun row => by simp [splitRows_cons, hc, h]⟩

theorem splitRows_flatten (row s : List Char) : (splitRows row s).flatten = row.reverse ++ s := by
  induction s generalizing row with
  | nil => simp [splitRows]
  | cons c s ih =>
      rw [splitRows_cons]
      split
      · simp [ih]
      · simp [ih]

/-- A text has a row more than it has newlines. -/
theorem splitRows_length (row s : List Char) :
    (splitRows row s).length = s.count '\n' + 1 := by
  induction s generalizing row with
  | nil => rfl
  | cons c s ih =>
      rw [splitRows_cons]
      split
      · rename_i hc
        rw [List.length_cons, ih, hc, List.count_cons_self]
      · rename_i hc
        rw [ih, List.count_cons_of_ne hc]

/-- The rows of a text before its last newline are there whatever follows; what
follows continues the last row. -/
theorem splitRows_append (row s : List Char) :
    ∃ ended last, ended.length = s.count '\n' ∧ (ended ++ [last]).flatten = row.reverse ++ s ∧
      ∀ t, splitRows row (s ++ t) = ended ++ splitRows last.reverse t := by
  induction s generalizing row with
  | nil => exact ⟨[], row.reverse, rfl, by simp, fun t => by simp⟩
  | cons c s ih =>
      by_cases hc : c = '\n'
      · obtain ⟨ended, last, hlen, hflat, h⟩ := ih []
        refine ⟨(c :: row).reverse :: ended, last, ?_, ?_, fun t => ?_⟩
        · rw [List.length_cons, hlen, hc, List.count_cons_self]
        · rw [List.cons_append, List.flatten_cons, hflat]
          simp
        · rw [List.cons_append, splitRows_cons, if_pos hc, h t, List.cons_append]
      · obtain ⟨ended, last, hlen, hflat, h⟩ := ih (c :: row)
        refine ⟨ended, last, ?_, ?_, fun t => ?_⟩
        · rw [hlen, List.count_cons_of_ne hc]
        · rw [hflat]
          simp
        · rw [List.cons_append, splitRows_cons, if_neg hc, h t]

/-- The rows that a part of a text begins and ends in, with what stands on them around
it. -/
theorem splitRows_part (s t u : List Char) :
    ∃ left right, (((splitRows [] (s ++ (t ++ u))).take ((s ++ t).count '\n' + 1)).drop
      (s.count '\n')).flatten = left ++ (t ++ right) := by
  obtain ⟨ended, left, hlen, -, hs⟩ := splitRows_append [] s
  obtain ⟨rows, last, hlen', hflat, ht⟩ := splitRows_append left.reverse t
  obtain ⟨right, more, hu⟩ := splitRows_begun u
  refine ⟨left, right, ?_⟩
  have hrows : splitRows [] (s ++ (t ++ u)) = ended ++ ((rows ++ [last ++ right]) ++ more) := by
    rw [hs, ht, hu, List.reverse_reverse, List.append_assoc, List.singleton_append]
  have htake : (s ++ t).count '\n' + 1 = ended.length + (rows ++ [last ++ right]).length := by
    rw [List.count_append, hlen, List.length_append, hlen', List.length_singleton]
    omega
  rw [hrows, ← hlen, htake, List.take_length_add_append, List.drop_left,
    List.take_left]
  rw [List.flatten_append, List.flatten_singleton, ← List.append_assoc, ← List.append_assoc]
  rw [List.flatten_append, List.flatten_singleton, List.reverse_reverse] at hflat
  rw [hflat]

/-- What is stripped from a text is stripped from it wherever it stands. -/
theorem rstrip_infix (left t right : List Char) : rstrip t <:+: rstrip (left ++ (t ++ right)) := by
  by_cases ht : Blank t
  · rw [rstrip_blank ht]
    exact List.nil_infix
  · by_cases hright : Blank right
    · rw [← List.append_assoc, rstrip_append_blank hright, rstrip_append ht]
      exact (List.suffix_append _ _).isInfix
    · obtain ⟨w, hw, -⟩ := rstrip_append_tail t
      rw [← List.append_assoc, rstrip_append hright]
      refine ⟨left, w ++ rstrip right, ?_⟩
      conv_rhs => rw [hw]
      simp

theorem splitLines_flatten (line s : List Char) :
    (splitLines line s).flatten = line.reverse ++ s := by
  induction line, s using splitLines.induct with
  | case1 => simp [splitLines]
  | case2 line hline => simp [splitLines, hline]
  | case3 line rest ih => simp [splitLines, ih]
  | case4 line c rest hcr hbreak ih => simp [splitLines, hbreak, ih]
  | case5 line c rest hcr hbreak ih => simp [splitLines, hbreak, ih]

/-! ## Agreement -/

/-- Lines and rows that read alike on every span. -/
inductive Agree : List (List Char) → List (List Char) → Prop where
  | blank {lines rows : List (List Char)} :
      (∀ x ∈ lines, Blank x) → (∀ x ∈ rows, Blank x) → Agree lines rows
  | split {lines rows : List (List Char)} (x w : List Char) :
      Blank w → (∀ x ∈ lines, Blank x) → (∀ x ∈ rows, Blank x) →
      Agree (x :: lines) ((x ++ w) :: rows)
  | cons {lines rows : List (List Char)} (x : List Char) :
      Agree lines rows → Agree (x :: lines) (x :: rows)

theorem blank_span {l : List (List Char)} (h : ∀ x ∈ l, Blank x) (i j : Nat) :
    Blank ((l.take j).drop i).flatten :=
  blank_flatten fun x hx => h x (List.mem_of_mem_take (List.mem_of_mem_drop hx))

theorem Agree.spans {lines rows : List (List Char)} (h : Agree lines rows) (i j : Nat) :
    rstrip ((lines.take j).drop i).flatten = rstrip ((rows.take j).drop i).flatten := by
  induction h generalizing i j with
  | blank hlines hrows =>
      rw [rstrip_blank (blank_span hlines i j), rstrip_blank (blank_span hrows i j)]
  | split x w hw hlines hrows =>
      cases j with
      | zero => simp
      | succ j =>
          cases i with
          | zero =>
              have hl := blank_span hlines 0 j
              have hr := blank_span hrows 0 j
              simp only [List.take_succ_cons, List.drop_zero, List.flatten_cons] at hl hr ⊢
              rw [rstrip_append_blank hl, rstrip_append_blank hr, rstrip_append_blank hw]
          | succ i =>
              simp only [List.take_succ_cons, List.drop_succ_cons]
              rw [rstrip_blank (blank_span hlines i j), rstrip_blank (blank_span hrows i j)]
  | cons x _ ih =>
      cases j with
      | zero => simp
      | succ j =>
          cases i with
          | zero =>
              simp only [List.take_succ_cons, List.drop_zero, List.flatten_cons]
              exact rstrip_append_congr x (ih 0 j)
          | succ i => exact ih i j

theorem agree_of_newlinesOnly {s : List Char} (line : List Char) (h : NewlinesOnly s = true) :
    Agree (splitLines line s) (splitRows line s) := by
  induction line, s using splitLines.induct with
  | case1 => exact .blank (by simp [splitLines]) (by simp [splitRows, Blank])
  | case2 line hline =>
      rw [splitLines, if_neg hline, splitRows]
      exact .cons _ (.blank (by simp) (by simp))
  | case3 line rest ih =>
      rw [NewlinesOnly] at h
      have hrows : splitRows line ('\r' :: '\n' :: rest) =
          (line.reverse ++ ['\r', '\n']) :: splitRows [] rest := by
        simp [splitRows_cons]
      rw [splitLines, hrows]
      exact .cons _ (ih h)
  | case4 line c rest hcr hbreak ih =>
      rw [splitLines, if_pos hbreak, splitRows_cons]
      · rw [NewlinesOnly] at h
        · by_cases hc : c = '\n'
          · rw [if_neg fun hand => hand.2 hc] at h
            rw [if_pos hc]
            exact .cons _ (ih h)
          · rw [if_pos ⟨hbreak, hc⟩] at h
            have hrest : Blank rest := fun x hx => List.all_eq_true.mp h x hx
            obtain ⟨r, rows, hsplit⟩ := splitRows_begun rest
            have hflat := splitRows_flatten [] rest
            rw [hsplit, List.flatten_cons] at hflat
            simp only [List.reverse_nil, List.nil_append] at hflat
            rw [if_neg hc, hsplit]
            rw [← hflat, blank_append] at hrest
            refine .split _ r hrest.1 ?_ ?_
            · intro x hx y hy
              have hmem : y ∈ (splitLines [] rest).flatten := List.mem_flatten.mpr ⟨x, hx, hy⟩
              rw [splitLines_flatten] at hmem
              exact List.all_eq_true.mp h y (by simpa using hmem)
            · intro x hx y hy
              exact hrest.2 y (List.mem_flatten.mpr ⟨x, hx, hy⟩)
        · exact hcr
      · exact hcr
  | case5 line c rest hcr hbreak ih =>
      have hc : c ≠ '\n' := by
        rintro rfl
        exact hbreak (by decide)
      rw [splitLines, if_neg hbreak, splitRows_cons, if_neg hc]
      · rw [NewlinesOnly, if_neg fun hand => hbreak hand.1] at h
        · exact ih h
        · exact hcr
      · exact hcr

/-! ## Disagreement -/

/-- The line or row with this index, empty behind the last. -/
def nth (l : List (List Char)) (i : Nat) : List Char := l[i]?.getD []

@[simp] theorem nth_cons_zero (x : List Char) (l : List (List Char)) : nth (x :: l) 0 = x := rfl

@[simp] theorem nth_cons_succ (x : List Char) (l : List (List Char)) (i : Nat) :
    nth (x :: l) (i + 1) = nth l i := rfl

theorem blank_nth {l : List (List Char)} (h : ∀ x ∈ l, Blank x) (i : Nat) : Blank (nth l i) := by
  rw [nth]
  cases hi : l[i]? with
  | none => simp [Blank]
  | some x => exact h x (List.mem_of_getElem? hi)

/-- A span of one line. -/
theorem flatten_span (l : List (List Char)) (i : Nat) :
    ((l.take (i + 1)).drop i).flatten = nth l i := by
  induction l generalizing i with
  | nil => simp [nth]
  | cons x l ih =>
      cases i with
      | zero => simp
      | succ i => simpa using ih i

/-- Lines fall behind the rows only: where the rows up to a line are blank, the line is
blank. -/
theorem blank_line {line row s : List Char} {i : Nat} (hline : Blank line)
    (h : ∀ j ≤ i, Blank (nth (splitRows row s) j)) : Blank (nth (splitLines line s) i) := by
  induction line, s using splitLines.induct generalizing row i with
  | case1 => simp [splitLines, nth, Blank]
  | case2 line hne =>
      rw [splitLines, if_neg hne]
      exact blank_nth (by simpa [Blank] using hline) i
  | case3 line rest ih =>
      have hrows : splitRows row ('\r' :: '\n' :: rest) =
          (row.reverse ++ ['\r', '\n']) :: splitRows [] rest := by
        simp [splitRows_cons]
      rw [hrows] at h
      rw [splitLines]
      cases i with
      | zero =>
          refine blank_append.mpr ⟨by simpa [Blank] using hline, ?_⟩
          intro c hc
          rcases List.mem_pair.mp hc with rfl | rfl <;> decide
      | succ i => exact ih (by simp [Blank]) fun j hj => h (j + 1) (by omega)
  | case4 line c rest hcr hbreak ih =>
      rw [splitLines, if_pos hbreak]
      · cases i with
        | zero =>
            intro x hx
            rcases List.mem_cons.mp (List.mem_reverse.mp hx) with rfl | hx
            · exact isSpace_of_isLineBreak hbreak
            · exact hline x hx
        | succ i =>
            rw [splitRows_cons] at h
            split at h
            · exact ih (by simp [Blank]) fun j hj => h (j + 1) (by omega)
            · exact ih (by simp [Blank]) fun j hj => h j (by omega)
      · exact hcr
  | case5 line c rest hcr hbreak ih =>
      have hc : c ≠ '\n' := by
        rintro rfl
        exact hbreak (by decide)
      rw [splitRows_cons, if_neg hc] at h
      rw [splitLines, if_neg hbreak]
      · refine ih ?_ h
        obtain ⟨r, rows, hsplit⟩ := splitRows_begun rest
        have hrow := h 0 (Nat.zero_le i)
        rw [hsplit, nth_cons_zero] at hrow
        intro x hx
        rcases List.mem_cons.mp hx with rfl | hx
        · exact hrow x (by simp)
        · exact hline x hx
      · exact hcr

/-- A text behind a line end that is no newline is blank if every line reads like the
row of its number. -/
theorem blank_of_shifted {rest : List Char} {r : List Char} {rows : List (List Char)}
    (hsplit : splitRows [] rest = r :: rows) (hr : Blank r)
    (h : ∀ i < rows.length, rstrip (nth (splitLines [] rest) i) = rstrip (nth rows i)) :
    Blank rest := by
  have hrows : ∀ n, ∀ i ≤ n, Blank (nth (r :: rows) i) := by
    intro n
    induction n with
    | zero =>
        intro i hi
        obtain rfl := Nat.le_zero.mp hi
        exact hr
    | succ n ih =>
        intro i hi
        rcases Nat.lt_or_eq_of_le hi with hlt | rfl
        · exact ih i (by omega)
        · by_cases hn : n < rows.length
          · rw [← hsplit] at ih
            have hline : Blank (nth (splitLines [] rest) n) := blank_line (by simp [Blank]) ih
            refine blank_of_rstrip ?_
            rw [nth_cons_succ, ← h n hn, rstrip_blank hline]
          · simp [nth, List.getElem?_eq_none (Nat.not_lt.mp hn), Blank]
  have hflat := splitRows_flatten [] rest
  rw [hsplit, List.reverse_nil, List.nil_append] at hflat
  rw [← hflat]
  refine blank_flatten fun x hx => ?_
  obtain ⟨i, hi⟩ := List.getElem?_of_mem hx
  have := hrows i i (Nat.le_refl i)
  rwa [nth, hi] at this

/-- Where every row reads like the line of its number, only newlines end lines. -/
theorem newlinesOnly_of_rows (line : List Char) {s : List Char}
    (h : ∀ i < (splitRows line s).length,
      rstrip (nth (splitLines line s) i) = rstrip (nth (splitRows line s) i)) :
    NewlinesOnly s = true := by
  induction line, s using splitLines.induct with
  | case1 => rfl
  | case2 line hne => rfl
  | case3 line rest ih =>
      have hrows : splitRows line ('\r' :: '\n' :: rest) =
          (line.reverse ++ ['\r', '\n']) :: splitRows [] rest := by
        simp [splitRows_cons]
      rw [splitLines, hrows] at h
      rw [NewlinesOnly]
      exact ih fun i hi => h (i + 1) (Nat.succ_lt_succ hi)
  | case4 line c rest hcr hbreak ih =>
      rw [splitLines, if_pos hbreak, splitRows_cons] at h
      · rw [NewlinesOnly]
        · by_cases hc : c = '\n'
          · rw [if_neg fun hand => hand.2 hc]
            rw [if_pos hc] at h
            exact ih fun i hi => h (i + 1) (Nat.succ_lt_succ hi)
          · rw [if_pos ⟨hbreak, hc⟩]
            obtain ⟨r, rows, hsplit⟩ := splitRows_begun rest
            rw [if_neg hc, hsplit] at h
            have hr : Blank r := by
              by_contra hne
              have hzero := h 0 (Nat.succ_pos _)
              rw [nth_cons_zero, nth_cons_zero, rstrip_append hne] at hzero
              obtain ⟨w, hw, -⟩ := rstrip_append_tail (c :: line).reverse
              have hlen := congrArg List.length hw
              rw [hzero, List.length_append, List.length_append] at hlen
              exact hne (blank_of_rstrip (List.length_eq_zero_iff.mp (by omega)))
            refine List.all_eq_true.mpr ?_
            exact blank_of_shifted (hsplit []) hr fun i hi => h (i + 1) (Nat.succ_lt_succ hi)
        · exact hcr
      · exact hcr
  | case5 line c rest hcr hbreak ih =>
      have hc : c ≠ '\n' := by
        rintro rfl
        exact hbreak (by decide)
      rw [splitLines, if_neg hbreak, splitRows_cons, if_neg hc] at h
      · rw [NewlinesOnly, if_neg fun hand => hbreak hand.1]
        · exact ih h
        · exact hcr
      · exact hcr

end RepoMesh
