import Mathlib.Data.List.TakeWhile
import RepoMesh.Chunk
import RepoMesh.Segments

/-!
# Citation labels

`Citation.label`, and the regular expression `\[[^\]\n]+:\d+-\d+\]` by which an answer
is searched for labels. A match ends at the first closing bracket after its opening
bracket, so the matches of a text are found one for each segment that a closing bracket
closes: the longest one of that segment.
-/

namespace RepoMesh

/-! ## Labels -/

structure Citation where
  chunkId : Uuid
  filePath : String
  startLine : Nat
  endLine : Nat
  deriving DecidableEq

/-- `Citation.label` of a path and two lines. -/
def labelOf (filePath : String) (startLine endLine : Nat) : String :=
  "[" ++ filePath ++ ":" ++ toString startLine ++ "-" ++ toString endLine ++ "]"

def Citation.label (c : Citation) : String := labelOf c.filePath c.startLine c.endLine

/-- The lines of a label, between its path and its bracket. -/
def linesPart (startLine endLine : Nat) : List Char :=
  ':' :: (Nat.toDigits 10 startLine ++ '-' :: Nat.toDigits 10 endLine)

theorem toList_labelOf (path : String) (s e : Nat) :
    (labelOf path s e).toList = '[' :: (path.toList ++ linesPart s e ++ [']']) := by
  simp [labelOf, linesPart]

theorem not_mem_linesPart {c : Char} (h : c ∈ ['[', ']', '\n']) (s e : Nat) :
    c ∉ linesPart s e := by
  have hdigits (n : Nat) : c ∉ Nat.toDigits 10 n := by
    intro hc
    have hdigit := Nat.isDigit_of_mem_toDigits (by simp) (by simp) hc
    simp only [List.mem_cons, List.not_mem_nil, or_false] at h
    rcases h with rfl | rfl | rfl <;> cases hdigit
  have hsigns : c ≠ ':' ∧ c ≠ '-' := by
    simp only [List.mem_cons, List.not_mem_nil, or_false] at h
    rcases h with rfl | rfl | rfl <;> simp
  simp [linesPart, hsigns, hdigits]

/-! ## The regular expression -/

/-- The digits zero of Unicode; nine more follow each. -/
def zeros : List Nat :=
  [0x30, 0x660, 0x6F0, 0x7C0, 0x966, 0x9E6, 0xA66, 0xAE6, 0xB66, 0xBE6, 0xC66, 0xCE6, 0xD66,
    0xDE6, 0xE50, 0xED0, 0xF20, 0x1040, 0x1090, 0x17E0, 0x1810, 0x1946, 0x19D0, 0x1A80, 0x1A90,
    0x1B50, 0x1BB0, 0x1C40, 0x1C50, 0xA620, 0xA8D0, 0xA900, 0xA9D0, 0xA9F0, 0xAA50, 0xABF0,
    0xFF10, 0x104A0, 0x10D30, 0x11066, 0x110F0, 0x11136, 0x111D0, 0x112F0, 0x11450, 0x114D0,
    0x11650, 0x116C0, 0x11730, 0x118E0, 0x11950, 0x11C50, 0x11D50, 0x11DA0, 0x11F50, 0x16A60,
    0x16AC0, 0x16B50, 0x1D7CE, 0x1D7D8, 0x1D7E2, 0x1D7EC, 0x1D7F6, 0x1E140, 0x1E2F0, 0x1E4F0,
    0x1E950, 0x1FBF0]

/-- `\d` -/
def isDecimal (c : Char) : Bool := zeros.any fun first => first ≤ c.toNat && c.toNat ≤ first + 9

/-- `.+:\d+-\d+` of a text without line ends, read from its end. -/
def isCitation (body : List Char) : Bool :=
  let last := body.reverse.takeWhile isDecimal
  match body.reverse.dropWhile isDecimal with
  | '-' :: rest =>
      let first := rest.takeWhile isDecimal
      match rest.dropWhile isDecimal with
      | ':' :: path => last ≠ [] ∧ first ≠ [] ∧ path ≠ []
      | _ => false
  | _ => false

/-- The match of `\[[^\]\n]+:\d+-\d+\]` at the start of a text: it ends at the first
closing bracket. -/
def labelAt : List Char → Option (List Char)
  | '[' :: rest =>
      let body := rest.takeWhile fun c => c ≠ ']' ∧ c ≠ '\n'
      match rest.dropWhile fun c => c ≠ ']' ∧ c ≠ '\n' with
      | ']' :: _ => if isCitation body then some ('[' :: (body ++ [']'])) else none
      | _ => none
  | _ => none

/-- `re.findall` -/
def findLabels : List Char → List (List Char)
  | [] => []
  | c :: rest =>
      match labelAt (c :: rest) with
      | some label => label :: findLabels (rest.drop (label.length - 1))
      | none => findLabels rest
  termination_by text => text.length
  decreasing_by
    all_goals
      simp only [List.length_drop, List.length_cons]
      omega

theorem isDecimal_of_isDigit {c : Char} (h : c.isDigit = true) : isDecimal c = true := by
  have hrange : 48 ≤ c.toNat ∧ c.toNat ≤ 57 := Char.isDigit_iff_toNat.mp h
  have hzero : 48 ∈ zeros := by decide
  refine List.any_eq_true.mpr ⟨48, hzero, ?_⟩
  simpa using hrange

theorem takeWhile_dropWhile_append {α : Type} {p : α → Bool} {xs : List α} {x : α} (ys : List α)
    (hxs : ∀ y ∈ xs, p y = true) (hx : p x = false) :
    (xs ++ x :: ys).takeWhile p = xs ∧ (xs ++ x :: ys).dropWhile p = x :: ys := by
  rw [List.takeWhile_append_of_pos hxs, List.dropWhile_append_of_pos hxs]
  simp [hx]

/-- What `isCitation` reads: a path, two numbers, and the signs between them. -/
theorem isCitation_iff {body : List Char} :
    isCitation body = true ↔ ∃ path first last : List Char,
      body = path ++ ':' :: (first ++ '-' :: last) ∧ path ≠ [] ∧ first ≠ [] ∧ last ≠ [] ∧
        (∀ c ∈ first, isDecimal c = true) ∧ ∀ c ∈ last, isDecimal c = true := by
  constructor
  · intro h
    unfold isCitation at h
    simp only at h
    split at h
    · rename_i rest hrest
      split at h
      · rename_i path hpath
        obtain ⟨hlast, hfirst, hne⟩ := of_decide_eq_true h
        refine ⟨path.reverse, (rest.takeWhile isDecimal).reverse,
          (body.reverse.takeWhile isDecimal).reverse, ?_, by simpa using hne,
          by simpa using hfirst, by simpa using hlast,
          fun c hc => List.mem_takeWhile_imp (List.mem_reverse.mp hc),
          fun c hc => List.mem_takeWhile_imp (List.mem_reverse.mp hc)⟩
        have hbody := List.takeWhile_append_dropWhile (p := isDecimal) (l := body.reverse)
        have htail := List.takeWhile_append_dropWhile (p := isDecimal) (l := rest)
        rw [hrest] at hbody
        rw [hpath] at htail
        calc body = (body.reverse.takeWhile isDecimal ++ '-' :: rest).reverse := by
              rw [hbody, List.reverse_reverse]
          _ = (body.reverse.takeWhile isDecimal ++
                '-' :: (rest.takeWhile isDecimal ++ ':' :: path)).reverse := by rw [htail]
          _ = _ := by simp
      · cases h
    · cases h
  · rintro ⟨path, first, last, rfl, hpath, hfirst, hlast, hfirsts, hlasts⟩
    have hreverse : (path ++ ':' :: (first ++ '-' :: last)).reverse =
        last.reverse ++ '-' :: (first.reverse ++ ':' :: path.reverse) := by simp
    obtain ⟨htake, hdrop⟩ := takeWhile_dropWhile_append (x := '-')
      (first.reverse ++ ':' :: path.reverse) (fun c hc => hlasts c (List.mem_reverse.mp hc)) (by decide)
    obtain ⟨htake', hdrop'⟩ := takeWhile_dropWhile_append (x := ':') path.reverse
      (fun c hc => hfirsts c (List.mem_reverse.mp hc)) (by decide)
    unfold isCitation
    simp only [hreverse, htake, hdrop, htake', hdrop']
    simp [hpath, hfirst, hlast]

/-- What `Citation.label` writes is read, unless the path is empty. -/
theorem isCitation_label {path : List Char} (h : path ≠ []) (s e : Nat) :
    isCitation (path ++ linesPart s e) = true := by
  have hdigits (n : Nat) : ∀ c ∈ Nat.toDigits 10 n, isDecimal c = true := fun c hc =>
    isDecimal_of_isDigit (Nat.isDigit_of_mem_toDigits (by simp) (by simp) hc)
  exact isCitation_iff.mpr ⟨path, _, _, rfl, h, Nat.toDigits_ne_nil, Nat.toDigits_ne_nil,
    hdigits s, hdigits e⟩

/-- Without a path there is no label. -/
theorem isCitation_linesPart (s e : Nat) : isCitation (linesPart s e) = false := by
  have hno : ¬ isCitation (linesPart s e) = true := by
    intro hcit
    obtain ⟨path, first, last, heq, hpath, -⟩ := isCitation_iff.mp hcit
    have hcolon (n : Nat) : ':' ∉ Nat.toDigits 10 n := by
      intro hc
      have hdigit := Nat.isDigit_of_mem_toDigits (by simp) (by simp) hc
      cases hdigit
    cases path with
    | nil => exact hpath rfl
    | cons c path =>
        rw [linesPart, List.cons_append, List.cons.injEq] at heq
        have hmem : ':' ∈ Nat.toDigits 10 s ++ '-' :: Nat.toDigits 10 e := by rw [heq.2]; simp
        simp [hcolon] at hmem
  simpa using hno

theorem isCitation_of_last {c : Char} (h : isDecimal c = false) (body : List Char) :
    isCitation (body ++ [c]) = false := by
  have hne : ¬ isCitation (body ++ [c]) = true := by
    intro hcit
    obtain ⟨path, first, last, heq, -, -, hlast, -, hlasts⟩ := isCitation_iff.mp hcit
    have hmem : c ∈ last := by
      have hsuffix : last <:+ body ++ [c] := ⟨path ++ ':' :: (first ++ ['-']), by simp [heq]⟩
      obtain ⟨front, rfl, -⟩ := (List.suffix_concat_iff.mp hsuffix).resolve_left hlast
      simp
    rw [hlasts c hmem] at h
    cases h
  simpa using hne

/-- What the regular expression matches. -/
def IsLabel (label : List Char) : Prop :=
  ∃ body, label = '[' :: (body ++ [']']) ∧ ']' ∉ body ∧ '\n' ∉ body ∧ isCitation body = true

/-! ## One segment -/

/-- The match in a segment that a closing bracket follows. -/
def labelIn : List Char → Option (List Char)
  | [] => none
  | c :: rest =>
      if c = '[' ∧ '\n' ∉ rest ∧ isCitation rest then some (c :: (rest ++ [']']))
      else labelIn rest

theorem labelAt_closed {body rest : List Char} (h : ']' ∉ body) :
    labelAt ('[' :: (body ++ ']' :: rest)) =
      if '\n' ∉ body ∧ isCitation body then some ('[' :: (body ++ [']'])) else none := by
  by_cases hline : '\n' ∈ body
  · obtain ⟨front, back, heq, hfront⟩ := List.eq_append_cons_of_mem hline
    subst heq
    obtain ⟨htake, hdrop⟩ := takeWhile_dropWhile_append
      (p := fun c => decide (c ≠ ']' ∧ c ≠ '\n')) (x := '\n') (back ++ ']' :: rest)
      (fun c (hc : c ∈ front) => by
        refine decide_eq_true ⟨?_, ?_⟩
        · rintro rfl
          exact h (by simp [hc])
        · rintro rfl
          exact hfront hc) (by decide)
    rw [if_neg (by simp), labelAt]
    simp only [List.append_assoc, List.cons_append, hdrop]
    rfl
  · obtain ⟨htake, hdrop⟩ := takeWhile_dropWhile_append
      (p := fun c => decide (c ≠ ']' ∧ c ≠ '\n')) (x := ']') rest
      (fun c (hc : c ∈ body) => by
        refine decide_eq_true ⟨?_, ?_⟩
        · rintro rfl
          exact h hc
        · rintro rfl
          exact hline hc) (by decide)
    rw [labelAt]
    simp only [htake, hdrop, hline, not_false_eq_true, true_and]

theorem labelAt_open {rest : List Char} (h : ']' ∉ rest) : labelAt ('[' :: rest) = none := by
  rw [labelAt]
  split
  · rename_i tail htail
    have hmem : ']' ∈ rest.dropWhile fun c => decide (c ≠ ']' ∧ c ≠ '\n') := by rw [htail]; simp
    exact absurd ((List.dropWhile_suffix _).subset hmem) h
  · rfl

theorem labelAt_of_ne {c : Char} {rest : List Char} (h : c ≠ '[') :
    labelAt (c :: rest) = none := by
  rw [labelAt]
  rintro _ ⟨⟩
  exact h rfl

theorem findLabels_last {text : List Char} (h : ']' ∉ text) : findLabels text = [] := by
  induction text with
  | nil => rw [findLabels]
  | cons c rest ih =>
      have hrest : ']' ∉ rest := fun hm => h (by simp [hm])
      have hnone : labelAt (c :: rest) = none := by
        by_cases hc : c = '['
        · rw [hc, labelAt_open hrest]
        · exact labelAt_of_ne hc
      rw [findLabels, hnone]
      exact ih hrest

theorem findLabels_closed {seg : List Char} (h : ']' ∉ seg) (rest : List Char) :
    findLabels (seg ++ ']' :: rest) = (labelIn seg).toList ++ findLabels rest := by
  induction seg with
  | nil =>
      rw [List.nil_append, findLabels]
      rfl
  | cons c seg ih =>
      have hseg : ']' ∉ seg := fun hm => h (by simp [hm])
      rw [List.cons_append, findLabels, labelIn]
      by_cases hc : c = '['
      · subst hc
        rw [labelAt_closed hseg]
        by_cases hcit : '\n' ∉ seg ∧ isCitation seg = true
        · simp [hcit]
        · rw [if_neg hcit]
          simp [hcit, ih hseg]
      · rw [labelAt_of_ne hc]
        simp [hc, ih hseg]

theorem labelIn_some {seg label : List Char} (h : labelIn seg = some label) :
    ∃ body, label = '[' :: (body ++ [']']) ∧ '[' :: body <:+ seg ∧ '\n' ∉ body ∧
      isCitation body = true := by
  induction seg with
  | nil => cases h
  | cons c seg ih =>
      rw [labelIn] at h
      split at h
      · rename_i hcit
        obtain ⟨rfl, hline, hbody⟩ := hcit
        exact ⟨seg, (Option.some.inj h).symm, List.suffix_refl _, hline, hbody⟩
      · obtain ⟨body, hlabel, hsuffix, hrest⟩ := ih h
        exact ⟨body, hlabel, hsuffix.trans (List.suffix_cons c seg), hrest⟩

/-- A segment's match reaches back as far as it can. -/
theorem labelIn_append {body : List Char} (hline : '\n' ∉ body) (hbody : isCitation body = true)
    (front : List Char) : ∃ w, w <:+ front ∧
      labelIn (front ++ '[' :: body) = some (w ++ '[' :: (body ++ [']'])) := by
  induction front with
  | nil => exact ⟨[], List.suffix_refl _, by simp [labelIn, hline, hbody]⟩
  | cons c front ih =>
      rw [List.cons_append, labelIn]
      by_cases hcit : c = '[' ∧ '\n' ∉ front ++ '[' :: body ∧ isCitation (front ++ '[' :: body)
      · exact ⟨c :: front, List.suffix_refl _, by rw [if_pos hcit]; simp⟩
      · obtain ⟨w, hw, hlabel⟩ := ih
        exact ⟨w, hw.trans (List.suffix_cons c front), by rw [if_neg hcit, hlabel]⟩

theorem labelIn_of_last {c : Char} (h : isDecimal c = false) (front : List Char) :
    labelIn (front ++ [c]) = none := by
  induction front with
  | nil =>
      have hnil : isCitation [] = false := by decide
      simp [labelIn, hnil]
  | cons b front ih =>
      rw [List.cons_append, labelIn, if_neg (by simp [isCitation_of_last h]), ih]

/-! ## The matches of a text -/

theorem mem_findLabels {text label : List Char} :
    label ∈ findLabels text → IsLabel label ∧ label <:+: text := by
  induction text using segment_induction ']' with
  | last text h =>
      intro hmem
      rw [findLabels_last h] at hmem
      cases hmem
  | closed seg rest hseg ih =>
      intro hmem
      rw [findLabels_closed hseg, List.mem_append, Option.mem_toList] at hmem
      rcases hmem with hin | hrest
      · obtain ⟨body, rfl, ⟨front, hfront⟩, hline, hbody⟩ := labelIn_some hin
        have hclose : ']' ∉ body := fun hm => hseg (by rw [← hfront]; simp [hm])
        exact ⟨⟨body, rfl, hclose, hline, hbody⟩, front, rest, by rw [← hfront]; simp⟩
      · obtain ⟨hlabel, hpart⟩ := ih hrest
        refine ⟨hlabel, hpart.trans ?_⟩
        exact ⟨seg ++ [']'], [], by simp⟩

/-- Every label in a text is the end of a match. -/
theorem label_found {label : List Char} (h : IsLabel label) (front back : List Char) :
    ∃ w, w <:+ front ∧ w ++ label ∈ findLabels (front ++ label ++ back) := by
  obtain ⟨body, rfl, hclose, hline, hbody⟩ := h
  induction front using segment_induction ']' with
  | last front hfront =>
      obtain ⟨w, hw, hlabel⟩ := labelIn_append hline hbody front
      have hseg : ']' ∉ front ++ '[' :: body := by simp [hfront, hclose]
      have hfound := findLabels_closed hseg back
      rw [hlabel] at hfound
      refine ⟨w, hw, ?_⟩
      have htext : front ++ '[' :: (body ++ [']']) ++ back =
          front ++ '[' :: body ++ ']' :: back := by simp
      rw [htext, hfound]
      simp
  | closed seg rest hseg ih =>
      obtain ⟨w, hw, hmem⟩ := ih
      refine ⟨w, hw.trans ⟨seg ++ [']'], by simp⟩, ?_⟩
      have hfound := findLabels_closed hseg (rest ++ '[' :: (body ++ [']']) ++ back)
      have htext : seg ++ ']' :: rest ++ '[' :: (body ++ [']']) ++ back =
          seg ++ ']' :: (rest ++ '[' :: (body ++ [']']) ++ back) := by simp
      rw [htext, hfound]
      exact List.mem_append_right _ hmem

/-- What closes last is a match of the text before it, or the end of the text. -/
theorem findLabels_tail {tail label : List Char} (htail : ']' ∉ tail) {text : List Char} :
    label ∈ findLabels (text ++ tail ++ [']']) →
      label ∈ findLabels text ∨ label <:+ text ++ tail ++ [']'] := by
  induction text using segment_induction ']' with
  | last text h =>
      intro hmem
      have hseg : ']' ∉ text ++ tail := by simp [h, htail]
      rw [findLabels_closed hseg, findLabels_last (by simp), List.append_nil,
        Option.mem_toList] at hmem
      obtain ⟨body, rfl, ⟨front, hfront⟩, -, -⟩ := labelIn_some hmem
      exact .inr ⟨front, by rw [← hfront]; simp⟩
  | closed seg rest hseg ih =>
      intro hmem
      have htext : seg ++ ']' :: rest ++ tail ++ [']'] = seg ++ ']' :: (rest ++ tail ++ [']']) := by
        simp
      rw [htext, findLabels_closed hseg, List.mem_append] at hmem
      rw [htext, findLabels_closed hseg, List.mem_append]
      rcases hmem with hin | hrest
      · exact .inl (.inl hin)
      · rcases ih hrest with hfound | hsuffix
        · exact .inl (.inr hfound)
        · exact .inr (hsuffix.trans ⟨seg ++ [']'], by simp⟩)

end RepoMesh
