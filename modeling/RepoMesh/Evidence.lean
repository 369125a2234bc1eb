import Mathlib.Data.Set.List
import RepoMesh.Answer
import RepoMesh.LineRows

/-!
# Answers cite what was retrieved

Which labels an answer can hold outside the labels of the chunks given. A text after
removal shows only given labels as far as the regular expression sees; a label whose
path has a closing bracket or a line end is not a match itself, and stays unless a match
within it is removed. `Shielded` is what protects such a path: a match within it that no
chunk's label equals, and no way for the label to come about where the labels are
appended.
-/

namespace RepoMesh

/-- An occurrence of `part`, between `u` and `v`, lies in one of `whole`. -/
def Within (whole part u v : List Char) : Prop :=
  ∃ w z, whole = w ++ part ++ z ∧ w <:+ u ∧ z <+: v

/-- Nonempty text without brackets and newlines. -/
def Bare (path : String) : Prop :=
  path ≠ "" ∧ '[' ∉ path.toList ∧ ']' ∉ path.toList ∧ '\n' ∉ path.toList

/-- The answer cites nothing but the chunks given, and one of them if there are any. -/
structure OnlyEvidence (manifest : List String) (given : List Citation) (text : String) :
    Prop where
  outside : ∀ path startLine endLine, path ∈ manifest ∨ Bare path →
    ∀ u v, text.toList = u ++ (labelOf path startLine endLine).toList ++ v →
      ∃ c ∈ given, Within c.label.toList (labelOf path startLine endLine).toList u v
  some : given ≠ [] → ∃ c ∈ given, c.label.toList <:+: text.toList

/-- A path whose labels the regular expression matches as a whole. -/
structure Plain (path : List Char) : Prop where
  ne_nil : path ≠ []
  no_close : ']' ∉ path
  no_line : '\n' ∉ path

/-- A path whose labels cannot stay although they are not matches. -/
structure Shielded (path : List Char) : Prop where
  broken : ∃ m ∈ findLabels ('[' :: path), ∀ q s e, m ≠ (labelOf q s e).toList
  ahead : ∀ front rest, path = front ++ sources ++ '[' :: rest → findLabels ('[' :: front) = [] →
    rstrip ('[' :: front) ≠ '[' :: front
  joined : ∀ q s e rest, path ≠ q ++ linesPart s e ++ [']', ' ', '['] ++ rest

/-! ## Labels within labels -/

theorem lines_of_suffix (path : List Char) (s e : Nat) {rest : List Char}
    (h : '[' :: rest <:+ '[' :: (path ++ linesPart s e ++ [']'])) :
    ∃ q, rest = q ++ linesPart s e ++ [']'] := by
  have hopen : '[' ∉ linesPart s e ++ [']'] := by
    simp [not_mem_linesPart (c := '[') (by simp)]
  have hlines : linesPart s e ++ [']'] <:+ '[' :: (path ++ linesPart s e ++ [']']) :=
    ⟨'[' :: path, by simp⟩
  rcases List.suffix_or_suffix_of_suffix hlines h with ⟨front, hfront⟩ | hinside
  · cases front with
    | nil =>
        rw [List.nil_append] at hfront
        exact absurd (hfront ▸ List.mem_cons_self) hopen
    | cons c q =>
        rw [List.cons_append, List.cons.injEq] at hfront
        exact ⟨q, by rw [← hfront.2, List.append_assoc]⟩
  · exact absurd (hinside.subset List.mem_cons_self) hopen

/-- A match that ends a label is a label. -/
theorem label_of_suffix (path : String) (s e : Nat) {m : List Char} (hm : IsLabel m)
    (h : m <:+ (labelOf path s e).toList) : ∃ q, m = (labelOf q s e).toList := by
  obtain ⟨body, rfl, -⟩ := hm
  rw [toList_labelOf] at h
  obtain ⟨q, hq⟩ := lines_of_suffix _ _ _ h
  exact ⟨String.ofList q, by rw [toList_labelOf, String.toList_ofList, hq]⟩

theorem isLabel_labelOf_iff {path : String} {s e : Nat} :
    IsLabel (labelOf path s e).toList ↔ Plain path.toList := by
  have hlines (c : Char) (hc : c ∈ ['[', ']', '\n']) :
      c ∉ path.toList ++ linesPart s e ↔ c ∉ path.toList := by
    simp [not_mem_linesPart hc]
  constructor
  · rintro ⟨body, hlabel, hclose, hline, hbody⟩
    rw [toList_labelOf, List.cons.injEq] at hlabel
    obtain rfl := List.append_cancel_right hlabel.2
    refine ⟨?_, (hlines ']' (by simp)).mp hclose,
      (hlines '\n' (by simp)).mp hline⟩
    intro hnil
    rw [hnil, List.nil_append, isCitation_linesPart] at hbody
    cases hbody
  · intro h
    exact ⟨path.toList ++ linesPart s e, toList_labelOf path s e,
      (hlines ']' (by simp)).mpr h.no_close,
      (hlines '\n' (by simp)).mpr h.no_line,
      isCitation_label h.ne_nil s e⟩

/-! ## What stays in the text -/

section

variable {given : List Citation} {path : String} {s e : Nat} {u v : List Char}

/-- A text whose matches are all labels of given chunks has no label of a plain or
shielded path outside them. -/
theorem within_of_clean {text : List Char}
    (hclean : ∀ m ∈ findLabels text, m ∈ given.map (·.label.toList))
    (hpath : Plain path.toList ∨ Shielded path.toList)
    (h : text = u ++ (labelOf path s e).toList ++ v) :
    ∃ c ∈ given, ∃ w, c.label.toList = w ++ (labelOf path s e).toList ∧ w <:+ u := by
  rcases hpath with hplain | hshield
  · obtain ⟨w, hw, hmem⟩ := label_found (isLabel_labelOf_iff.mpr hplain) u v
    rw [← h] at hmem
    obtain ⟨c, hc, hlabel⟩ := List.mem_map.mp (hclean _ hmem)
    exact ⟨c, hc, w, hlabel, hw⟩
  · obtain ⟨m, hm, hne⟩ := hshield.broken
    obtain ⟨hlabel, front, back, hparts⟩ := mem_findLabels hm
    obtain ⟨w, -, hmem⟩ := label_found hlabel (u ++ front)
      (back ++ linesPart s e ++ [']'] ++ v)
    have htext : u ++ front ++ m ++ (back ++ linesPart s e ++ [']'] ++ v) = text := by
      have hpart : front ++ (m ++ back) = '[' :: path.toList := by rw [← hparts]; simp
      rw [h, toList_labelOf]
      simp only [← List.cons_append, ← hpart, List.append_assoc]
    rw [htext] at hmem
    obtain ⟨c, -, hc⟩ := List.mem_map.mp (hclean _ hmem)
    obtain ⟨q, hq⟩ := label_of_suffix c.filePath c.startLine c.endLine hlabel ⟨w, hc.symm⟩
    exact absurd hq (hne _ _ _)

/-! ## What is appended -/

/-- The part of a label from an opening bracket on, when a part without its end is
before it. -/
theorem path_of_parts (front rest : List Char)
    (h : (labelOf path s e).toList = '[' :: front ++ '[' :: rest) :
    ∃ q, path.toList = front ++ '[' :: q := by
  rw [toList_labelOf] at h
  obtain ⟨q, rfl⟩ := lines_of_suffix path.toList s e
    ⟨'[' :: front, h.symm⟩
  refine ⟨q, ?_⟩
  have hcancel : path.toList ++ (linesPart s e ++ [']']) =
      front ++ '[' :: q ++ (linesPart s e ++ [']']) := by
    simpa using h
  exact List.append_cancel_right hcancel

theorem label_ends {a b : List Char} (ha : a ≠ []) (hb : b ≠ [])
    (h : (labelOf path s e).toList = a ++ b) :
    (∃ front, a = '[' :: front) ∧ ∃ back, b = back ++ [']'] := by
  rw [toList_labelOf] at h
  constructor
  · cases a with
    | nil => exact absurd rfl ha
    | cons x front =>
        rw [List.cons_append, List.cons.injEq] at h
        exact ⟨front, by rw [h.1]⟩
  · have hsuffix : b <:+ '[' :: (path.toList ++ linesPart s e) ++ [']'] := ⟨a, h.symm⟩
    obtain ⟨back, hback, -⟩ := (List.suffix_concat_iff.mp hsuffix).resolve_left hb
    exact ⟨back, hback⟩

theorem intercalate_labels_head (c : Citation) (cs : List Citation) :
    ∃ rest, [' '].intercalate ((c :: cs).map (·.label.toList)) = c.label.toList ++ rest := by
  cases cs with
  | nil => exact ⟨[], by simp⟩
  | cons d cs => exact ⟨' ' :: [' '].intercalate ((d :: cs).map (·.label.toList)), by simp⟩

/-- A label in joined labels lies in one of them, unless its path has two of them
meeting. -/
theorem within_of_joined :
    [' '].intercalate (given.map (·.label.toList)) = u ++ (labelOf path s e).toList ++ v →
      (∃ c ∈ given, Within c.label.toList (labelOf path s e).toList u v) ∨
        ∃ q s' e' rest, path.toList = q ++ linesPart s' e' ++ [']', ' ', '['] ++ rest := by
  induction given generalizing u with
  | nil =>
      intro h
      have hlength := congrArg List.length h
      simp [toList_labelOf] at hlength
  | cons c cs ih =>
      intro h
      cases cs with
      | nil => exact .inl ⟨c, by simp, u, v, by simpa using h, List.suffix_refl u, List.prefix_refl v⟩
      | cons d cs =>
          have hjoin : c.label.toList ++ ' ' :: [' '].intercalate ((d :: cs).map (·.label.toList)) =
              u ++ (labelOf path s e).toList ++ v := by
            rw [← h]
            simp
          rcases occurrence_append hjoin with ⟨v', hc, hv⟩ | ⟨u', hrest, hu⟩ |
            ⟨a, b, ha, hb, hlabel, hc, hrest⟩
          · exact .inl ⟨c, by simp, u, v', hc, List.suffix_refl u, by simp [hv]⟩
          · cases u' with
            | nil =>
                rw [toList_labelOf] at hrest
                cases hrest
            | cons x u'' =>
                rw [List.cons_append, List.cons_append, List.cons.injEq] at hrest
                rcases ih hrest.2 with ⟨c', hc', w, z, hwithin, hw, hz⟩ | hjoined
                · refine .inl ⟨c', by simp [hc'], w, z, hwithin, hw.trans ?_, hz⟩
                  exact ⟨c.label.toList ++ [x], by rw [hu]; simp⟩
                · exact .inr hjoined
          · obtain ⟨⟨front, rfl⟩, back, hback⟩ := label_ends ha hb hlabel
            obtain ⟨q, rfl⟩ := lines_of_suffix c.filePath.toList c.startLine
              c.endLine ⟨u, by rw [← hc, Citation.label, toList_labelOf]⟩
            cases b with
            | nil => exact absurd rfl hb
            | cons x b' =>
                rw [List.cons_append, List.cons.injEq] at hrest
                obtain ⟨rfl, hrest⟩ := hrest
                obtain ⟨tail, htail⟩ := intercalate_labels_head d cs
                rw [htail, Citation.label, toList_labelOf] at hrest
                cases b' with
                | nil => cases back <;> simp at hback
                | cons y b'' =>
                    rw [List.cons_append, List.cons_append, List.cons.injEq] at hrest
                    obtain ⟨rfl, -⟩ := hrest
                    obtain ⟨rest, hpath⟩ := path_of_parts
                      (q ++ linesPart c.startLine c.endLine ++ [']', ' ']) b''
                      (by rw [hlabel]; simp)
                    exact .inr ⟨q, c.startLine, c.endLine, rest, by rw [hpath]; simp⟩

/-- A label in a text with the labels behind it lies in the text, or in one of the
labels, or its path has the heading or two labels meeting. -/
theorem within_of_sources {text : List Char} (hgiven : given ≠ [])
    (h : text ++ (sources ++ [' '].intercalate (given.map (·.label.toList))) =
      u ++ (labelOf path s e).toList ++ v) :
    (∃ v', text = u ++ (labelOf path s e).toList ++ v') ∨
      (∃ c ∈ given, Within c.label.toList (labelOf path s e).toList u v) ∨
      (∃ front rest, path.toList = front ++ sources ++ '[' :: rest ∧ '[' :: front <:+ text) ∨
      ∃ q s' e' rest, path.toList = q ++ linesPart s' e' ++ [']', ' ', '['] ++ rest := by
  have hopen : '[' ∉ sources := by decide
  have hclose : ']' ∉ sources := by decide
  obtain ⟨c, cs, rfl⟩ := List.exists_cons_of_ne_nil hgiven
  rcases occurrence_append h with ⟨v', htext, -⟩ | ⟨u', hrest, hu⟩ |
    ⟨a, b, ha, hb, hlabel, htext, hrest⟩
  · exact .inl ⟨v', htext⟩
  · rcases occurrence_append hrest with ⟨v', hinside, -⟩ | ⟨u'', hjoin, hu'⟩ |
      ⟨a, b, ha, hb, hlabel, hhead, -⟩
    · rw [toList_labelOf] at hinside
      exact absurd (by rw [hinside]; simp) hopen
    · rcases within_of_joined hjoin with ⟨c', hc', w, z, hwithin, hw, hz⟩ | hjoined
      · refine .inr (.inl ⟨c', hc', w, z, hwithin, hw.trans ?_, hz⟩)
        exact ⟨text ++ sources, by rw [hu, hu', List.append_assoc]⟩
      · exact .inr (.inr (.inr hjoined))
    · obtain ⟨⟨front, rfl⟩, -⟩ := label_ends ha hb hlabel
      exact absurd (by rw [hhead]; simp) hopen
  · obtain ⟨⟨front, rfl⟩, back, hback⟩ := label_ends ha hb hlabel
    rcases List.append_eq_append_iff.mp hrest with ⟨b', hb', hjoin⟩ | ⟨b', hb', -⟩
    · obtain ⟨tail, htail⟩ := intercalate_labels_head c cs
      rw [htail, Citation.label, toList_labelOf] at hjoin
      cases b' with
      | nil =>
          rw [List.append_nil] at hb'
          exact absurd (by rw [← hb', hback]; simp) hclose
      | cons y rest =>
          rw [List.cons_append, List.cons_append, List.cons.injEq] at hjoin
          obtain ⟨rfl, -⟩ := hjoin
          obtain ⟨q, hpath⟩ := path_of_parts (front ++ sources) rest
            (by rw [hlabel, hb']; simp)
          exact .inr (.inr (.inl ⟨front, q, hpath, u, htext.symm⟩))
    · exact absurd (by rw [hb', hback]; simp) hclose

/-! ## The answer -/

theorem plain_of_bare (h : Bare path) : Plain path.toList where
  ne_nil hnil := h.1 (String.toList_inj.mp (by rw [hnil]; rfl))
  no_close := h.2.2.1
  no_line := h.2.2.2

theorem rstrip_of_suffix {x text : List Char} (h : '[' :: x <:+ rstrip text) :
    rstrip ('[' :: x) = '[' :: x := by
  obtain ⟨front, hfront⟩ := h
  obtain ⟨w, htext, hw⟩ := rstrip_append_tail text
  have hblank : ¬ Blank ('[' :: x) := fun hb => absurd (hb '[' (by simp)) (by decide)
  have hstrip : rstrip text = front ++ rstrip ('[' :: x) := by
    rw [htext, rstrip_append_blank hw, ← hfront, rstrip_append hblank]
  rw [← hfront] at hstrip
  exact (List.append_cancel_left hstrip).symm

/-- A part of a text without matches has none. -/
theorem findLabels_of_suffix {x text : List Char} (h : findLabels text = []) (hx : x <:+: text) :
    findLabels x = [] := by
  obtain ⟨front, back, rfl⟩ := hx
  refine List.eq_nil_iff_forall_not_mem.mpr fun m hm => ?_
  obtain ⟨hlabel, before, behind, rfl⟩ := mem_findLabels hm
  obtain ⟨w, -, hmem⟩ := label_found hlabel (front ++ before) (behind ++ back)
  have htext : front ++ before ++ m ++ (behind ++ back) =
      front ++ (before ++ m ++ behind) ++ back := by simp
  rw [htext, h] at hmem
  cases hmem

theorem within_answerText {generated : List Char}
    (hpath : Plain path.toList ∨ Shielded path.toList)
    (h : answerText (given.map (·.label.toList)) generated =
      u ++ (labelOf path s e).toList ++ v) :
    ∃ c ∈ given, Within c.label.toList (labelOf path s e).toList u v := by
  have hclean : ∀ m ∈ findLabels (removeLabels (given.map (·.label.toList))
      (findLabels generated) generated), m ∈ given.map (·.label.toList) :=
    fun _ => findLabels_removeLabels
  rw [answerText] at h
  generalize removeLabels (given.map (·.label.toList)) (findLabels generated) generated = text
    at h hclean
  split at h
  · rw [toList_labelOf] at h
    have hopen : '[' ∉ insufficient := by decide
    exact absurd (by rw [h]; simp) hopen
  · rename_i hne
    split at h
    · obtain ⟨c, hc, w, hlabel, hw⟩ := within_of_clean hclean hpath h
      exact ⟨c, hc, w, [], by rw [hlabel, List.append_nil], hw, List.nil_prefix⟩
    · rename_i hnone
      rw [List.append_assoc, ← List.map_take] at h
      have hgiven : given.take 3 ≠ [] := by simpa using hne
      rcases within_of_sources hgiven h with ⟨v', htext⟩ | ⟨c, hc, hwithin⟩ |
        ⟨front, rest, hsplit, hsuffix⟩ | ⟨q, s', e', rest, hsplit⟩
      · obtain ⟨w, hw, -⟩ := rstrip_append_tail text
        rw [htext, List.append_assoc] at hw
        obtain ⟨c, hc, w', hlabel, hw'⟩ := within_of_clean hclean hpath hw
        exact ⟨c, hc, w', [], by rw [hlabel, List.append_nil], hw', List.nil_prefix⟩
      · exact ⟨c, List.mem_of_mem_take hc, hwithin⟩
      · rcases hpath with hplain | hshield
        · have hline : '\n' ∈ sources := by decide
          exact absurd (by rw [hsplit]; simp [hline]) hplain.no_line
        · have hnomatch : findLabels text = [] := List.eq_nil_iff_forall_not_mem.mpr
            fun m hm => hnone ⟨m, hclean m hm, (mem_findLabels hm).2⟩
          obtain ⟨w, hw, -⟩ := rstrip_append_tail text
          have hpart : '[' :: front <:+: text := by
            rw [hw]
            exact hsuffix.isInfix.trans ⟨[], w, rfl⟩
          exact absurd (rstrip_of_suffix hsuffix)
            (hshield.ahead front rest hsplit (findLabels_of_suffix hnomatch hpart))
      · rcases hpath with hplain | hshield
        · exact absurd (by rw [hsplit]; simp) hplain.no_close
        · exact absurd hsplit (hshield.joined q s' e' rest)

theorem label_in_answerText {generated : List Char} (h : given ≠ []) :
    ∃ c ∈ given, c.label.toList <:+: answerText (given.map (·.label.toList)) generated := by
  rw [answerText, if_neg (by simpa using h)]
  split
  · rename_i hin
    obtain ⟨label, hlabel, hpart⟩ := hin
    obtain ⟨c, hc, rfl⟩ := List.mem_map.mp hlabel
    exact ⟨c, hc, hpart⟩
  · obtain ⟨c, cs, rfl⟩ := List.exists_cons_of_ne_nil h
    refine ⟨c, by simp, ?_⟩
    rw [← List.map_take, List.take_succ_cons]
    obtain ⟨rest, hrest⟩ := intercalate_labels_head c (cs.take 2)
    rw [hrest, ← List.append_assoc]
    exact ⟨_, rest, rfl⟩

/-! ## Answers with labels that were not given -/

def cite (path : String) (s e : Nat) : Citation := ⟨⟨"", rfl⟩, path, s, e⟩

theorem removeLabels_of_allowed {allowed found : List (List Char)}
    (h : ∀ label ∈ found, label ∈ allowed) (text : List Char) :
    removeLabels allowed found text = text := by
  induction found with
  | nil => rfl
  | cons first found ih =>
      rw [removeLabels, List.foldl_cons, if_pos (h first (by simp)), ← removeLabels]
      exact ih fun label hl => h label (by simp [hl])

/-- A text whose matches are all allowed stays, whatever is appended. -/
theorem answerText_of_allowed {labels : List (List Char)} {text : List Char}
    (h : ∀ label ∈ findLabels text, label ∈ labels) (hne : labels ≠ [])
    (hstrip : rstrip text = text) : ∃ v, answerText labels text = text ++ v := by
  rw [answerText, removeLabels_of_allowed h, if_neg hne, hstrip]
  split
  · exact ⟨[], by rw [List.append_nil]⟩
  · rw [List.append_assoc]
    exact ⟨_, rfl⟩

theorem rstrip_labelOf (path : String) (s e : Nat) :
    rstrip (labelOf path s e).toList = (labelOf path s e).toList := by
  have hend : ¬ Blank [']'] := fun hb => absurd (hb ']' (by simp)) (by decide)
  rw [toList_labelOf, ← List.cons_append, rstrip_append hend]
  rfl

/-- Chunks with the labels that the regular expression finds in a label of the path. -/
theorem citations_of_matches
    (h : ¬ ∃ m ∈ findLabels ('[' :: path.toList), ∀ q s e, m ≠ (labelOf q s e).toList) :
    ∃ cs : List Citation, cs.map (·.label.toList) = findLabels (labelOf path 1 1).toList := by
  have hcite (q : String) (s e : Nat) : (labelOf q s e).toList ∈
      Set.range fun c : Citation => c.label.toList := ⟨cite q s e, rfl⟩
  have hlabels : ∀ m ∈ findLabels (labelOf path 1 1).toList,
      m ∈ Set.range fun c : Citation => c.label.toList := by
    intro m hm
    have hlabel := (mem_findLabels hm).1
    have htail : ']' ∉ linesPart 1 1 := not_mem_linesPart (by simp) 1 1
    rw [toList_labelOf, ← List.cons_append, ← List.cons_append] at hm
    rcases findLabels_tail htail hm with hwithin | hsuffix
    · by_contra hne
      refine h ⟨m, hwithin, fun q s e heq => hne ?_⟩
      rw [heq]
      exact hcite q s e
    · obtain ⟨q, rfl⟩ := label_of_suffix path 1 1 hlabel (by rwa [toList_labelOf])
      exact hcite q 1 1
  have hrange := Set.range_list_map fun c : Citation => c.label.toList
  exact hrange.symm.subset hlabels

theorem length_le_of_within {whole part : List Char} (h : Within whole part u v) :
    part.length ≤ whole.length := by
  obtain ⟨w, z, rfl, -⟩ := h
  simp only [List.length_append]
  omega

variable {manifest : List String}
  (honly : ∀ given generated, OnlyEvidence manifest given
    (String.ofList (answerText (given.map (·.label.toList)) generated)))
  (hpath : path ∈ manifest)

include honly hpath

/-- A label of the path in an answer is no longer than some label given. -/
theorem exists_longer_of_only {cs : List Citation} {generated a b : List Char}
    (h : answerText (cs.map (·.label.toList)) generated =
      a ++ (labelOf path s e).toList ++ b) :
    ∃ c ∈ cs, (labelOf path s e).toList.length ≤ c.label.toList.length := by
  obtain ⟨c, hc, hwithin⟩ := (honly cs generated).outside path s e (.inl hpath) a b
    (by rw [String.toList_ofList, h])
  exact ⟨c, hc, length_le_of_within hwithin⟩

/-- Two chunks whose labels meet. -/
theorem joined_of_only {q rest : List Char} {s e : Nat} :
    path.toList ≠ q ++ linesPart s e ++ [']', ' ', '['] ++ rest := by
  intro hsplit
  have hanswer : answerText ([cite (String.ofList q) s e, cite (String.ofList rest) 0 0].map
      (·.label.toList)) [] = sources ++ (labelOf path 0 0).toList ++ [] := by
    have hlabels : (labelOf path 0 0).toList = (labelOf (String.ofList q) s e).toList ++
        ' ' :: (labelOf (String.ofList rest) 0 0).toList := by
      simp [toList_labelOf, hsplit]
    have hnone : ¬ ∃ label ∈ [cite (String.ofList q) s e, cite (String.ofList rest) 0 0].map
        (·.label.toList), label <:+: removeLabels ([cite (String.ofList q) s e,
          cite (String.ofList rest) 0 0].map (·.label.toList)) (findLabels []) [] := by
      rintro ⟨label, hlabel, hpart⟩
      rw [findLabels_last (by simp), removeLabels, List.foldl_nil, List.infix_nil] at hpart
      rw [hpart] at hlabel
      simp [cite, Citation.label, toList_labelOf] at hlabel
    rw [answerText, if_neg (by simp), if_neg hnone, hlabels, findLabels_last (by simp)]
    simp [removeLabels, rstrip, cite, Citation.label]
  obtain ⟨c, hc, hlength⟩ := exists_longer_of_only honly hpath hanswer
  simp only [List.mem_cons, List.not_mem_nil, or_false] at hc
  rcases hc with rfl | rfl
  · simp [cite, Citation.label, toList_labelOf, hsplit] at hlength
  · simp [cite, Citation.label, toList_labelOf, hsplit] at hlength
    omega

/-- A chunk whose label is not in the text generated, and a text that ends in what its
path has before the heading. -/
theorem ahead_of_only {front rest : List Char}
    (hsplit : path.toList = front ++ sources ++ '[' :: rest)
    (hnone : findLabels ('[' :: front) = []) : rstrip ('[' :: front) ≠ '[' :: front := by
  intro hstrip
  let start := 10 ^ (front.length + 1)
  have hdigits : front.length + 1 < (Nat.toDigits 10 start).length := by
    by_contra hle
    have := (Nat.length_toDigits_le_iff (n := start) (by decide) (Nat.succ_pos front.length)).mp
      (Nat.not_lt.mp hle)
    exact absurd this (lt_irrefl _)
  have hlong : ¬ (labelOf (String.ofList rest) start 0).toList <:+: '[' :: front := by
    intro hpart
    have hlength := hpart.length_le
    simp only [toList_labelOf, linesPart, List.length_cons, List.length_append] at hlength
    omega
  have hanswer : answerText ([cite (String.ofList rest) start 0].map (·.label.toList))
      ('[' :: front) = [] ++ (labelOf path start 0).toList ++ [] := by
    rw [answerText, if_neg (by simp), hnone, removeLabels, List.foldl_nil,
      if_neg (by simpa [cite, Citation.label] using hlong), hstrip]
    simp [cite, Citation.label, toList_labelOf, hsplit]
  obtain ⟨c, hc, hlength⟩ := exists_longer_of_only honly hpath hanswer
  rw [List.mem_singleton] at hc
  subst hc
  simp [cite, Citation.label, toList_labelOf, hsplit] at hlength
  omega

/-- If every match in a label of the path is a label, its chunks keep the label. -/
theorem broken_of_only (hplain : ¬ Plain path.toList) :
    ∃ m ∈ findLabels ('[' :: path.toList), ∀ q s e, m ≠ (labelOf q s e).toList := by
  by_contra hall
  obtain ⟨cs, hcs⟩ := citations_of_matches hall
  have hgiven : ∀ label ∈ findLabels (labelOf path 1 1).toList,
      label ∈ (cite path 1 2 :: cs).map (·.label.toList) := by
    intro label hl
    rw [List.map_cons, hcs]
    exact List.mem_cons_of_mem _ hl
  obtain ⟨v, hanswer⟩ := answerText_of_allowed hgiven (by simp) (rstrip_labelOf path 1 1)
  obtain ⟨c, hc, w, z, hlabel, hw, -⟩ := (honly _ _).outside path 1 1 (.inl hpath) [] v
    (by rw [String.toList_ofList, hanswer, List.nil_append])
  rw [List.suffix_nil.mp hw, List.nil_append] at hlabel
  rcases List.mem_cons.mp hc with rfl | hc
  · have htwo : linesPart 1 2 = [':', '1', '-', '2'] := by decide
    have hone : linesPart 1 1 = [':', '1', '-', '1'] := by decide
    rw [cite, Citation.label, toList_labelOf, toList_labelOf, htwo, hone] at hlabel
    simp at hlabel
  · have hmem : c.label.toList ∈ findLabels (labelOf path 1 1).toList := by
      rw [← hcs]
      exact List.mem_map_of_mem hc
    obtain ⟨hfound, hpart⟩ := mem_findLabels hmem
    have hlength := hpart.length_le
    rw [hlabel, List.length_append] at hlength
    have hz : z = [] := List.eq_nil_of_length_eq_zero (by omega)
    rw [hlabel, hz, List.append_nil] at hfound
    exact hplain (isLabel_labelOf_iff.mp hfound)

end

/-! ## Every list of results -/

def Citation.result (c : Citation) : SearchResult where
  chunkId := c.chunkId
  filePath := c.filePath
  startLine := c.startLine
  endLine := c.endLine
  content := ""

/-- Any chunks can be those given. -/
theorem contextsOf_result (given : List Citation) :
    (contextsOf 0 (given.map Citation.result)).map SearchResult.citation = given := by
  induction given with
  | nil => rfl
  | cons c given ih =>
      rw [List.map_cons, contextsOf, if_neg (by simp [Citation.result]), List.map_cons]
      have hbudget : (0 : Int) - (c.result.content.length : Int) = 0 := by simp [Citation.result]
      rw [hbudget, ih]
      rfl

theorem onlyEvidence_answerText {manifest : List String}
    (hsafe : ∀ path ∈ manifest, Plain path.toList ∨ Shielded path.toList) (given : List Citation)
    (generated : List Char) :
    OnlyEvidence manifest given
      (String.ofList (answerText (given.map (·.label.toList)) generated)) where
  outside path startLine endLine hpath u v htext := by
    have hshape : Plain path.toList ∨ Shielded path.toList :=
      hpath.elim (hsafe path) fun hbare => .inl (plain_of_bare hbare)
    exact within_answerText hshape (by rwa [String.toList_ofList] at htext)
  some hgiven := by
    rw [String.toList_ofList]
    exact label_in_answerText hgiven

theorem answers_cite_evidence_iff (manifest : List String) :
    (∀ results budget generated,
      OnlyEvidence manifest ((contextsOf budget results).map SearchResult.citation)
        (answer results budget generated).answer) ↔
      ∀ path ∈ manifest, Plain path.toList ∨ Shielded path.toList := by
  constructor
  · intro hall path hpath
    have honly (given : List Citation) (generated : List Char) : OnlyEvidence manifest given
        (String.ofList (answerText (given.map (·.label.toList)) generated)) := by
      have h := hall (given.map Citation.result) 0 (String.ofList generated)
      rw [answer] at h
      simp only [contextsOf_result, String.toList_ofList] at h
      exact h
    by_cases hplain : Plain path.toList
    · exact .inl hplain
    · exact .inr ⟨broken_of_only honly hpath hplain,
        fun front rest => ahead_of_only honly hpath,
        fun q s e rest => joined_of_only honly hpath⟩
  · intro hsafe results budget generated
    exact onlyEvidence_answerText hsafe _ _

/-- A chunk of `src/a.py` is retrieved, and the generator also names a page. -/
theorem answer_keeps_page :
    ¬ OnlyEvidence ["app/[id]/page.tsx", "src/a.py"]
      ((contextsOf 16000 [⟨⟨"", rfl⟩, "src/a.py", 1, 2, "def a():\n    pass"⟩]).map
        SearchResult.citation)
      (answer [⟨⟨"", rfl⟩, "src/a.py", 1, 2, "def a():\n    pass"⟩] 16000
        "See [app/[id]/page.tsx:1-2] and [src/a.py:1-2].").answer := by
  intro honly
  have hgiven : (contextsOf 16000 [⟨⟨"", rfl⟩, "src/a.py", 1, 2, "def a():\n    pass"⟩]).map
      SearchResult.citation = [cite "src/a.py" 1 2] := by decide
  obtain ⟨c, hc, hwithin⟩ := honly.outside "app/[id]/page.tsx" 1 2 (.inl (by decide))
    "See ".toList " and [src/a.py:1-2].".toList (by decide +kernel)
  rw [hgiven, List.mem_singleton] at hc
  subst hc
  have hlength := length_le_of_within hwithin
  revert hlength
  decide

end RepoMesh
