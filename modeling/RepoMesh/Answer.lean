import RepoMesh.CitationLabels
import RepoMesh.Discover

/-!
# Answers

`POST /v1/answer` behind retrieval: which chunks the generator is given, and what
becomes of the text it writes. Labels that the regular expression finds and that are not
those of given chunks are removed wherever they occur; the first labels are appended
where the text has none. The generator is outside, so its text is an argument.

Removal leaves a text whose matches are all labels of given chunks (`findLabels_removeLabels`).
That is all a text shows of paths without closing brackets and line ends, and less than
it shows of others: `answers_cite_evidence_iff` says which paths of a manifest are safe.
-/

namespace RepoMesh

/-- The parts of a `SearchResult` that an answer depends on. -/
structure SearchResult where
  chunkId : Uuid
  filePath : String
  startLine : Nat
  endLine : Nat
  content : String
  deriving DecidableEq

def SearchResult.citation (r : SearchResult) : Citation where
  chunkId := r.chunkId
  filePath := r.filePath
  startLine := r.startLine
  endLine := r.endLine

/-- The results given to the generator: as many as fit into the budget. -/
def contextsOf (budget : Int) : List SearchResult → List SearchResult
  | [] => []
  | result :: results =>
      if result.content.length > budget then []
      else result :: contextsOf (budget - result.content.length) results

def removed : List Char := "[unverified citation removed]".toList

/-- The loop that removes the labels `found` that are not allowed. -/
def removeLabels (allowed : List (List Char)) (found : List (List Char)) (text : List Char) :
    List Char :=
  found.foldl (fun text label => if label ∈ allowed then text else replaceAll label removed text)
    text

def sources : List Char := "\n\nSources: ".toList

def insufficient : List Char := "Evidence insufficient: no indexed source matched the question.".toList

/-- The text of the answer, from the labels of the chunks given and the text
generated. -/
def answerText (labels : List (List Char)) (generated : List Char) : List Char :=
  let text := removeLabels labels (findLabels generated) generated
  if labels = [] then insufficient
  else if ∃ label ∈ labels, label <:+: text then text
  else rstrip text ++ sources ++ [' '].intercalate (labels.take 3)

structure AnswerResponse where
  answer : String
  citations : List Citation
  chunks : List SearchResult
  evidenceSufficient : Bool

def answer (results : List SearchResult) (budget : Int) (generated : String) : AnswerResponse :=
  let citations := (contextsOf budget results).map SearchResult.citation
  let text := String.ofList (answerText (citations.map (·.label.toList)) generated.toList)
  { answer := text
    citations := citations
    chunks := results
    evidenceSufficient :=
      !citations.isEmpty && !"evidence insufficient".toList.isPrefixOf (lower text).toList }

/-! ## Removal -/

theorem removed_eq : ∃ word, removed = word ++ ['d'] ++ [']'] ∧ ']' ∉ word :=
  ⟨"[unverified citation remove".toList, by decide, by decide⟩

/-- Replacing a label takes that match away and uncovers none. -/
theorem findLabels_replaceAll {label other : List Char} (h : IsLabel label) {text : List Char} :
    other ∈ findLabels (replaceAll label removed text) →
      other ∈ findLabels text ∧ other ≠ label := by
  obtain ⟨body, rfl, hclose, hline, hbody⟩ := h
  have hword : '[' :: (body ++ [']']) = ('[' :: body) ++ [']'] := rfl
  have hopen : ']' ∉ '[' :: body := by simp [hclose]
  rw [hword]
  induction text using segment_induction ']' with
  | last text htext =>
      intro hmem
      rw [replaceAll_of_not_mem htext, findLabels_last htext] at hmem
      cases hmem
  | closed seg rest hseg ih =>
      intro hmem
      rw [findLabels_closed hseg, List.mem_append]
      by_cases hsuffix : '[' :: body <:+ seg
      · obtain ⟨front, rfl⟩ := hsuffix
        have hfront : ']' ∉ front := fun hm => hseg (by simp [hm])
        obtain ⟨word, hremoved, hwordopen⟩ := removed_eq
        have hopened : ']' ∉ front ++ word ++ ['d'] := by simp [hfront, hwordopen]
        have htext : front ++ removed ++ replaceAll ('[' :: body ++ [']']) removed rest =
            front ++ word ++ ['d'] ++ ']' :: replaceAll ('[' :: body ++ [']']) removed rest := by
          rw [hremoved]
          simp
        rw [replaceAll_hit hopen hfront, htext, findLabels_closed hopened,
          labelIn_of_last (by decide)] at hmem
        exact ⟨.inr (ih hmem).1, (ih hmem).2⟩
      · rw [replaceAll_miss hopen hseg hsuffix, findLabels_closed hseg, List.mem_append] at hmem
        rcases hmem with hin | hrest
        · refine ⟨.inl hin, ?_⟩
          rintro rfl
          obtain ⟨body', heq, hsuffix', -, -⟩ := labelIn_some (Option.mem_toList.mp hin)
          have hbodies : '[' :: body = '[' :: body' := List.append_cancel_right heq
          exact hsuffix (hbodies ▸ hsuffix')
        · exact ⟨.inr (ih hrest).1, (ih hrest).2⟩

/-- Every match that the loop leaves is allowed. -/
theorem mem_findLabels_removeLabels {allowed found : List (List Char)}
    (hfound : ∀ label ∈ found, IsLabel label) {text label : List Char}
    (h : label ∈ findLabels (removeLabels allowed found text)) :
    label ∈ findLabels text ∧ (label ∈ found → label ∈ allowed) := by
  induction found generalizing text with
  | nil => exact ⟨h, nofun⟩
  | cons first found ih =>
      rw [removeLabels, List.foldl_cons, ← removeLabels] at h
      obtain ⟨hmem, hallowed⟩ := ih (fun label hl => hfound label (by simp [hl])) h
      split at hmem
      · rename_i hfirst
        refine ⟨hmem, fun hl => ?_⟩
        rcases List.mem_cons.mp hl with rfl | hl
        · exact hfirst
        · exact hallowed hl
      · obtain ⟨hbefore, hne⟩ := findLabels_replaceAll (hfound first (by simp)) hmem
        exact ⟨hbefore, fun hl => hallowed ((List.mem_cons.mp hl).resolve_left hne)⟩

theorem findLabels_removeLabels {allowed : List (List Char)} {text label : List Char}
    (h : label ∈ findLabels (removeLabels allowed (findLabels text) text)) : label ∈ allowed := by
  obtain ⟨hmem, hallowed⟩ :=
    mem_findLabels_removeLabels (fun _ hl => (mem_findLabels hl).1) h
  exact hallowed hmem

end RepoMesh
