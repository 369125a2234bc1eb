import RepoMesh.Answer
import RepoMesh.FirstOccurrence
import RepoMesh.IndexStore
import RepoMesh.Ranking
import Mathlib.Algebra.Field.Rat
import Mathlib.Algebra.Order.Ring.Rat
import Mathlib.Data.Rat.Lemmas

/-!
# Retrieval

`Retriever.search`: the candidates of the two stores are ranked, the ranking is cut to
`top_k`, and then each id is looked up in SQLite. What `lexical_search` and the vector
store answer is an argument (`Hits`), because FTS5 and Qdrant are outside. Scores are
floats, so nothing is assumed of their sums and quotients (`Score`).

The cut comes before the lookup, so an id without a chunk row takes one of the `top_k`
places. `search_isTop_iff` says when that costs a result.
-/

namespace RepoMesh

inductive SearchMode where
  | lexical
  | dense
  | hybrid
  deriving DecidableEq

def SearchMode.value : SearchMode → String
  | .lexical => "lexical"
  | .dense => "dense"
  | .hybrid => "hybrid"

/-- The floats that scores are, none of them NaN and the two zeros one, with the operations
applied to them. Of these only that negation turns the order around is known: sums and
quotients are rounded, and `sum` may compensate. -/
class Score (F : Type) extends LinearOrder F, Zero F, One F, Add F, Neg F, Mul F, Div F,
    NatCast F where
  neg_le_neg : ∀ {a b : F}, a ≤ b → -b ≤ -a
  sum : List F → F

/-- Exact scores. -/
instance : Score ℚ where
  neg_le_neg := fun h => neg_le_neg h
  sum := List.sum

/-- A dictionary from ids to scores. -/
abbrev Scores (F : Type) := Table (Prod.fst : Uuid × F → Uuid)

section

variable {F : Type}

/-- `dict(items)`. -/
def Scores.ofItems (items : List (Uuid × F)) : Scores F :=
  items.foldl (fun scores item => scores.upsert item) (Table.empty Prod.fst)

def Scores.score? (scores : Scores F) (id : Uuid) : Option F := (scores.get? id).map Prod.snd

/-- The ids in the order of their insertion. -/
def Scores.ids (scores : Scores F) : List Uuid := scores.rows.map Prod.fst

theorem Scores.ids_upsert {scores : Scores F} {seen : List Uuid} (h : scores.ids = seen.eraseDups)
    (item : Uuid × F) : Scores.ids (scores.upsert item) = (seen ++ [item.1]).eraseDups := by
  have hids : scores.rows.map Prod.fst = seen.eraseDups := h
  rw [Scores.ids, Table.keys_upsert, hids, eraseDups_concat]
  simp only [List.mem_eraseDups]

/-- A loop that assigns scores inserts its ids in the order of their first occurrence. -/
theorem Scores.ids_foldl {γ : Type*} (id : γ → Uuid) (value : Scores F → γ → F) (items : List γ)
    {scores : Scores F} {seen : List Uuid} (h : scores.ids = seen.eraseDups) :
    Scores.ids (items.foldl (fun scores item => scores.upsert (id item, value scores item)) scores) =
      (seen ++ items.map id).eraseDups := by
  induction items generalizing scores seen with
  | nil => simpa using h
  | cons item items ih =>
      rw [List.foldl_cons, ih (Scores.ids_upsert h (id item, value scores item))]
      simp

theorem Scores.ids_ofItems (items : List (Uuid × F)) :
    (Scores.ofItems items).ids = (items.map Prod.fst).eraseDups := by
  have hempty : (Table.empty (Prod.fst : Uuid × F → Uuid)).rows.map Prod.fst =
      ([] : List Uuid).eraseDups := rfl
  exact Scores.ids_foldl Prod.fst (fun _ item => item.2) items hempty

theorem Scores.rows_ofItems {items : List (Uuid × F)} (h : (items.map Prod.fst).Nodup) :
    (Scores.ofItems items).rows = items := by
  induction items using List.reverseRecOn with
  | nil => rfl
  | append_singleton items item ih =>
      rw [List.map_append, List.map_singleton, List.nodup_append] at h
      obtain ⟨hnd, -, hnot⟩ := h
      have hnew : Table.get? (Scores.ofItems items) item.1 = none := by
        rw [Table.get?_eq_none, ih hnd]
        intro other hother heq
        exact hnot _ (List.mem_map_of_mem hother) _ (List.mem_singleton_self _) heq
      rw [Scores.ofItems, List.foldl_append]
      show (Table.upsert (Scores.ofItems items) item).rows = _
      rw [Table.upsert, hnew]
      simp only [Option.isSome_none, Bool.false_eq_true, if_false]
      rw [Table.insertNew_rows hnew, ih hnd]

theorem Scores.score?_ofItems {items : List (Uuid × F)} (h : (items.map Prod.fst).Nodup)
    {item : Uuid × F} (hitem : item ∈ items) :
    (Scores.ofItems items).score? item.1 = some item.2 := by
  have hrow : item ∈ (Scores.ofItems items).rows := by
    rw [Scores.rows_ofItems h]
    exact hitem
  rw [Scores.score?, Table.get?_of_mem hrow, Option.map_some]

variable [Score F]

def reciprocalRankFusion (rankings : List (List (Uuid × F))) (k : ℕ) : Scores F :=
  rankings.foldl
    (fun scores ranking =>
      (ranking.zipIdx 1).foldl
        (fun scores item =>
          scores.upsert
            (item.1.1, (scores.score? item.1.1).getD 0 + 1 / ((k + item.2 : ℕ) : F)))
        scores)
    (Table.empty Prod.fst)

/-- The ids and `bm25_score`s of the rows of `lexical_search`, and what the vector store
found, best first. -/
structure Hits (F : Type) [Score F] where
  lexicalRows : List (Uuid × F)
  vectorRows : List (Uuid × F)
  lexical_nodup : (lexicalRows.map Prod.fst).Nodup
  lexical_sorted : lexicalRows.Pairwise fun a b => a.2 ≤ b.2
  vector_nodup : (vectorRows.map Prod.fst).Nodup
  vector_sorted : vectorRows.Pairwise fun a b => b.2 ≤ a.2

namespace Hits

def lexical (hits : Hits F) (mode : SearchMode) : List (Uuid × F) :=
  if mode ≠ .dense then hits.lexicalRows.map fun row => (row.1, max 0 (-row.2)) else []

def vector (hits : Hits F) (mode : SearchMode) : List (Uuid × F) :=
  if mode ≠ .lexical then hits.vectorRows else []

def combined (hits : Hits F) (mode : SearchMode) (rrfK : ℕ) : Scores F :=
  match mode with
  | .lexical => .ofItems (hits.lexical mode)
  | .dense => .ofItems (hits.vector mode)
  | .hybrid => reciprocalRankFusion [hits.lexical mode, hits.vector mode] rrfK

/-- The score by which an id is ranked. -/
def score (hits : Hits F) (mode : SearchMode) (rrfK : ℕ) (id : Uuid) : F :=
  ((hits.combined mode rrfK).score? id).getD 0

def rankedIds (hits : Hits F) (mode : SearchMode) (rrfK : ℕ) : List Uuid :=
  match mode with
  | .lexical => (hits.lexical mode).map Prod.fst
  | .dense => (hits.vector mode).map Prod.fst
  | .hybrid =>
      sortBy (fun id => OrderDual.toDual (hits.score mode rrfK id)) (hits.combined mode rrfK).ids

end Hits

/-- The fields of `SearchResult` that an answer does not depend on, and those it does. -/
structure SearchHit (F : Type) extends SearchResult where
  repositoryId : Uuid
  commitSha : String
  language : String
  symbolName : Option String
  symbolKind : Option String
  chunkingStrategy : String
  score : F
  lexicalScore : Option F
  vectorScore : Option F
  rrfScore : Option F
  retrievalMethod : String
  deriving DecidableEq

/-- The result made of a chunk row. -/
def Hits.result (hits : Hits F) (mode : SearchMode) (rrfK : ℕ) (chunkId : Uuid) (row : CodeChunk) :
    SearchHit F where
  chunkId := chunkId
  repositoryId := row.repositoryId
  commitSha := row.commitSha
  filePath := row.filePath
  language := row.language
  symbolName := row.symbolName
  symbolKind := row.symbolKind
  startLine := row.startLine
  endLine := row.endLine
  content := row.content
  chunkingStrategy := row.chunkingStrategy
  score := hits.score mode rrfK chunkId
  lexicalScore := (Scores.ofItems (hits.lexical mode)).score? chunkId
  vectorScore := (Scores.ofItems (hits.vector mode)).score? chunkId
  rrfScore := if mode = .hybrid then (hits.combined mode rrfK).score? chunkId else none
  retrievalMethod := mode.value

def search (db : IndexDb) (hits : Hits F) (mode : SearchMode) (topK rrfK : ℕ) : List (SearchHit F) :=
  ((hits.rankedIds mode rrfK).take topK).filterMap fun chunkId =>
    (db.chunks.get? chunkId).map (hits.result mode rrfK chunkId)

/-! ## The ranking -/

theorem ids_reciprocalRankFusion (rankings : List (List (Uuid × F))) (k : ℕ) :
    (reciprocalRankFusion rankings k).ids = (rankings.flatten.map Prod.fst).eraseDups := by
  suffices hall : ∀ (scores : Scores F) (seen : List Uuid), scores.ids = seen.eraseDups →
      Scores.ids (rankings.foldl
        (fun scores ranking =>
          (ranking.zipIdx 1).foldl
            (fun scores item =>
              scores.upsert
                (item.1.1, (scores.score? item.1.1).getD 0 + 1 / ((k + item.2 : ℕ) : F)))
            scores)
        scores) = (seen ++ rankings.flatten.map Prod.fst).eraseDups by
    exact hall (Table.empty Prod.fst) [] rfl
  induction rankings with
  | nil =>
      intro scores seen h
      simpa using h
  | cons ranking rankings ih =>
      intro scores seen h
      rw [List.foldl_cons, ih _ _ (Scores.ids_foldl (fun item => item.1.1)
        (fun scores item => (scores.score? item.1.1).getD 0 + 1 / ((k + item.2 : ℕ) : F))
        (ranking.zipIdx 1) h)]
      have hids : (ranking.zipIdx 1).map (fun item => item.1.1) = ranking.map Prod.fst := by
        conv_rhs => rw [← List.zipIdx_map_fst 1 ranking, List.map_map]
        rfl
      simp [hids]

namespace Hits

variable (hits : Hits F) (mode : SearchMode) (rrfK : ℕ)

/-- The distinct ids that the stores offer, in the order of their first occurrence. -/
def candidates : List Uuid :=
  ((hits.lexical mode ++ hits.vector mode).map Prod.fst).eraseDups

theorem ids_combined : (hits.combined mode rrfK).ids = hits.candidates mode := by
  cases mode with
  | lexical => simp [combined, Scores.ids_ofItems, candidates, vector]
  | dense => simp [combined, Scores.ids_ofItems, candidates, lexical]
  | hybrid => simp [combined, ids_reciprocalRankFusion, candidates]

theorem nodup_candidates : (hits.candidates mode).Nodup := nodup_eraseDups _

theorem lexical_ids_nodup : ((hits.lexical mode).map Prod.fst).Nodup := by
  rw [lexical]
  split
  · rw [List.map_map]
    exact hits.lexical_nodup
  · exact List.nodup_nil

theorem vector_ids_nodup : ((hits.vector mode).map Prod.fst).Nodup := by
  rw [vector]
  split
  · exact hits.vector_nodup
  · exact List.nodup_nil

theorem lexical_scores_sorted : (hits.lexical mode).Pairwise fun a b => b.2 ≤ a.2 := by
  rw [lexical]
  split
  · rw [List.pairwise_map]
    exact hits.lexical_sorted.imp fun h => max_le_max (le_refl 0) (Score.neg_le_neg h)
  · exact List.Pairwise.nil

theorem vector_scores_sorted : (hits.vector mode).Pairwise fun a b => b.2 ≤ a.2 := by
  rw [vector]
  split
  · exact hits.vector_sorted
  · exact List.Pairwise.nil

end Hits

namespace Hits

variable (hits : Hits F) (mode : SearchMode) (rrfK : ℕ)

/-- The order of the ranking: the higher score first, and of equal scores the id that is
offered first. -/
abbrev Outranks : Uuid → Uuid → Prop :=
  Ahead (fun id => OrderDual.toDual (hits.score mode rrfK id)) (hits.candidates mode)

/-- How many candidates outrank `id`. -/
def rank (id : Uuid) : ℕ := place (hits.Outranks mode rrfK) (hits.candidates mode) id

theorem score_le_of_outranks {a b : Uuid} (h : hits.Outranks mode rrfK a b) :
    hits.score mode rrfK b ≤ hits.score mode rrfK a := by
  rcases h with h | ⟨h, -⟩
  · exact le_of_lt h
  · exact le_of_eq (OrderDual.toDual.injective h).symm

/-- The ids of one store are the candidates when the other is not asked, in their order. -/
theorem sorted_of_items {items : List (Uuid × F)} (hnd : (items.map Prod.fst).Nodup)
    (hsorted : items.Pairwise fun a b => b.2 ≤ a.2)
    (hcombined : hits.combined mode rrfK = Scores.ofItems items) :
    (items.map Prod.fst).Pairwise fun a b =>
      OrderDual.toDual (hits.score mode rrfK a) ≤ OrderDual.toDual (hits.score mode rrfK b) := by
  have hscore : ∀ item ∈ items, hits.score mode rrfK item.1 = item.2 := by
    intro item hitem
    rw [score, hcombined, Scores.score?_ofItems hnd hitem, Option.getD_some]
  rw [List.pairwise_map]
  refine hsorted.imp_of_mem fun {a b} ha hb hle => ?_
  rw [hscore a ha, hscore b hb]
  exact hle

theorem candidates_lexical : hits.candidates .lexical = (hits.lexical .lexical).map Prod.fst := by
  rw [candidates, vector, if_neg (by simp), List.append_nil,
    eraseDups_of_nodup (hits.lexical_ids_nodup .lexical)]

theorem candidates_dense : hits.candidates .dense = (hits.vector .dense).map Prod.fst := by
  rw [candidates, lexical, if_neg (by simp), List.nil_append,
    eraseDups_of_nodup (hits.vector_ids_nodup .dense)]

theorem rankedIds_perm : (hits.rankedIds mode rrfK).Perm (hits.candidates mode) := by
  cases mode with
  | lexical => rw [rankedIds, candidates_lexical]
  | dense => rw [rankedIds, candidates_dense]
  | hybrid =>
      rw [rankedIds, ids_combined]
      exact sortBy_perm _ _

theorem rankedIds_pairwise :
    (hits.rankedIds mode rrfK).Pairwise (hits.Outranks mode rrfK) := by
  cases mode with
  | lexical =>
      rw [rankedIds, Outranks, candidates_lexical]
      exact pairwise_ahead_of_sorted (hits.lexical_ids_nodup _)
        (hits.sorted_of_items _ rrfK (hits.lexical_ids_nodup _) (hits.lexical_scores_sorted _) rfl)
  | dense =>
      rw [rankedIds, Outranks, candidates_dense]
      exact pairwise_ahead_of_sorted (hits.vector_ids_nodup _)
        (hits.sorted_of_items _ rrfK (hits.vector_ids_nodup _) (hits.vector_scores_sorted _) rfl)
  | hybrid =>
      rw [rankedIds, ids_combined]
      exact sortBy_pairwise_ahead _ (hits.nodup_candidates _)

theorem mem_take_rankedIds {id : Uuid} (h : id ∈ hits.candidates mode) (k : ℕ) :
    id ∈ (hits.rankedIds mode rrfK).take k ↔ hits.rank mode rrfK id < k := by
  have hperm := hits.rankedIds_perm mode rrfK
  rw [mem_take_iff Ahead.asymm (hits.rankedIds_pairwise mode rrfK) (hperm.mem_iff.mpr h),
    place_perm _ hperm]
  rfl

end Hits

/-! ## The results -/

section

variable (db : IndexDb) (hits : Hits F) (mode : SearchMode) (topK rrfK : ℕ)

/-- Whether SQLite has the chunk. -/
def IndexDb.hasChunk (id : Uuid) : Bool := (db.chunks.get? id).isSome

/-- The best `topK` of the candidates that have a chunk. -/
structure IsTop (results : List (SearchHit F)) : Prop where
  length : results.length = min topK ((hits.candidates mode).filter db.hasChunk).length
  nodup : (results.map (·.chunkId)).Nodup
  live : ∀ r ∈ results, r.chunkId ∈ hits.candidates mode ∧
    ∃ row, db.chunks.get? r.chunkId = some row ∧ r = hits.result mode rrfK r.chunkId row
  sorted : results.Pairwise fun a b => b.score ≤ a.score
  best : ∀ id ∈ hits.candidates mode, db.hasChunk id → id ∉ results.map (·.chunkId) →
    ∀ r ∈ results, hits.score mode rrfK id ≤ r.score

variable {db hits mode topK rrfK}

theorem mem_search {r : SearchHit F} :
    r ∈ search db hits mode topK rrfK ↔ ∃ id ∈ (hits.rankedIds mode rrfK).take topK,
      ∃ row, db.chunks.get? id = some row ∧ hits.result mode rrfK id row = r := by
  simp [search]

theorem map_chunkId_search :
    (search db hits mode topK rrfK).map (·.chunkId) =
      ((hits.rankedIds mode rrfK).take topK).filter db.hasChunk := by
  rw [search]
  induction (hits.rankedIds mode rrfK).take topK with
  | nil => rfl
  | cons id ids ih =>
      cases hrow : db.chunks.get? id with
      | none => simp [IndexDb.hasChunk, hrow, ih]
      | some row => simp [IndexDb.hasChunk, hrow, ih, Hits.result]

theorem length_search_iff :
    (search db hits mode topK rrfK).length =
        min topK ((hits.candidates mode).filter db.hasChunk).length ↔
      ∀ stale ∈ hits.candidates mode, ∀ live ∈ hits.candidates mode,
        db.hasChunk stale = false → db.hasChunk live = true →
        hits.rank mode rrfK stale < topK → hits.rank mode rrfK live < topK := by
  have hperm := hits.rankedIds_perm mode rrfK
  have hlength : (search db hits mode topK rrfK).length =
      (((hits.rankedIds mode rrfK).take topK).filter db.hasChunk).length := by
    rw [← map_chunkId_search, List.length_map]
  rw [hlength, ← (hperm.filter db.hasChunk).length_eq, length_filter_take_iff db.hasChunk
    (hperm.nodup_iff.mpr (hits.nodup_candidates mode))]
  constructor
  · intro h stale hstale live hlive hs hl hrank
    have := h stale (hperm.mem_iff.mpr hstale) live (hperm.mem_iff.mpr hlive) hs hl
      ((hits.mem_take_rankedIds mode rrfK hstale topK).mpr hrank)
    exact (hits.mem_take_rankedIds mode rrfK hlive topK).mp this
  · intro h stale hstale live hlive hs hl htake
    have hstale := hperm.mem_iff.mp hstale
    have hlive := hperm.mem_iff.mp hlive
    exact (hits.mem_take_rankedIds mode rrfK hlive topK).mpr (h stale hstale live hlive hs hl
      ((hits.mem_take_rankedIds mode rrfK hstale topK).mp htake))

theorem nodup_search : ((search db hits mode topK rrfK).map (·.chunkId)).Nodup := by
  have hnd : (hits.rankedIds mode rrfK).Nodup :=
    (hits.rankedIds_perm mode rrfK).nodup_iff.mpr (hits.nodup_candidates mode)
  rw [map_chunkId_search]
  exact (hnd.sublist (List.take_sublist _ _)).filter _

theorem live_search {r : SearchHit F} (h : r ∈ search db hits mode topK rrfK) :
    r.chunkId ∈ hits.candidates mode ∧
      ∃ row, db.chunks.get? r.chunkId = some row ∧ r = hits.result mode rrfK r.chunkId row := by
  obtain ⟨id, hid, row, hrow, rfl⟩ := mem_search.mp h
  exact ⟨(hits.rankedIds_perm mode rrfK).mem_iff.mp (List.mem_of_mem_take hid), row, hrow, rfl⟩

theorem sorted_search : (search db hits mode topK rrfK).Pairwise fun a b => b.score ≤ a.score := by
  rw [search, List.pairwise_filterMap]
  refine ((hits.rankedIds_pairwise mode rrfK).sublist (List.take_sublist _ _)).imp ?_
  intro a b hab r hr r' hr'
  obtain ⟨row, -, rfl⟩ := Option.map_eq_some_iff.mp hr
  obtain ⟨row', -, rfl⟩ := Option.map_eq_some_iff.mp hr'
  exact hits.score_le_of_outranks mode rrfK hab

theorem best_search {id : Uuid} (hid : id ∈ hits.candidates mode) (hlive : db.hasChunk id)
    (hout : id ∉ (search db hits mode topK rrfK).map (·.chunkId)) {r : SearchHit F}
    (hr : r ∈ search db hits mode topK rrfK) : hits.score mode rrfK id ≤ r.score := by
  obtain ⟨other, hother, row, -, rfl⟩ := mem_search.mp hr
  rw [map_chunkId_search, List.mem_filter] at hout
  have htake : id ∉ (hits.rankedIds mode rrfK).take topK := fun h => hout ⟨h, hlive⟩
  have hdrop := mem_drop_of_not_mem_take ((hits.rankedIds_perm mode rrfK).mem_iff.mpr hid) htake
  have hpair := hits.rankedIds_pairwise mode rrfK
  rw [← List.take_append_drop topK (hits.rankedIds mode rrfK), List.pairwise_append] at hpair
  exact hits.score_le_of_outranks mode rrfK (hpair.2.2 other hother id hdrop)

end

/-- A search misses none of the best candidates with a chunk exactly if none of the first
`topK` candidates lacks its chunk while a candidate behind them has one. -/
theorem search_isTop_iff (db : IndexDb) (hits : Hits F) (mode : SearchMode) (topK rrfK : ℕ) :
    IsTop db hits mode topK rrfK (search db hits mode topK rrfK) ↔
      ∀ stale ∈ hits.candidates mode, ∀ live ∈ hits.candidates mode,
        db.hasChunk stale = false → db.hasChunk live = true →
        hits.rank mode rrfK stale < topK → hits.rank mode rrfK live < topK := by
  rw [← length_search_iff]
  constructor
  · intro h
    exact h.length
  · intro hlength
    exact
      { length := hlength
        nodup := nodup_search
        live := fun _ hr => live_search hr
        sorted := sorted_search
        best := fun _ hid hlive hout _ hr => best_search hid hlive hout hr }

end

/-- The index after `old.py` was removed while Qdrant was down. -/
def deferredDb : IndexDb where
  repositories := ⟨[], by simp⟩
  files := ⟨[], by simp⟩
  chunks :=
    ⟨[{ id := ⟨"b1", rfl⟩
        repositoryId := ⟨"a0", rfl⟩
        commitSha := "c2"
        filePath := "new.py"
        language := "python"
        symbolName := none
        symbolKind := none
        startLine := 1
        endLine := 2
        content := "def greet(): ..."
        contentSha256 := ⟨"b1", rfl⟩
        importsJson := "[]"
        embeddingModel := "hash"
        embeddingVersion := "1"
        chunkingStrategy := "tree-sitter"
        vectorJson := none }], by simp⟩
  pending := ⟨[⟨⟨"a0", rfl⟩, "old.py"⟩], by simp⟩

/-- The vector of `old.py` is still the nearest. -/
def deferredHits : Hits ℚ where
  lexicalRows := []
  vectorRows := [(⟨"b0", rfl⟩, 9 / 10), (⟨"b1", rfl⟩, 8 / 10)]
  lexical_nodup := by simp
  lexical_sorted := by simp
  vector_nodup := by decide
  vector_sorted := by decide +kernel

theorem not_isTop_deferred :
    search deferredDb deferredHits .dense 1 60 = [] ∧
      ¬ IsTop deferredDb deferredHits .dense 1 60
        (search deferredDb deferredHits .dense 1 60) := by
  have hempty : search deferredDb deferredHits .dense 1 60 = [] := by decide +kernel
  have hone : ((deferredHits.candidates .dense).filter deferredDb.hasChunk).length = 1 := by
    decide +kernel
  refine ⟨hempty, fun h => ?_⟩
  have hlength := h.length
  rw [hempty, hone] at hlength
  cases hlength

end RepoMesh
