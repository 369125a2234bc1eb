import RepoMesh.Best
import RepoMesh.FullText
import RepoMesh.MatchQuery
import RepoMesh.Retrieval

/-!
# Search on the embedded stores

Without Qdrant both stores are in SQLite: `lexical_search` joins the full-text index with
`chunks`, and `SQLiteVectorStore.search` reads the vectors stored in `chunks`. What FTS5
does inside, the order of a query's rows before they are sorted, and `json.loads` are those
of some `Engine`.

Since the full-text index follows the chunks, every candidate has its row. So a search
misses none of the best candidates (`search_isTop_iff` has nothing to require), and a search
by one store gives the best of the repository's chunks (`embedded_search_exact`).
-/

namespace RepoMesh

structure Engine (F : Type) where
  /-- the words that the tokenizer makes of a string are in the columns, one after the other -/
  holds : List Char → FtsDoc → Bool
  /-- `bm25(chunks_fts, 1.0, 4.0, 2.0)` for the entry of a rowid -/
  bm25 : List (ℕ × FtsDoc) → String → ℕ → F
  visit : List (ℕ × FtsDoc) → List (ℕ × FtsDoc)
  visit_perm : ∀ entries, (visit entries).Perm entries
  scan : List (ℕ × CodeChunk) → List (ℕ × CodeChunk)
  scan_perm : ∀ rows, (scan rows).Perm rows
  /-- `json.loads` of a vector -/
  loads : String → List F

/-- The strings of a disjunction. `lexical_search` makes no other expressions. -/
def parseDisjunction : List FtsToken → Option (List (List Char))
  | [.string text] => some [text]
  | .string text :: .or :: rest => (parseDisjunction rest).map (text :: ·)
  | _ => none

section

variable {F : Type} [Score F]

/-- `Database.lexical_search`: rows with their `bm25_score`. -/
def lexicalSearch (engine : Engine F) (repositoryId : Uuid) (query : String) (limit : ℕ)
    (db : Database) : List ((ℕ × CodeChunk) × F) :=
  let expression := matchQuery query
  if expression = "" then []
  else
    match (ftsTokens expression).bind parseDisjunction with
    | none => []
    | some strings =>
        let found := (engine.visit db.chunks.entries).filter fun e =>
          strings.any (engine.holds · e.2)
        let joined := found.flatMap fun e =>
          (db.chunks.rows.filter fun row =>
            row.1 = e.1 && row.2.repositoryId = repositoryId).map fun row =>
              (row, engine.bm25 db.chunks.entries expression e.1)
        (sortBy (·.2) joined).take limit

def cosine (left right : List F) : F := Score.sum (List.zipWith (· * ·) left right)

/-- `SQLiteVectorStore.search`, with the rows. -/
def vectorSearch (engine : Engine F) (repositoryId : Uuid) (vector : List F) (limit : ℕ)
    (db : Database) : List ((ℕ × CodeChunk) × F) :=
  let scored := (engine.scan (db.chunks.rows.filter fun row =>
    row.2.repositoryId = repositoryId)).filterMap fun row =>
      (row.2.vectorJson.filter (· ≠ "")).map fun json => (row, cosine vector (engine.loads json))
  (sortBy (fun item => OrderDual.toDual item.2) scored).take limit

/-- `(row["id"], score)` -/
def idScore (item : (ℕ × CodeChunk) × F) : Uuid × F := (item.1.2.id, item.2)

/-! ## The rows that are found -/

/-- A row of the repository that holds a word of the query. -/
def Engine.matching (engine : Engine F) (repositoryId : Uuid) (query : String)
    (row : ℕ × CodeChunk) : Bool :=
  row.2.repositoryId = repositoryId && '\x00' ∉ query.toList &&
    ((splitWords [] query.toList).map unquoted).any (engine.holds · row.2.doc)

/-- A row of the repository with a vector. -/
def vectored (repositoryId : Uuid) (row : ℕ × CodeChunk) : Bool :=
  row.2.repositoryId = repositoryId && (row.2.vectorJson.filter (· ≠ "")).isSome

def Engine.lexicalScore (engine : Engine F) (db : Database) (query : String) (row : ℕ × CodeChunk) :
    F :=
  max 0 (-engine.bm25 db.chunks.entries (matchQuery query) row.1)

def Engine.vectorScore (engine : Engine F) (vector : List F) (row : ℕ × CodeChunk) : F :=
  cosine vector (engine.loads (row.2.vectorJson.getD ""))

theorem parseDisjunction_disjunction {tokens : List (List Char)} (hne : tokens ≠ []) :
    parseDisjunction (disjunction tokens) = some tokens := by
  induction tokens with
  | nil => exact absurd rfl hne
  | cons token tokens ih =>
      cases tokens with
      | nil => rfl
      | cons next tokens =>
          have hih := ih (List.cons_ne_nil _ _)
          simp [disjunction, parseDisjunction, hih]

section

variable {engine : Engine F} {db : Database} {plain : IndexDb} {repositoryId : Uuid}
  {query : String}

theorem Triggered.Coherent.filter_rowid {α δ : Type*} {doc : α → δ} {s : Triggered α δ}
    (h : s.Coherent doc) {row : ℕ × α} (hrow : row ∈ s.rows) (p : α → Bool) :
    (s.rows.filter fun r => r.1 = row.1 && p r.2) = if p row.2 then [row] else [] := by
  have hone : s.rows.filter (fun r => r.1 = row.1) = [row] := by
    refine List.perm_singleton.mp (((h.perm_cons hrow).filter _).trans ?_)
    rw [List.filter_cons_of_pos (by simp), List.filter_filter]
    refine List.Perm.of_eq (congrArg (row :: ·) (List.filter_eq_nil_iff.mpr fun r _ => ?_))
    simp
  have hsplit : (s.rows.filter fun r => r.1 = row.1 && p r.2) =
      (s.rows.filter fun r => r.1 = row.1).filter fun r => p r.2 := by
    rw [List.filter_filter]
    exact List.filter_congr fun r _ => Bool.and_comm _ _
  rw [hsplit, hone, List.filter_singleton]
  cases p row.2 <;> rfl

theorem flatMap_if_singleton {α : Type*} (p : α → Bool) (l : List α) :
    (l.flatMap fun a => if p a then [a] else []) = l.filter p := by
  induction l with
  | nil => rfl
  | cons a l ih =>
      rw [List.flatMap_cons, ih, List.filter_cons]
      cases p a <;> rfl

omit [Score F] in
/-- The join finds the rows of the repository whose entries hold one of the strings. -/
theorem join_perm (h : db.Plain plain) (strings : List (List Char)) :
    (((engine.visit db.chunks.entries).filter fun e => strings.any (engine.holds · e.2)).flatMap
      fun e => db.chunks.rows.filter fun row =>
        row.1 = e.1 && row.2.repositoryId = repositoryId).Perm
      (db.chunks.rows.filter fun row =>
        row.2.repositoryId = repositoryId && strings.any (engine.holds · row.2.doc)) := by
  have hentries := (engine.visit_perm db.chunks.entries).trans h.coherent.image
  refine ((hentries.filter _).flatMap_right _).trans (List.Perm.of_eq ?_)
  rw [List.filter_map, List.flatMap_map]
  have hone : ∀ row ∈ db.chunks.rows.filter
        ((fun e => strings.any (engine.holds · e.2)) ∘ fun row => (row.1, row.2.doc)),
      (db.chunks.rows.filter fun r => r.1 = row.1 && r.2.repositoryId = repositoryId) =
        if row.2.repositoryId = repositoryId then [row] else [] := by
    intro row hrow
    have hfilter := h.coherent.filter_rowid (List.mem_filter.mp hrow).1
      (fun c => decide (c.repositoryId = repositoryId))
    simpa using hfilter
  rw [List.flatMap_congr hone]
  have hif := flatMap_if_singleton (fun row : ℕ × CodeChunk =>
    decide (row.2.repositoryId = repositoryId)) (db.chunks.rows.filter
      ((fun e => strings.any (engine.holds · e.2)) ∘ fun row => (row.1, row.2.doc)))
  simp only [decide_eq_true_eq] at hif
  rw [hif, List.filter_filter]
  rfl

/-- The words of the query, where FTS5 accepts them. -/
theorem strings_of_query (hne : matchQuery query ≠ "") :
    (ftsTokens (matchQuery query)).bind parseDisjunction =
      if '\x00' ∈ query.toList then none
      else some ((splitWords [] query.toList).map unquoted) := by
  rw [(lex_matchQuery query)]
  by_cases hnul : '\x00' ∈ query.toList
  · rw [if_pos hnul, if_pos hnul]
    rfl
  · rw [if_neg hnul, if_neg hnul, Option.bind_some]
    refine parseDisjunction_disjunction fun hwords => hne (matchQuery_eq_empty_iff.mpr ?_)
    rw [searchTokens, filter_strips, hwords]

/-- What `lexical_search` finds: the best of the matching rows. -/
theorem lexicalSearch_best (engine : Engine F) (repositoryId : Uuid) (query : String) (limit : ℕ)
    (h : db.Plain plain) :
    ∃ picked, lexicalSearch engine repositoryId query limit db =
        picked.map (fun row =>
          (row, engine.bm25 db.chunks.entries (matchQuery query) row.1)) ∧
      Best (fun row : ℕ × CodeChunk => OrderDual.toDual
          (engine.bm25 db.chunks.entries (matchQuery query) row.1)) limit
        (db.chunks.rows.filter (engine.matching repositoryId query)) picked := by
  let score : ℕ × CodeChunk → F := fun row =>
    engine.bm25 db.chunks.entries (matchQuery query) row.1
  have hnone : (∀ row ∈ db.chunks.rows, ¬ engine.matching repositoryId query row = true) →
      Best (fun row => OrderDual.toDual (score row)) limit
        (db.chunks.rows.filter (engine.matching repositoryId query)) [] := by
    intro hall
    rw [List.filter_eq_nil_iff.mpr hall]
    exact best_nil _ _
  by_cases hempty : matchQuery query = ""
  · refine ⟨[], ?_, hnone fun row _ => ?_⟩
    · rw [lexicalSearch, if_pos hempty]
      rfl
    · have hwords : (splitWords [] query.toList).map unquoted = [] := by
        have htokens := matchQuery_eq_empty_iff.mp hempty
        rw [searchTokens, filter_strips] at htokens
        exact htokens
      simp [Engine.matching, hwords]
  · rw [lexicalSearch, if_neg hempty, strings_of_query hempty]
    by_cases hnul : '\x00' ∈ query.toList
    · refine ⟨[], ?_, hnone ?_⟩
      · rw [if_pos hnul]
        rfl
      · simp [Engine.matching, hnul]
    · rw [if_neg hnul]
      let strings := (splitWords [] query.toList).map unquoted
      let found := (engine.visit db.chunks.entries).filter fun e =>
        strings.any (engine.holds · e.2)
      let joined := found.flatMap fun e => db.chunks.rows.filter fun row =>
        row.1 = e.1 && row.2.repositoryId = repositoryId
      have hpool : joined.Perm (db.chunks.rows.filter (engine.matching repositoryId query)) := by
        refine (join_perm h strings).trans (List.Perm.of_eq (List.filter_congr fun row _ => ?_))
        simp [Engine.matching, hnul, strings]
      have hnodup : joined.Nodup := by
        refine hpool.nodup_iff.mpr (List.Nodup.filter _ ?_)
        exact List.Nodup.of_map Prod.fst h.coherent.nodup
      have hscored : (found.flatMap fun e => (db.chunks.rows.filter fun row =>
            row.1 = e.1 && row.2.repositoryId = repositoryId).map fun row =>
              (row, engine.bm25 db.chunks.entries (matchQuery query) e.1)) =
          joined.map fun row => (row, score row) := by
        rw [List.map_flatMap]
        refine List.flatMap_congr fun e _ => List.map_congr_left fun row hrow => ?_
        have hid : row.1 = e.1 := by
          have hboth := (List.mem_filter.mp hrow).2
          rw [Bool.and_eq_true, decide_eq_true_eq] at hboth
          exact hboth.1
        rw [← hid]
      refine ⟨(sortBy score joined).take limit, ?_, ?_⟩
      · show (sortBy _ (found.flatMap _)).take limit = _
        rw [hscored, ← sortBy_map, List.map_take]
      · exact (best_take_sortBy hnodup (fun a b (hle : score a ≤ score b) => hle) limit).perm hpool

/-- What `SQLiteVectorStore.search` finds: the best of the rows with a vector. -/
theorem vectorSearch_best (engine : Engine F) (repositoryId : Uuid) (vector : List F) (limit : ℕ)
    (h : db.Plain plain) :
    ∃ picked, vectorSearch engine repositoryId vector limit db =
        picked.map (fun row => (row, engine.vectorScore vector row)) ∧
      Best (engine.vectorScore vector) limit
        (db.chunks.rows.filter (vectored repositoryId)) picked := by
  let scanned := (engine.scan (db.chunks.rows.filter fun row =>
    row.2.repositoryId = repositoryId)).filter fun row =>
      (row.2.vectorJson.filter (· ≠ "")).isSome
  have hpool : scanned.Perm (db.chunks.rows.filter (vectored repositoryId)) := by
    refine ((engine.scan_perm _).filter _).trans (List.Perm.of_eq ?_)
    rw [List.filter_filter]
    refine List.filter_congr fun row _ => ?_
    rw [vectored, Bool.and_comm]
  have hnodup : scanned.Nodup := by
    refine hpool.nodup_iff.mpr (List.Nodup.filter _ ?_)
    exact List.Nodup.of_map Prod.fst h.coherent.nodup
  have hscored : ((engine.scan (db.chunks.rows.filter fun row =>
        row.2.repositoryId = repositoryId)).filterMap fun row =>
          (row.2.vectorJson.filter (· ≠ "")).map fun json =>
            (row, cosine vector (engine.loads json))) =
      scanned.map fun row => (row, engine.vectorScore vector row) := by
    rw [← List.filterMap_eq_map, List.filterMap_filter]
    refine List.filterMap_congr fun row _ => ?_
    cases hjson : row.2.vectorJson with
    | none => rfl
    | some json =>
        have hscore : engine.vectorScore vector row = cosine vector (engine.loads json) := by
          rw [Engine.vectorScore, hjson, Option.getD_some]
        by_cases hempty : json = ""
        · simp [hempty]
        · simp [hempty, hscore]
  refine ⟨(sortBy (fun row => OrderDual.toDual (engine.vectorScore vector row)) scanned).take limit,
    ?_, ?_⟩
  · rw [vectorSearch, hscored, ← sortBy_map, List.map_take]
  · have hbest : Best (engine.vectorScore vector) limit scanned
        ((sortBy (fun row => OrderDual.toDual (engine.vectorScore vector row)) scanned).take
          limit) := by
      refine best_take_sortBy hnodup (fun a b hle => ?_) limit
      exact OrderDual.toDual_le_toDual.mp hle
    exact hbest.perm hpool

/-! ## The search -/

/-- The best of some rows have distinct ids. -/
theorem Best.nodup_ids {γ : Type*} [Preorder γ] {score : ℕ × CodeChunk → γ} {n : ℕ}
    {p : ℕ × CodeChunk → Bool} {picked : List (ℕ × CodeChunk)} (h : db.Plain plain)
    (hbest : Best score n (db.chunks.rows.filter p) picked) :
    (picked.map (·.2.id)).Nodup := by
  have hids : (db.chunks.rows.map (·.2.id)).Nodup := by
    have hnodup := plain.chunks.nodup
    rw [← h.chunks, List.map_map] at hnodup
    exact hnodup
  refine List.Nodup.map_on (fun a ha b hb hid => ?_) hbest.nodup
  have ha := (List.mem_filter.mp (hbest.subset a ha)).1
  have hb := (List.mem_filter.mp (hbest.subset b hb)).1
  exact List.inj_on_of_nodup_map hids ha hb hid

/-- What the two stores offer to `Retriever.search`. -/
def embeddedHits (engine : Engine F) (repositoryId : Uuid) (query : String) (vector : List F)
    (lexicalK vectorK : ℕ) (h : db.Plain plain) : Hits F where
  lexicalRows := (lexicalSearch engine repositoryId query lexicalK db).map idScore
  vectorRows := (vectorSearch engine repositoryId vector vectorK db).map idScore
  lexical_nodup := by
    obtain ⟨picked, hpicked, hbest⟩ := lexicalSearch_best engine repositoryId query lexicalK h
    rw [hpicked, List.map_map, List.map_map]
    exact hbest.nodup_ids h
  lexical_sorted := by
    obtain ⟨picked, hpicked, hbest⟩ := lexicalSearch_best engine repositoryId query lexicalK h
    rw [hpicked, List.map_map, List.pairwise_map]
    exact hbest.sorted.imp OrderDual.toDual_le_toDual.mp
  vector_nodup := by
    obtain ⟨picked, hpicked, hbest⟩ := vectorSearch_best engine repositoryId vector vectorK h
    rw [hpicked, List.map_map, List.map_map]
    exact hbest.nodup_ids h
  vector_sorted := by
    obtain ⟨picked, hpicked, hbest⟩ := vectorSearch_best engine repositoryId vector vectorK h
    rw [hpicked, List.map_map, List.pairwise_map]
    exact hbest.sorted

theorem get?_of_row (h : db.Plain plain) {row : ℕ × CodeChunk} (hrow : row ∈ db.chunks.rows) :
    plain.chunks.get? row.2.id = some row.2 :=
  Table.get?_of_mem (h.chunks ▸ List.mem_map_of_mem hrow)

/-- The lexical items are the best of the matching rows. -/
theorem lexical_items (engine : Engine F) (repositoryId : Uuid) (query : String) (vector : List F)
    (lexicalK vectorK : ℕ) (h : db.Plain plain) (mode : SearchMode) :
    ∃ picked, Best (engine.lexicalScore db query) lexicalK
        (db.chunks.rows.filter (engine.matching repositoryId query)) picked ∧
      (embeddedHits engine repositoryId query vector lexicalK vectorK h).lexical mode =
        if mode ≠ .dense then picked.map fun row => (row.2.id, engine.lexicalScore db query row)
        else [] := by
  obtain ⟨picked, hpicked, hbest⟩ := lexicalSearch_best engine repositoryId query lexicalK h
  refine ⟨picked, hbest.mono fun _ _ hle => max_le_max (le_refl 0) (Score.neg_le_neg hle), ?_⟩
  have hrows : (embeddedHits engine repositoryId query vector lexicalK vectorK h).lexicalRows =
      (lexicalSearch engine repositoryId query lexicalK db).map idScore := rfl
  rw [Hits.lexical, hrows, hpicked, List.map_map, List.map_map]
  rfl

/-- The vector items are the best of the rows with a vector. -/
theorem vector_items (engine : Engine F) (repositoryId : Uuid) (query : String) (vector : List F)
    (lexicalK vectorK : ℕ) (h : db.Plain plain) (mode : SearchMode) :
    ∃ picked, Best (engine.vectorScore vector) vectorK
        (db.chunks.rows.filter (vectored repositoryId)) picked ∧
      (embeddedHits engine repositoryId query vector lexicalK vectorK h).vector mode =
        if mode ≠ .lexical then picked.map fun row => (row.2.id, engine.vectorScore vector row)
        else [] := by
  obtain ⟨picked, hpicked, hbest⟩ := vectorSearch_best engine repositoryId vector vectorK h
  refine ⟨picked, hbest, ?_⟩
  have hrows : (embeddedHits engine repositoryId query vector lexicalK vectorK h).vectorRows =
      (vectorSearch engine repositoryId vector vectorK db).map idScore := rfl
  rw [Hits.vector, hrows, hpicked, List.map_map]
  rfl

/-- Every candidate of the two stores has its row, and that row is of the repository. -/
theorem row_of_candidate (h : db.Plain plain) {vector : List F} {lexicalK vectorK : ℕ}
    {mode : SearchMode} {id : Uuid} (hid : id ∈
      (embeddedHits engine repositoryId query vector lexicalK vectorK h).candidates mode) :
    ∃ row ∈ db.chunks.rows, row.2.id = id ∧ row.2.repositoryId = repositoryId := by
  obtain ⟨picked, hbest, hitems⟩ :=
    lexical_items engine repositoryId query vector lexicalK vectorK h mode
  obtain ⟨picked', hbest', hitems'⟩ :=
    vector_items engine repositoryId query vector lexicalK vectorK h mode
  rw [Hits.candidates, List.mem_eraseDups, hitems, hitems', List.map_append,
    List.mem_append] at hid
  rcases hid with hid | hid
  · split at hid
    · obtain ⟨item, hitem, rfl⟩ := List.mem_map.mp hid
      obtain ⟨row, hrow, rfl⟩ := List.mem_map.mp hitem
      obtain ⟨hrow, hp⟩ := List.mem_filter.mp (hbest.subset row hrow)
      simp only [Engine.matching, Bool.and_eq_true, decide_eq_true_eq] at hp
      exact ⟨row, hrow, rfl, hp.1.1⟩
    · cases hid
  · split at hid
    · obtain ⟨item, hitem, rfl⟩ := List.mem_map.mp hid
      obtain ⟨row, hrow, rfl⟩ := List.mem_map.mp hitem
      obtain ⟨hrow, hp⟩ := List.mem_filter.mp (hbest'.subset row hrow)
      simp only [vectored, Bool.and_eq_true, decide_eq_true_eq] at hp
      exact ⟨row, hrow, rfl, hp.1⟩
    · cases hid

end

/-- A search by one store answers with its first items, if each has a chunk. -/
theorem search_items {plain : IndexDb} {hits : Hits F} {mode : SearchMode} {rrfK : ℕ}
    {items : List (Uuid × F)} (hranked : hits.rankedIds mode rrfK = items.map Prod.fst)
    (hcombined : hits.combined mode rrfK = Scores.ofItems items)
    (hnodup : (items.map Prod.fst).Nodup) (hlive : ∀ item ∈ items, plain.hasChunk item.1 = true)
    (topK : ℕ) :
    (search plain hits mode topK rrfK).map (fun r => (r.chunkId, r.score)) =
      items.take topK := by
  have hscore : ∀ item ∈ items, hits.score mode rrfK item.1 = item.2 := by
    intro item hitem
    rw [Hits.score, hcombined, Scores.score?_ofItems hnodup hitem, Option.getD_some]
  rw [search, hranked, ← List.map_take, List.filterMap_map, List.map_filterMap]
  conv_rhs => rw [← List.filterMap_some (l := items.take topK)]
  refine List.filterMap_congr fun item hitem => ?_
  have hmem := List.mem_of_mem_take hitem
  obtain ⟨row, hrow⟩ := Option.isSome_iff_exists.mp (hlive item hmem)
  simp only [Function.comp, hrow, Option.map_some]
  rw [Hits.result, hscore item hmem]

/-- At every point of any run of writes, a search on the embedded stores misses none of the
best candidates, shows chunks of the repository only, and by one store it shows the best of
all the repository's chunks that the store could find. -/
theorem embedded_search_exact {db : Database} (h : database.Reachable db) :
    ∃ (plain : IndexDb) (hplain : db.Plain plain), ∀ (engine : Engine F) (repositoryId : Uuid)
      (query : String) (vector : List F) (lexicalK vectorK topK rrfK : ℕ),
      let hits := embeddedHits engine repositoryId query vector lexicalK vectorK hplain
      (∀ mode, IsTop plain hits mode topK rrfK (search plain hits mode topK rrfK) ∧
        ∀ r ∈ search plain hits mode topK rrfK, r.repositoryId = repositoryId) ∧
      (∃ picked, Best (engine.lexicalScore db query) (min topK lexicalK)
          (db.chunks.rows.filter (engine.matching repositoryId query)) picked ∧
        (search plain hits .lexical topK rrfK).map (fun r => (r.chunkId, r.score)) =
          picked.map fun row => (row.2.id, engine.lexicalScore db query row)) ∧
      ∃ picked, Best (engine.vectorScore vector) (min topK vectorK)
          (db.chunks.rows.filter (vectored repositoryId)) picked ∧
        (search plain hits .dense topK rrfK).map (fun r => (r.chunkId, r.score)) =
          picked.map fun row => (row.2.id, engine.vectorScore vector row) := by
  obtain ⟨plain, hplain⟩ := exists_plain h
  refine ⟨plain, hplain, fun engine repositoryId query vector lexicalK vectorK topK rrfK => ?_⟩
  intro hits
  have hlive : ∀ mode, ∀ id ∈ hits.candidates mode, plain.hasChunk id = true := by
    intro mode id hid
    obtain ⟨row, hrow, rfl, -⟩ := row_of_candidate hplain hid
    rw [IndexDb.hasChunk, get?_of_row hplain hrow]
    rfl
  refine ⟨fun mode => ⟨?_, fun r hr => ?_⟩, ?_, ?_⟩
  · refine (search_isTop_iff plain hits mode topK rrfK).mpr ?_
    intro stale hstale _ _ hnot
    rw [hlive mode stale hstale] at hnot
    cases hnot
  · obtain ⟨hid, row, hrow, heq⟩ := live_search hr
    obtain ⟨row', hrow', hid', hrepo⟩ := row_of_candidate hplain hid
    have hsame := get?_of_row hplain hrow'
    rw [hid', hrow] at hsame
    obtain rfl := Option.some.inj hsame
    rw [heq]
    exact hrepo
  · obtain ⟨picked, hbest, hitems⟩ :=
      lexical_items engine repositoryId query vector lexicalK vectorK hplain .lexical
    rw [if_pos (by decide)] at hitems
    refine ⟨picked.take topK, hbest.take topK, ?_⟩
    rw [List.map_take, ← hitems]
    refine search_items rfl rfl (hits.lexical_ids_nodup _) (fun item hitem => ?_) topK
    refine hlive .lexical item.1 ?_
    rw [hits.candidates_lexical]
    exact List.mem_map_of_mem hitem
  · obtain ⟨picked, hbest, hitems⟩ :=
      vector_items engine repositoryId query vector lexicalK vectorK hplain .dense
    rw [if_pos (by decide)] at hitems
    refine ⟨picked.take topK, hbest.take topK, ?_⟩
    rw [List.map_take, ← hitems]
    refine search_items rfl rfl (hits.vector_ids_nodup _) (fun item hitem => ?_) topK
    refine hlive .dense item.1 ?_
    rw [hits.candidates_dense]
    exact List.mem_map_of_mem hitem

end

/-- An engine for texts of single words and two vectors. -/
def wordEngine : Engine ℚ where
  holds := fun text doc => (splitWords [] doc.content.toList).contains text
  bm25 := fun _ _ _ => -1 / 1000000
  visit := fun entries => entries
  visit_perm := List.Perm.refl
  scan := fun rows => rows
  scan_perm := List.Perm.refl
  loads := fun json => if json = "[1.0, 0.0]" then [1, 0] else if json = "[0.0, 1.0]" then [0, 1] else []

/-- Two chunks are stored; a word is looked for, and a vector. -/
theorem embedded_search_exact_two :
    let db := Database.fresh.after [
      .replaceFileChunks ⟨"d0", rfl⟩ "a.py" ⟨"1", rfl⟩ "c1"
        [(oneLine ⟨"b1", rfl⟩ "a.py" "def greet").withVector "[1.0, 0.0]",
          (oneLine ⟨"b2", rfl⟩ "a.py" "def part").withVector "[0.0, 1.0]"] true]
    (db.chunks.rows.filter (wordEngine.matching ⟨"d0", rfl⟩ "greet \"me")).map (·.2.id.text) =
        ["b1"] ∧
      db.chunks.rows.map (wordEngine.vectorScore [0, 1]) = ([0, 1] : List ℚ) ∧
      ∃ (plain : IndexDb) (hplain : db.Plain plain) (picked : List (ℕ × CodeChunk)),
        Best (wordEngine.vectorScore [0, 1]) 1
          (db.chunks.rows.filter (vectored ⟨"d0", rfl⟩)) picked ∧
        (search plain (embeddedHits wordEngine ⟨"d0", rfl⟩ "greet \"me" [0, 1] 20 20 hplain) .dense
          1 60).map (fun r => (r.chunkId, r.score)) =
            picked.map fun row => (row.2.id, wordEngine.vectorScore [0, 1] row) := by
  intro db
  have hreach : database.Reachable db := ⟨Database.fresh, _, rfl, run_after _ _⟩
  obtain ⟨plain, hplain, hall⟩ := embedded_search_exact (F := ℚ) hreach
  obtain ⟨-, -, picked, hbest, hsearch⟩ :=
    hall wordEngine ⟨"d0", rfl⟩ "greet \"me" [0, 1] 20 20 1 60
  refine ⟨?_, ?_, plain, hplain, picked, hbest, hsearch⟩
  · decide +kernel
  · decide +kernel

end RepoMesh
