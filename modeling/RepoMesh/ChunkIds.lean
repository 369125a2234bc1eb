import RepoMesh.ChunkSpans
import RepoMesh.IndexKeeps

/-!
# Chunk ids

The id of a chunk is drawn from its repository, path, lines and text, so two chunks
of a file share an id exactly if they share their lines. Windows never do; two
declarations do when they begin and end on the same lines, or are cut into a common
piece. A file with a backslash in its path leaves its old chunk rows behind when it is
stored anew. `chunk_ids_distinct_iff` is the exact condition for whole histories of a
store, and `passes_storing` says that indexing passes make such histories.
-/

namespace RepoMesh

namespace ChunkLimits

variable {limits : ChunkLimits} {parser : Parser} {filePath content : String}

/-- Declarations on these lines have no piece in common. -/
def Apart (limits : ChunkLimits) (r r' : Nat × Nat) : Prop :=
  ∀ a b, ¬ (limits.Piece r.1 r.2 a b ∧ limits.Piece r'.1 r'.2 a b)

/-- No two declarations of the tree that a file is cut by have a piece in common. -/
def SharesNoPiece (limits : ChunkLimits) (parser : Parser) (filePath content : String) : Prop :=
  ∀ symbols tree, symbolNodes.lookup (languageFor filePath) = some symbols →
    parser.parse (languageFor filePath) content = some tree →
    Readable symbols (languageFor filePath) content.toUTF8 [tree.root] →
    (declarations symbols [tree.root]).Pairwise fun d d' =>
      limits.Apart (d.startRow + 1, d.endRow + 1) (d'.startRow + 1, d'.endRow + 1)

/-- The spans of a tree's candidates are distinct iff no two of them share a piece. -/
theorem candidates_nodup_iff {candidates : List Candidate} :
    ((candidates.flatMap limits.candidateSpans).map Span.range).Nodup ↔
      (candidates.map fun c => (c.start, c.stop)).Pairwise limits.Apart := by
  rw [List.map_flatMap, List.nodup_flatMap, List.pairwise_map]
  constructor
  · rintro ⟨-, hdisjoint⟩
    refine hdisjoint.imp fun {c c'} hd a b hand => ?_
    exact hd (mem_candidateSpans.mpr hand.1) (mem_candidateSpans.mpr hand.2)
  · intro hapart
    refine ⟨fun c _ => candidateSpans_nodup c, hapart.imp fun {c c'} hno => ?_⟩
    rintro ⟨a, b⟩ h h'
    exact hno a b ⟨mem_candidateSpans.mp h, mem_candidateSpans.mp h'⟩

theorem Apart.symm {r r' : Nat × Nat} (h : limits.Apart r r') : limits.Apart r' r :=
  fun a b hand => h a b hand.symm

/-- Sorting the candidates does not matter for that. -/
theorem pairwise_sortBy_iff {candidates : List Candidate} :
    ((sortBy (fun c : Candidate => toLex (c.start, c.stop)) candidates).map
        fun c => (c.start, c.stop)).Pairwise limits.Apart ↔
      (candidates.map fun c => (c.start, c.stop)).Pairwise limits.Apart :=
  ((sortBy_perm _ candidates).map _).pairwise_iff fun h => h.symm

theorem fallbackSpans_nodup (content : String) :
    ((limits.fallbackSpans content).map Span.range).Nodup :=
  lineWindows_nodup _ _ _ _ _

theorem fallbackSpans_ne_nil (content : String) : limits.fallbackSpans content ≠ [] := by
  intro hnil
  have hwindows : limits.windowsFrom (max 1 (splitLines [] content.toList).length) 1 = [] := by
    rw [← limits.range_lineWindows 1 _ none none "line-fallback", List.map_eq_nil_iff]
    exact hnil
  rw [windowsFrom_of_le (le_max_left _ _)] at hwindows
  exact List.cons_ne_nil _ _ hwindows

theorem spans_ne_nil : limits.spans parser filePath content ≠ [] := by
  unfold spans
  split
  · exact List.cons_ne_nil _ _
  · exact fallbackSpans_ne_nil content

/-- A tree of one node has at most one declaration. -/
theorem declarations_leaf {symbols : List (String × String)} {root : Node}
    (h : root.namedChildren.isEmpty = true) {P : Node → Node → Prop} :
    (declarations symbols [root]).Pairwise P := by
  have hnil : root.namedChildren = [] := List.isEmpty_iff.mp h
  rw [declarations_cons, hnil]
  show ((if (symbols.lookup root.type).isSome then [root] else []) ++ []).Pairwise P
  rw [List.append_nil]
  split
  · exact List.pairwise_singleton _ _
  · exact .nil

/-- The spans of a file are distinct iff no two declarations share a piece. -/
theorem spans_nodup_iff :
    ((limits.spans parser filePath content).map Span.range).Nodup ↔
      limits.SharesNoPiece parser filePath content := by
  unfold spans treeSpans
  cases hsymbols : symbolNodes.lookup (languageFor filePath) with
  | none =>
      refine iff_of_true (fallbackSpans_nodup content) fun symbols tree h => ?_
      rw [hsymbols] at h
      cases h
  | some symbols =>
  cases hparse : parser.parse (languageFor filePath) content with
  | none =>
      refine iff_of_true (fallbackSpans_nodup content) fun _ tree _ h => ?_
      rw [hparse] at h
      cases h
  | some tree =>
  have hshares : limits.SharesNoPiece parser filePath content ↔
      (Readable symbols (languageFor filePath) content.toUTF8 [tree.root] →
        ((declarations symbols [tree.root]).map
          fun d => (d.startRow + 1, d.endRow + 1)).Pairwise limits.Apart) := by
    rw [List.pairwise_map]
    constructor
    · intro h hread
      exact h symbols tree hsymbols hparse hread
    · intro h symbols' tree' hsymbols' hparse' hread
      obtain rfl := Option.some.inj (hsymbols.symm.trans hsymbols')
      obtain rfl := Option.some.inj (hparse.symm.trans hparse')
      exact h hread
  rw [hshares]
  simp only [Option.bind_some]
  by_cases hempty : tree.hasError = true ∧ tree.root.namedChildren.isEmpty = true
  · rw [if_pos hempty]
    exact iff_of_true (fallbackSpans_nodup content) fun _ =>
      List.pairwise_map.mpr (declarations_leaf hempty.2)
  rw [if_neg hempty]
  rcases walk_cases symbols (languageFor filePath) content.toUTF8 [tree.root] with
    ⟨hwalk, hnot⟩ | ⟨found, hwalk, hread, hfound⟩
  · rw [hwalk]
    exact iff_of_true (fallbackSpans_nodup content) fun hread => absurd hread hnot
  · rw [hwalk, ← ranges_candidates symbols (languageFor filePath) content.toUTF8, ← hfound,
      ← pairwise_sortBy_iff, ← candidates_nodup_iff, Option.map_some]
    cases hspans : (sortBy (fun c : Candidate => toLex (c.start, c.stop)) found).flatMap
        limits.candidateSpans with
    | nil => exact iff_of_true (fallbackSpans_nodup content) fun _ => .nil
    | cons span rest => exact ⟨fun h _ => h, fun h => h hread⟩

end ChunkLimits

/-! ## Ids in a store -/

/-- A version of a file as it is stored: where it belongs, its commit, its decoded text, and
how it is cut and embedded. -/
structure SourceFile where
  repositoryId : Uuid
  path : String
  commitSha : String
  content : String
  sha256 : HexDigest
  limits : ChunkLimits
  embeddingModel : String
  embeddingVersion : String

namespace SourceFile

def key (f : SourceFile) : FileKey := ⟨f.repositoryId, f.path⟩

def spans (parser : Parser) (f : SourceFile) : List Span := f.limits.spans parser f.path f.content

def chunks (h : Hashing) (parser : Parser) (importsJson : String → String) (f : SourceFile) :
    List CodeChunk :=
  (treeChunker f.limits parser importsJson).chunk h f.repositoryId f.commitSha f.path f.content
    f.embeddingModel f.embeddingVersion

/-- What is hashed to the id of the chunk of a span. -/
def chunkName (h : Hashing) (f : SourceFile) (span : Span) : String :=
  identity f.repositoryId f.path span (h.sha256 (selected f.content span).toUTF8)

/-- The chunks of the file with vectors stored in them. -/
def Items (h : Hashing) (parser : Parser) (importsJson : String → String) (f : SourceFile)
    (items : List CodeChunk) : Prop :=
  ∃ vectors, zipItems (f.chunks h parser importsJson) vectors = .ok items

end SourceFile

/-- The names of all chunks of some files. -/
def chunkNames (h : Hashing) (parser : Parser) (files : Set SourceFile) : Set String :=
  {name | ∃ f ∈ files, ∃ span ∈ f.spans parser, name = f.chunkName h span}

/-- The write stores no chunks but those of a version of `files`. -/
def Write.StoresOf (h : Hashing) (parser : Parser) (importsJson : String → String)
    (files : Set SourceFile) : Write → Prop
  | .replaceFileChunks repositoryId path sha256 commitSha items _ =>
      ∃ f ∈ files, f.repositoryId = repositoryId ∧ f.path = path ∧ f.sha256 = sha256 ∧
        f.commitSha = commitSha ∧ f.Items h parser importsJson items
  | _ => True

/-- Indexes without chunks at first, and the writes that store versions of `files`, again
and again, in between all others. A write that raises is rolled back. -/
def storing (h : Hashing) (parser : Parser) (importsJson : String → String)
    (files : Set SourceFile) : System IndexDb Write where
  init db := db.chunks.rows = []
  step db write db' := write.StoresOf h parser importsJson files ∧
    committed db (write.onPlain db) = db'

section

variable {h : Hashing} {parser : Parser} {importsJson : String → String}
  {files : Set SourceFile}

namespace SourceFile

theorem chunk_ids (f : SourceFile) :
    (f.chunks h parser importsJson).map (·.id) =
      (f.spans parser).map fun span => h.uuid5 (f.chunkName h span) := by
  rw [chunks, CodeChunker.chunk, List.map_map, treeChunker_spans]
  rfl

/-- Two chunks of one file with the same lines have the same id. -/
theorem chunkName_congr (f : SourceFile) {span span' : Span}
    (hrange : span.range = span'.range) : f.chunkName h span = f.chunkName h span' := by
  obtain ⟨hstart, hstop⟩ := Prod.mk.inj hrange
  have htext : selected f.content span = selected f.content span' := by
    unfold selected
    rw [hstart, hstop]
  rw [chunkName, chunkName, htext, identity, identity, hstart, hstop]

/-- A chunk with its vector is filed under the path with its backslashes turned, and named
by the path as it is. -/
theorem mem_items {f : SourceFile} {items : List CodeChunk}
    (hitems : f.Items h parser importsJson items) {c : CodeChunk} (hc : c ∈ items) :
    c.key = ⟨f.repositoryId, slashed f.path⟩ ∧
      ∃ span ∈ f.spans parser, c.id = h.uuid5 (f.chunkName h span) := by
  obtain ⟨vectors, hzip⟩ := hitems
  obtain ⟨raw, hraw, vector, rfl⟩ := mem_zipItems hzip hc
  rw [chunks, CodeChunker.chunk, treeChunker_spans] at hraw
  obtain ⟨span, hspan, hmade⟩ := List.mem_map.mp hraw
  rw [CodeChunk.withVector_key, CodeChunk.withVector_id, ← hmade]
  exact ⟨makeChunk_key, span, hspan, makeChunk_id⟩

theorem map_id_items {f : SourceFile} {items : List CodeChunk}
    (hitems : f.Items h parser importsJson items) :
    items.map (·.id) = (f.chunks h parser importsJson).map (·.id) := by
  obtain ⟨vectors, hzip⟩ := hitems
  exact map_id_zipItems hzip

theorem exists_items (h : Hashing) (parser : Parser) (importsJson : String → String)
    (f : SourceFile) : ∃ items, f.Items h parser importsJson items := by
  generalize hraw : f.chunks h parser importsJson = raw
  have hlength : raw.length = (List.replicate raw.length "[]").length :=
    List.length_replicate.symm
  have hzip := zipItems_of_length hlength
  exact ⟨_, _, hraw ▸ hzip⟩

/-- The ids of a file's chunks are distinct iff their lines are. -/
theorem ids_nodup_iff {f : SourceFile} (hf : f ∈ files)
    (huuid : Set.InjOn h.uuid5 (chunkNames h parser files)) :
    ((f.chunks h parser importsJson).map (·.id)).Nodup ↔
      f.limits.SharesNoPiece parser f.path f.content := by
  rw [← ChunkLimits.spans_nodup_iff, chunk_ids, List.Nodup, List.Nodup, List.pairwise_map,
    List.pairwise_map]
  constructor
  · exact fun hids => hids.imp fun {span span'} hne hrange =>
      hne (congrArg h.uuid5 (f.chunkName_congr hrange))
  · intro hranges
    refine hranges.imp_of_mem fun {span span'} hspan hspan' hne hid => hne ?_
    have hname := huuid ⟨f, hf, span, hspan, rfl⟩ ⟨f, hf, span', hspan', rfl⟩ hid
    exact Prod.ext (identity_inj hname).2.2.1 (identity_inj hname).2.2.2

/-- Chunks of one id are of one file. -/
theorem key_of_id {f f' : SourceFile} (hf : f ∈ files) (hf' : f' ∈ files)
    (huuid : Set.InjOn h.uuid5 (chunkNames h parser files)) {span span' : Span}
    (hspan : span ∈ f.spans parser) (hspan' : span' ∈ f'.spans parser)
    (hid : h.uuid5 (f.chunkName h span) = h.uuid5 (f'.chunkName h span')) : f.key = f'.key := by
  have hname := huuid ⟨f, hf, span, hspan, rfl⟩ ⟨f', hf', span', hspan', rfl⟩ hid
  obtain ⟨hrepo, hpath, -⟩ := identity_inj hname
  exact FileKey.ext hrepo hpath

theorem ids_disjoint {f f' : SourceFile} (hf : f ∈ files) (hf' : f' ∈ files)
    (hkey : f.key ≠ f'.key) (huuid : Set.InjOn h.uuid5 (chunkNames h parser files)) :
    ((f.chunks h parser importsJson).map (·.id)).Disjoint
      ((f'.chunks h parser importsJson).map (·.id)) := by
  rw [chunk_ids, chunk_ids]
  intro id hid hid'
  obtain ⟨span, hspan, rfl⟩ := List.mem_map.mp hid
  obtain ⟨span', hspan', heq⟩ := List.mem_map.mp hid'
  exact hkey (key_of_id hf hf' huuid hspan hspan' heq.symm)

end SourceFile

/-! ## Storing -/

/-- Inserting succeeds exactly when no two rows get one id. -/
theorem insertChunks_iff {t : Table CodeChunk.id} {chunks : List CodeChunk} :
    (∃ t', IndexDb.insertChunks t chunks = some t') ↔ ((t.rows ++ chunks).map (·.id)).Nodup := by
  constructor
  · rintro ⟨t', ht'⟩
    rw [← World.insertChunks_rows ht']
    exact t'.nodup
  intro hids
  induction chunks generalizing t with
  | nil => exact ⟨t, rfl⟩
  | cons c chunks ih =>
      have hnone : t.get? c.id = none := by
        rw [Table.get?_eq_none]
        intro r hr heq
        rw [List.map_append] at hids
        exact (List.nodup_append'.mp hids).2.2 (List.mem_map_of_mem hr)
          (heq ▸ List.mem_map_of_mem List.mem_cons_self)
      have hinsert : t.insert? c = some (t.insertNew c) := by
        simp [Table.insert?, hnone]
      obtain ⟨t', ht'⟩ := ih (t := t.insertNew c) (by
        rw [Table.insertNew_rows hnone, List.append_assoc]
        exact hids)
      exact ⟨t', by rw [IndexDb.insertChunks, hinsert]; exact ht'⟩

/-- `replace_file_chunks` succeeds exactly when the ids of the chunks are distinct, and
distinct from those of the rows that it leaves. -/
theorem replaceFileChunks_iff {db : IndexDb} {repositoryId : Uuid} {path commitSha : String}
    {sha256 : HexDigest} {items : List CodeChunk} {vectorSynced : Bool} :
    (∃ db', db.replaceFileChunks repositoryId path sha256 commitSha items vectorSynced =
        .ok db') ↔
      (((db.chunks.delete (·.key = ⟨repositoryId, path⟩)).rows ++ items).map (·.id)).Nodup := by
  rw [← insertChunks_iff, IndexDb.replaceFileChunks]
  cases hinsert : IndexDb.insertChunks (db.chunks.delete (·.key = ⟨repositoryId, path⟩)) items with
  | none => simp
  | some t => simp

/-- Every chunk row is of a version of `files`, filed under its path and named by it. -/
def Owned (h : Hashing) (parser : Parser) (files : Set SourceFile) (db : IndexDb) : Prop :=
  ∀ c ∈ db.chunks.rows, ∃ f ∈ files, c.key = f.key ∧
    ∃ span ∈ f.spans parser, c.id = h.uuid5 (f.chunkName h span)

/-- A write keeps that, if no path has a backslash. -/
theorem Owned.write {db : IndexDb} (hdb : Owned h parser files db)
    (hplain : ∀ f ∈ files, '\\' ∉ f.path.toList) {write : Write}
    (hstores : write.StoresOf h parser importsJson files) :
    Owned h parser files (committed db (write.onPlain db)) := by
  cases write with
  | replaceFileChunks repositoryId path sha256 commitSha items vectorSynced =>
      obtain ⟨f, hf, rfl, rfl, rfl, rfl, hitems⟩ := hstores
      rw [Write.onPlain, IndexDb.replaceFileChunks]
      cases hinsert : IndexDb.insertChunks
          (db.chunks.delete (·.key = ⟨f.repositoryId, f.path⟩)) items with
      | none => exact hdb
      | some t =>
          intro c hc
          have hrows : c ∈ t.rows := hc
          rw [World.insertChunks_rows hinsert, List.mem_append] at hrows
          rcases hrows with hkept | hnew
          · exact hdb c (Table.mem_delete.mp hkept).1
          · obtain ⟨hkey, hnamed⟩ := SourceFile.mem_items hitems hnew
            rw [slashed_eq_self (hplain f hf)] at hkey
            exact ⟨f, hf, hkey, hnamed⟩
  | deleteFile repositoryId path => exact fun c hc => hdb c (Table.mem_delete.mp hc).1
  | updateFileCommit repositoryId path commitSha =>
      intro c hc
      obtain ⟨c', hc', rfl⟩ := List.mem_map.mp hc
      obtain ⟨f, hf, hkey, hnamed⟩ := hdb c' hc'
      refine ⟨f, hf, ?_, ?_⟩
      · split
        · exact hkey
        · exact hkey
      · split
        · exact hnamed
        · exact hnamed
  | markVectorDirty repositoryId path => exact hdb
  | finishVectorDeletion repositoryId path => exact hdb
  | updateRepository repositoryId commitSha status => exact hdb

theorem owned_of_reachable (hplain : ∀ f ∈ files, '\\' ∉ f.path.toList) {db : IndexDb}
    (hreach : (storing h parser importsJson files).Reachable db) : Owned h parser files db := by
  refine hreach.induct (I := Owned h parser files) ?_ ?_
  · intro db hinit c hc
    rw [show db.chunks.rows = [] from hinit] at hc
    cases hc
  · rintro db write db' - hdb ⟨hstores, rfl⟩
    exact hdb.write hplain hstores

/-- Into such an index every version of `files` can be stored. -/
theorem Owned.stores {db : IndexDb} (hdb : Owned h parser files db)
    (huuid : Set.InjOn h.uuid5 (chunkNames h parser files)) {f : SourceFile} (hf : f ∈ files)
    (hshares : f.limits.SharesNoPiece parser f.path f.content) {items : List CodeChunk}
    (hitems : f.Items h parser importsJson items) (vectorSynced : Bool) :
    ∃ db', db.replaceFileChunks f.repositoryId f.path f.sha256 f.commitSha items vectorSynced =
      .ok db' := by
  rw [replaceFileChunks_iff, List.map_append, List.nodup_append']
  refine ⟨(db.chunks.delete _).nodup, ?_, ?_⟩
  · rw [SourceFile.map_id_items hitems]
    exact (SourceFile.ids_nodup_iff hf huuid).mpr hshares
  · intro id hid hid'
    obtain ⟨c, hc, rfl⟩ := List.mem_map.mp hid
    obtain ⟨item, hitem, heq⟩ := List.mem_map.mp hid'
    obtain ⟨hrow, hkept⟩ := Table.mem_delete.mp hc
    obtain ⟨f', hf', hkey, span', hspan', hname'⟩ := hdb c hrow
    obtain ⟨-, span, hspan, hname⟩ := SourceFile.mem_items hitems hitem
    have hsame : f'.key = f.key := SourceFile.key_of_id hf' hf huuid hspan' hspan
      (hname'.symm.trans (heq.symm.trans hname))
    rw [hkey, hsame] at hkept
    exact absurd hkept (by simp [SourceFile.key])

/-- A file with a backslash in its path cannot be stored twice in a row. -/
theorem not_stored_again {f : SourceFile} {items : List CodeChunk}
    (hitems : f.Items h parser importsJson items) (hslash : '\\' ∈ f.path.toList)
    {db db' : IndexDb} {vectorSynced : Bool}
    (hstored : db.replaceFileChunks f.repositoryId f.path f.sha256 f.commitSha items
      vectorSynced = .ok db') :
    ¬ ∃ db'', db'.replaceFileChunks f.repositoryId f.path f.sha256 f.commitSha items
      vectorSynced = .ok db'' := by
  rw [replaceFileChunks_iff, List.map_append, List.nodup_append']
  rintro ⟨-, -, hdisjoint⟩
  obtain ⟨item, hitem⟩ : ∃ item, item ∈ items := by
    refine List.exists_mem_of_ne_nil _ fun hnil => ?_
    have hids := SourceFile.map_id_items hitems
    rw [hnil, SourceFile.chunk_ids] at hids
    have hspans : f.spans parser = [] := List.map_eq_nil_iff.mp hids.symm
    exact ChunkLimits.spans_ne_nil hspans
  have hrow : item ∈ db'.chunks.rows := by
    have hkey : db.replaceFileChunks f.key.repositoryId f.key.path f.sha256 f.commitSha items
        vectorSynced = .ok db' := hstored
    rw [(World.replaceFileChunks_ok hkey).2.1]
    exact List.mem_append_right _ hitem
  have hslashed : slashed f.path ≠ f.path := fun heq => not_mem_slashed f.path (heq.symm ▸ hslash)
  refine hdisjoint (List.mem_map_of_mem (Table.mem_delete.mpr ⟨hrow, ?_⟩))
    (List.mem_map_of_mem hitem)
  rw [(SourceFile.mem_items hitems hitem).1]
  simpa using hslashed

end

/-! ## Passes -/

/-- The version that the pass stores of a file, from the bytes it hashed and those it read. -/
def Pass.sourceFile (h : Hashing) (limits : ChunkLimits) (pass : Pass) (path : RelPath)
    (hashed read : ByteArray) : SourceFile where
  repositoryId := pass.repositoryId
  path := path.asPosix
  commitSha := pass.tree.commitSha
  content := pass.indexer.readText read
  sha256 := h.sha256 hashed
  limits := limits
  embeddingModel := pass.indexer.embedder.model
  embeddingVersion := pass.indexer.embedder.version

/-- The pass cuts files by their trees, and what it finds are versions of `files`. -/
structure Pass.Brings (h : Hashing) (parser : Parser) (importsJson : String → String)
    (files : Set SourceFile) (limits : ChunkLimits) (pass : Pass) : Prop where
  chunker : pass.indexer.chunker = treeChunker limits parser importsJson
  brings : ∀ path hashed read, pass.Finds path → pass.tree.hashed path = some hashed →
    pass.tree.read path = some read → pass.sourceFile h limits path hashed read ∈ files

/-- The writes of passes are writes of `storing`. -/
theorem passes_storing {h : Hashing} {parser : Parser} {importsJson : String → String}
    {files : Set SourceFile} {passes : List Pass} {w w' : World}
    (hrun : (indexing h).Run w passes w')
    (hbrings : ∀ pass ∈ passes, ∃ limits, pass.Brings h parser importsJson files limits)
    (hw : (storing h parser importsJson files).Reachable w.db) :
    (storing h parser importsJson files).Reachable w'.db := by
  refine passes_keep hrun (P := fun w => (storing h parser importsJson files).Reachable w.db)
    (fun pass hpass w hw => ?_) hw
  obtain ⟨limits, hchunker, hfiles⟩ := hbrings pass hpass
  have hkeep : Keeps (fun w : World => (storing h parser importsJson files).Reachable w.db)
      (index h pass.indexer pass.repositoryId pass.mode pass.tree) := by
    refine index_keeps pass.mode (fun w hw => hw.step
      (a := .updateRepository pass.repositoryId pass.tree.commitSha "indexed") ⟨trivial, rfl⟩) ?_
    refine ⟨fun _ _ _ _ hw => hw, fun _ path _ hw => hw.step
      (a := .deleteFile pass.repositoryId path) ⟨trivial, rfl⟩, fun _ key hw => hw.step
      (a := .finishVectorDeletion key.repositoryId key.path) ⟨trivial, rfl⟩, fun _ path _ hw =>
      hw.step (a := .markVectorDirty pass.repositoryId path.asPosix) ⟨trivial, rfl⟩,
      fun _ path _ hw => hw.step (a := .updateFileCommit pass.repositoryId path.asPosix
        pass.tree.commitSha) ⟨trivial, rfl⟩, ?_⟩
    intro w path hashed read items vectors vectorSynced db hpath hhashed hread hitems hw hdb
    refine hw.step (a := .replaceFileChunks pass.repositoryId path.asPosix (h.sha256 hashed)
      pass.tree.commitSha items vectorSynced) ⟨?_, ?_⟩
    · obtain ⟨hzip, -⟩ := fileItems_eq_ok.mp hitems
      rw [Indexer.cut, hchunker] at hzip
      exact ⟨_, hfiles path hashed read hpath hhashed hread, rfl, rfl, rfl, rfl, vectors, hzip⟩
    · rw [Write.onPlain, hdb]
      rfl
  have hpost := hkeep w pass.fates hw
  rw [Pass.run]
  revert hpost
  rcases (index h pass.indexer pass.repositoryId pass.mode pass.tree w pass.fates).1 with ⟨r, w'⟩
  cases r <;> exact id

/-! ## The condition -/

/-- The chunks of any versions of any files have distinct ids within each version and across
files, and a version can be stored into every index that storing them in any order, any
number of times, has led to, iff no two declarations of a version share a piece and no path
has a backslash. -/
theorem chunk_ids_distinct_iff (h : Hashing) (parser : Parser) (importsJson : String → String)
    (files : Set SourceFile) (huuid : Set.InjOn h.uuid5 (chunkNames h parser files)) :
    ((∀ f ∈ files, ((f.chunks h parser importsJson).map (·.id)).Nodup ∧
        ∀ f' ∈ files, f.key ≠ f'.key → ((f.chunks h parser importsJson).map (·.id)).Disjoint
          ((f'.chunks h parser importsJson).map (·.id))) ∧
      ∀ db, (storing h parser importsJson files).Reachable db → ∀ f ∈ files, ∀ items,
        f.Items h parser importsJson items → ∀ vectorSynced, ∃ db',
          db.replaceFileChunks f.repositoryId f.path f.sha256 f.commitSha items vectorSynced =
            .ok db') ↔
    ∀ f ∈ files, f.limits.SharesNoPiece parser f.path f.content ∧ '\\' ∉ f.path.toList := by
  constructor
  · rintro ⟨hids, hstores⟩ f hf
    refine ⟨(SourceFile.ids_nodup_iff hf huuid).mp (hids f hf).1, fun hslash => ?_⟩
    obtain ⟨items, hitems⟩ := f.exists_items h parser importsJson
    let db : IndexDb := ⟨.empty _, .empty _, .empty _, .empty _⟩
    have hinit : (storing h parser importsJson files).Reachable db := .init rfl
    obtain ⟨db', hfirst⟩ := hstores db hinit f hf items hitems true
    have hreach : (storing h parser importsJson files).Reachable db' := by
      refine hinit.step (a := .replaceFileChunks f.repositoryId f.path f.sha256 f.commitSha items
        true) ⟨⟨f, hf, rfl, rfl, rfl, rfl, hitems⟩, ?_⟩
      rw [Write.onPlain, hfirst]
      rfl
    exact not_stored_again hitems hslash hfirst (hstores db' hreach f hf items hitems true)
  · intro hfiles
    refine ⟨fun f hf => ⟨(SourceFile.ids_nodup_iff hf huuid).mpr (hfiles f hf).1,
      fun f' hf' hkey => SourceFile.ids_disjoint hf hf' hkey huuid⟩, ?_⟩
    intro db hreach f hf items hitems vectorSynced
    have hdb := owned_of_reachable (fun f hf => (hfiles f hf).2) hreach
    exact hdb.stores huuid hf (hfiles f hf).1 hitems vectorSynced

/-! ### One class on one line, and two functions on two -/

/-- The tree of `class A { m() {} }`: a method within a class. -/
def oneLineTree : ParseTree where
  root :=
    .mk "program" 0 1 0 20 none none
      [.mk "class_declaration" 0 0 0 19 (some (.mk "identifier" 0 0 6 7 none none [])) none
        [.mk "class_body" 0 0 8 19 none none
          [.mk "method_definition" 0 0 10 17
            (some (.mk "property_identifier" 0 0 10 11 none none [])) none []]]]
  hasError := false

/-- The tree of two functions, each on its line. -/
def twoLineTree : ParseTree where
  root :=
    .mk "program" 0 2 0 32 none none
      [.mk "function_declaration" 0 0 0 15 (some (.mk "identifier" 0 0 9 10 none none [])) none [],
        .mk "function_declaration" 1 1 16 31 (some (.mk "identifier" 1 1 25 26 none none []))
          none []]
  hasError := false

def sampleParser : Parser where
  parse _ content :=
    some (if content = "class A { m() {} }\n" then oneLineTree else twoLineTree)

def sourceId : Uuid := ⟨"4ec38a97-8ddd-5515-a93b-30efd4b834f4", rfl⟩

def oneLineHash : HexDigest :=
  ⟨"0838012c4f7f0d2c7df5f9e4bab7ea3c87ba94c54432e47b45ad707f3629c3aa", by decide⟩

def firstLineHash : HexDigest :=
  ⟨"224a68b61da133a9f6fe8ad9f2bfd51e1b6046a0bbc284962d49ec23c5f0d7c3", by decide⟩

def secondLineHash : HexDigest :=
  ⟨"09f0df9b1cfa612dfdfec7d81a8f15cf28d639f65232f137498a9c136592a761", by decide⟩

/-- The SHA-256 of the texts of the chunks, and the UUIDs of their names. -/
def declarationHashing : Hashing where
  sha256 bytes :=
    if bytes.data = "class A { m() {} }".toUTF8.data then oneLineHash
    else if bytes.data = "function f() {}".toUTF8.data then firstLineHash
    else secondLineHash
  uuid5 name :=
    if name = sourceId.text ++ ":a.js:1:1:" ++ oneLineHash.text then
      ⟨"58a2a545-a62e-54b2-a480-96d71c87fece", by decide⟩
    else if name = sourceId.text ++ ":a.js:1:1:" ++ firstLineHash.text then
      ⟨"0010026a-98e5-5a10-8d03-6bfcc73a5777", by decide⟩
    else ⟨"21daabaa-6e0c-5370-9680-c8f0fc897e18", by decide⟩

def oneLineFile : SourceFile where
  repositoryId := sourceId
  path := "a.js"
  commitSha := "c1"
  content := "class A { m() {} }\n"
  sha256 := oneLineHash
  limits := .default
  embeddingModel := "deterministic-hash"
  embeddingVersion := "1"

def twoLineFile : SourceFile :=
  { oneLineFile with
    content := "function f() {}\nfunction g() {}\n"
    sha256 := firstLineHash }

theorem oneLineFile_spans : oneLineFile.spans sampleParser =
    [⟨1, 1, some "A", some "class", "tree-sitter"⟩,
      ⟨1, 1, some "m", some "method", "tree-sitter"⟩] := by
  decide +kernel

theorem twoLineFile_spans : twoLineFile.spans sampleParser =
    [⟨1, 1, some "f", some "function", "tree-sitter"⟩,
      ⟨2, 2, some "g", some "function", "tree-sitter"⟩] := by
  decide +kernel

/-- A class on one line and its method are one chunk twice, and cannot be stored. -/
theorem chunk_ids_clash_oneLineFile :
    ¬ ((oneLineFile.chunks declarationHashing sampleParser fun _ => "[]").map (·.id)).Nodup ∧
    ∀ db : IndexDb, ∀ items, oneLineFile.Items declarationHashing sampleParser (fun _ => "[]")
      items → db.replaceFileChunks sourceId "a.js" oneLineHash "c1" items true =
        .error "UNIQUE constraint failed: chunks.id" := by
  have hclash : ¬ ((oneLineFile.chunks declarationHashing sampleParser fun _ => "[]").map
      (·.id)).Nodup := by
    intro hnodup
    rw [SourceFile.chunk_ids, oneLineFile_spans] at hnodup
    refine (List.pairwise_cons.mp hnodup).1 _ List.mem_cons_self ?_
    exact congrArg declarationHashing.uuid5 (oneLineFile.chunkName_congr rfl)
  refine ⟨hclash, fun db items hitems => ?_⟩
  cases hinsert : IndexDb.insertChunks (db.chunks.delete (·.key = ⟨sourceId, "a.js"⟩)) items with
  | none => rw [IndexDb.replaceFileChunks, hinsert]
  | some t =>
      have hids := insertChunks_iff.mp ⟨t, hinsert⟩
      rw [List.map_append] at hids
      refine absurd ?_ hclash
      rw [← SourceFile.map_id_items hitems]
      exact (List.nodup_append'.mp hids).2.1

/-- Two functions on two lines have two ids, and can be stored again and again. -/
theorem chunk_ids_distinct_twoLineFile :
    ((twoLineFile.chunks declarationHashing sampleParser fun _ => "[]").map (·.id)).Nodup ∧
      ∀ db, (storing declarationHashing sampleParser (fun _ => "[]") {twoLineFile}).Reachable db →
        ∀ items, twoLineFile.Items declarationHashing sampleParser (fun _ => "[]") items →
          ∃ db', db.replaceFileChunks sourceId "a.js" firstLineHash "c1" items true = .ok db' := by
  have hname : ∀ name ∈ chunkNames declarationHashing sampleParser {twoLineFile},
      name = twoLineFile.chunkName declarationHashing ⟨1, 1, none, none, ""⟩ ∨
        name = twoLineFile.chunkName declarationHashing ⟨2, 2, none, none, ""⟩ := by
    rintro name ⟨f, rfl, span, hspan, rfl⟩
    rw [twoLineFile_spans] at hspan
    rcases List.mem_pair.mp hspan with rfl | rfl
    · exact Or.inl (twoLineFile.chunkName_congr rfl)
    · exact Or.inr (twoLineFile.chunkName_congr rfl)
  have hids : declarationHashing.uuid5
        (twoLineFile.chunkName declarationHashing ⟨1, 1, none, none, ""⟩) ≠
      declarationHashing.uuid5
        (twoLineFile.chunkName declarationHashing ⟨2, 2, none, none, ""⟩) := by
    decide +kernel
  have hinj : Set.InjOn declarationHashing.uuid5
      (chunkNames declarationHashing sampleParser {twoLineFile}) := by
    intro name hmem name' hmem' heq
    rcases hname name hmem with rfl | rfl
    · rcases hname name' hmem' with rfl | rfl
      · rfl
      · exact absurd heq hids
    · rcases hname name' hmem' with rfl | rfl
      · exact absurd heq.symm hids
      · rfl
  have hboth := (chunk_ids_distinct_iff declarationHashing sampleParser (fun _ => "[]")
    {twoLineFile} hinj).mpr ?_
  · exact ⟨(hboth.1 twoLineFile rfl).1, fun db hreach items hitems =>
      hboth.2 db hreach twoLineFile rfl items hitems true⟩
  rintro f rfl
  refine ⟨?_, by decide⟩
  intro symbols tree hsymbols hparse _
  obtain rfl := Option.some.inj hsymbols
  have htree : sampleParser.parse (languageFor twoLineFile.path) twoLineFile.content =
      some twoLineTree := by
    have hne : twoLineFile.content ≠ "class A { m() {} }\n" := by decide
    exact congrArg some (if_neg hne)
  obtain rfl := Option.some.inj (hparse.symm.trans htree)
  refine List.pairwise_map.mp ?_
  show [(1, 1), (2, 2)].Pairwise ChunkLimits.default.Apart
  simp [ChunkLimits.Apart, ChunkLimits.Piece, ChunkLimits.default]

end RepoMesh
