import RepoMesh.FirstOccurrence
import Mathlib.Data.Set.Function
import RepoMesh.IndexSteps
import RepoMesh.Transition

/-!
# Histories of passes

A pass is a call of `index` with its collaborators, its tree and the fates of its
calls; a history is a list of passes, each starting in the world the one before it
left. A pass that is cut off leaves the world of that very call, so the worlds
histories end in are all the points of all histories.

The versions a pass may store for a file, and the names that its chunk ids are made
of, are read off its tree.
-/

namespace RepoMesh

structure Pass where
  indexer : Indexer
  repositoryId : Uuid
  mode : Mode
  tree : Tree
  fates : List Fate

/-- What a pass returns or raises, and the world it leaves. -/
def Pass.run (h : Hashing) (pass : Pass) (w : World) : Except Exc IndexStats × World :=
  (index h pass.indexer pass.repositoryId pass.mode pass.tree w pass.fates).1

/-- Nothing has been indexed yet. -/
def World.Fresh (w : World) : Prop :=
  w.db.files = Table.empty _ ∧ w.db.chunks = Table.empty _ ∧ w.db.pending = Table.empty _ ∧
    w.points = Table.empty _ ∧ w.log = []

/-- Worlds and passes as a transition system. -/
def indexing (h : Hashing) : System World Pass where
  init := World.Fresh
  step w pass w' := (pass.run h w).2 = w'

/-- The file is among those the pass found. -/
def Pass.Finds (pass : Pass) (path : RelPath) : Prop :=
  ∃ files, pass.tree.found = .ok files ∧ path ∈ files

/-- No other file that the pass found has the path once backslashes are turned. -/
def Pass.NoTwin (pass : Pass) (path : String) : Prop :=
  ∀ q, pass.Finds q → slashed q.asPosix = path → q.asPosix = path

/-- No file that the pass found has a backslash in its path. -/
def Pass.Plain (pass : Pass) : Prop :=
  ∀ q, pass.Finds q → '\\' ∉ q.asPosix.toList

/-- No file changes between its hash and its reading. -/
def Pass.Steady (pass : Pass) : Prop :=
  ∀ q, pass.Finds q → pass.tree.hashed q = pass.tree.read q

/-- The names that the chunk ids of a file of the pass are made of. -/
def Pass.identitiesOf (h : Hashing) (pass : Pass) (path : RelPath) : Set String :=
  {name | ∃ bytes span, pass.tree.read path = some bytes ∧
    span ∈ pass.indexer.chunker.spans path.asPosix (pass.indexer.readText bytes) ∧
    name = identity pass.repositoryId path.asPosix span
      (h.sha256 (selected (pass.indexer.readText bytes) span).toUTF8)}

/-- All names that chunk ids of a history are made of. -/
def identities (h : Hashing) (history : List Pass) : Set String :=
  {name | ∃ pass ∈ history, ∃ path, pass.Finds path ∧ name ∈ pass.identitiesOf h path}

/-- The ids that belong to a file. -/
def ownIds (h : Hashing) (history : List Pass) (k : FileKey) : Set Uuid :=
  {id | ∃ name ∈ identities h history,
    (∃ span d, name = identity k.repositoryId k.path span d) ∧ h.uuid5 name = id}

/-- A version that some pass of the history may store, under any commit. -/
def Stores (h : Hashing) (history : List Pass) (k : FileKey) (v : Version k) : Prop :=
  ∃ pass ∈ history, pass.repositoryId = k.repositoryId ∧ ∃ path, pass.Finds path ∧
    path.asPosix = k.path ∧ ∃ bytes content vectors, pass.tree.hashed path = some bytes ∧
      pass.tree.read path = some content ∧ v.sha256 = h.sha256 bytes ∧
      pass.indexer.fileItems h k v.commitSha (pass.indexer.readText content) =
        .ok (v.chunks, vectors) ∧
      v.points = List.zipWith CodeChunk.toPoint v.chunks vectors

theorem mem_relativeMap {files : List RelPath} {path : RelPath} :
    path ∈ relativeMap files ↔ path ∈ files := by
  simp [relativeMap]

theorem nodup_relativeMap (files : List RelPath) : (relativeMap files).Nodup :=
  nodup_eraseDups files

/-! ## The items of a file -/

section

variable {h : Hashing} {ix : Indexer} {key : FileKey} {commitSha content : String}
  {chunks : List CodeChunk} {vectors : List String}

/-- A chunk with its vector stored. -/
def CodeChunk.withVector (c : CodeChunk) (vector : String) : CodeChunk :=
  { c with vectorJson := some vector }

@[simp] theorem CodeChunk.withVector_id (c : CodeChunk) (vector : String) :
    (c.withVector vector).id = c.id := rfl

@[simp] theorem CodeChunk.withVector_key (c : CodeChunk) (vector : String) :
    (c.withVector vector).key = c.key := rfl

theorem zipItems_ok {raw : List CodeChunk} (hzip : zipItems raw vectors = .ok chunks) :
    raw.length = vectors.length ∧ chunks = List.zipWith CodeChunk.withVector raw vectors := by
  rw [zipItems] at hzip
  split at hzip
  · cases hzip
  · split at hzip
    · cases hzip
    · exact ⟨by omega, (Except.ok.inj hzip).symm⟩

theorem zipItems_of_length {raw : List CodeChunk} (hlen : raw.length = vectors.length) :
    zipItems raw vectors = .ok (List.zipWith CodeChunk.withVector raw vectors) := by
  rw [zipItems, if_neg (by omega), if_neg (by omega)]
  rfl

theorem map_id_zipItems {raw : List CodeChunk} (hzip : zipItems raw vectors = .ok chunks) :
    chunks.map (·.id) = raw.map (·.id) := by
  obtain ⟨hlen, rfl⟩ := zipItems_ok hzip
  have hfst : (List.zipWith CodeChunk.withVector raw vectors).map (·.id) =
      ((raw.zip vectors).map Prod.fst).map (·.id) := by
    rw [← List.map_uncurry_zip_eq_zipWith, List.map_map, List.map_map]
    rfl
  rw [hfst, List.map_fst_zip (by omega)]

/-- An item is a chunk with a vector stored in it. -/
theorem mem_zipItems {raw : List CodeChunk} (hzip : zipItems raw vectors = .ok chunks)
    {c : CodeChunk} (hc : c ∈ chunks) : ∃ c₀ ∈ raw, ∃ vector, c = c₀.withVector vector := by
  obtain ⟨-, rfl⟩ := zipItems_ok hzip
  rw [← List.map_uncurry_zip_eq_zipWith] at hc
  obtain ⟨⟨c₀, vector⟩, hpair, rfl⟩ := List.mem_map.mp hc
  exact ⟨c₀, (List.of_mem_zip hpair).1, vector, rfl⟩

theorem fileItems_eq_ok : ix.fileItems h key commitSha content = .ok (chunks, vectors) ↔
    zipItems (ix.cut h key commitSha content) vectors = .ok chunks ∧
      vectors = ix.vectors (ix.cut h key commitSha content) := by
  simp only [Indexer.fileItems]
  generalize ix.vectors (ix.cut h key commitSha content) = found
  cases hzip : zipItems (ix.cut h key commitSha content) found with
  | error text =>
      simp only [Except.map, reduceCtorEq, false_iff]
      rintro ⟨hzip', rfl⟩
      rw [hzip] at hzip'
      cases hzip'
  | ok items =>
      simp only [Except.map, Except.ok.injEq, Prod.mk.injEq]
      constructor
      · rintro ⟨rfl, rfl⟩
        exact ⟨hzip, rfl⟩
      · rintro ⟨hzip', rfl⟩
        exact ⟨Except.ok.inj (hzip.symm.trans hzip'), rfl⟩

/-- Every stored chunk is cut from a span of the file. -/
theorem mem_fileItems (hitems : ix.fileItems h key commitSha content = .ok (chunks, vectors))
    {c : CodeChunk} (hc : c ∈ chunks) :
    ∃ span ∈ ix.chunker.spans key.path content, ∃ vector,
      c = (makeChunk h ix.chunker key.repositoryId commitSha key.path content
        ix.embedder.model ix.embedder.version span).withVector vector := by
  obtain ⟨hzip, -⟩ := fileItems_eq_ok.mp hitems
  obtain ⟨raw, hraw, vector, rfl⟩ := mem_zipItems hzip hc
  obtain ⟨span, hspan, rfl⟩ := List.mem_map.mp hraw
  exact ⟨span, hspan, vector, rfl⟩

/-- Stored chunks are filed under the normalised path. -/
theorem key_of_mem_fileItems
    (hitems : ix.fileItems h key commitSha content = .ok (chunks, vectors)) {c : CodeChunk}
    (hc : c ∈ chunks) : c.key = ⟨key.repositoryId, slashed key.path⟩ := by
  obtain ⟨span, -, vector, rfl⟩ := mem_fileItems hitems hc
  rfl

/-- Without a twin of `k`, the chunks of another file are filed elsewhere. -/
theorem key_ne_of_mem_fileItems {pass : Pass} {path : RelPath} {k : FileKey}
    (hno : pass.repositoryId = k.repositoryId → pass.NoTwin k.path) (hpath : pass.Finds path)
    (hkey : (⟨pass.repositoryId, path.asPosix⟩ : FileKey) ≠ k)
    (hitems : ix.fileItems h ⟨pass.repositoryId, path.asPosix⟩ commitSha content =
      .ok (chunks, vectors)) : ∀ c ∈ chunks, c.key ≠ k := by
  intro c hc heq
  rw [key_of_mem_fileItems hitems hc] at heq
  have hrepo : pass.repositoryId = k.repositoryId := congrArg FileKey.repositoryId heq
  have hposix := hno hrepo path hpath (congrArg FileKey.path heq)
  exact hkey (FileKey.ext hrepo hposix)

theorem length_fileItems
    (hitems : ix.fileItems h key commitSha content = .ok (chunks, vectors)) :
    chunks.length = vectors.length := by
  obtain ⟨hzip, -⟩ := fileItems_eq_ok.mp hitems
  obtain ⟨hlen, rfl⟩ := zipItems_ok hzip
  simp [hlen]

/-- The commit is copied into the chunks and has no other influence. -/
theorem fileItems_atCommit (commitSha' : String)
    (hitems : ix.fileItems h key commitSha content = .ok (chunks, vectors)) :
    ix.fileItems h key commitSha' content =
      .ok (chunks.map (CodeChunk.atCommit commitSha'), vectors) := by
  obtain ⟨hzip, hvectors⟩ := fileItems_eq_ok.mp hitems
  obtain ⟨hlen, rfl⟩ := zipItems_ok hzip
  have hcut : ix.cut h key commitSha' content =
      (ix.cut h key commitSha content).map (CodeChunk.atCommit commitSha') := by
    simp only [Indexer.cut, CodeChunker.chunk, List.map_map]
    rfl
  have htexts : (ix.cut h key commitSha' content).map embeddedText =
      (ix.cut h key commitSha content).map embeddedText := by
    rw [hcut, List.map_map]
    rfl
  have hfound : ix.vectors (ix.cut h key commitSha' content) =
      ix.vectors (ix.cut h key commitSha content) := by
    rw [Indexer.vectors, Indexer.vectors, htexts]
  refine fileItems_eq_ok.mpr ⟨?_, hvectors.trans hfound.symm⟩
  rw [hcut, zipItems_of_length (by rw [List.length_map]; exact hlen), List.zipWith_map_left,
    List.map_zipWith]
  rfl

theorem zipWith_toPoint_atCommit (commitSha' : String) (chunks : List CodeChunk)
    (vectors : List String) :
    List.zipWith CodeChunk.toPoint (chunks.map (CodeChunk.atCommit commitSha')) vectors =
      List.zipWith CodeChunk.toPoint chunks vectors := by
  rw [List.zipWith_map_left]
  rfl

theorem map_id_zipWith_toPoint {chunks : List CodeChunk} {vectors : List String}
    (hlen : chunks.length = vectors.length) :
    (List.zipWith CodeChunk.toPoint chunks vectors).map (·.id) = chunks.map (·.id) := by
  have hzip : List.map (·.id) (List.zipWith CodeChunk.toPoint chunks vectors) =
      ((chunks.zip vectors).map Prod.fst).map (·.id) := by
    rw [← List.map_uncurry_zip_eq_zipWith, List.map_map, List.map_map]
    rfl
  rw [hzip, List.map_fst_zip (by omega)]

/-- The items of a file without backslashes in its path make a version. -/
theorem exists_version (hpath : '\\' ∉ key.path.toList) (digest : HexDigest)
    (hitems : ix.fileItems h key commitSha content = .ok (chunks, vectors)) :
    ∃ v : Version key, v.sha256 = digest ∧ v.commitSha = commitSha ∧ v.chunks = chunks ∧
      v.points = List.zipWith CodeChunk.toPoint chunks vectors := by
  have hkey : ∀ c ∈ chunks, c.key = key := by
    intro c hc
    rw [key_of_mem_fileItems hitems hc, slashed_eq_self hpath]
  refine ⟨⟨digest, commitSha, chunks, List.zipWith CodeChunk.toPoint chunks vectors, hkey,
    ?_, map_id_zipWith_toPoint (length_fileItems hitems)⟩, rfl, rfl, rfl, rfl⟩
  intro p hp
  rw [← List.map_uncurry_zip_eq_zipWith] at hp
  obtain ⟨⟨c, vector⟩, hpair, rfl⟩ := List.mem_map.mp hp
  exact hkey c (List.of_mem_zip hpair).1

end

/-! ## Ids -/

variable {h : Hashing} {history : List Pass} {k : FileKey}

/-- The id of a stored chunk comes from a name of the history, and that name is of the
chunk's file. -/
theorem id_of_mem_fileItems {pass : Pass} {path : RelPath} {bytes : ByteArray}
    {commitSha : String} {chunks : List CodeChunk} {vectors : List String}
    (hpass : pass ∈ history) (hpath : pass.Finds path)
    (hrepo : pass.repositoryId = k.repositoryId) (hkey : path.asPosix = k.path)
    (hread : pass.tree.read path = some bytes)
    (hitems : pass.indexer.fileItems h k commitSha (pass.indexer.readText bytes) =
      .ok (chunks, vectors)) {c : CodeChunk} (hc : c ∈ chunks) : c.id ∈ ownIds h history k := by
  obtain ⟨span, hspan, vector, rfl⟩ := mem_fileItems hitems hc
  refine ⟨_, ⟨pass, hpass, path, hpath, bytes, span, hread, hkey ▸ hspan, ?_⟩, ?_, rfl⟩
  · rw [hrepo, hkey]
  · exact ⟨span, _, rfl⟩

theorem storable_stores (h : Hashing) (history : List Pass) (k : FileKey) :
    Storable (ownIds h history k) (Stores h history k) where
  own := by
    rintro v ⟨pass, hpass, hrepo, path, hpath, hkey, bytes, content, vectors, -, hread, -,
      hitems, -⟩ p hp
    have hid : p.id ∈ v.chunks.map (·.id) := v.ids ▸ List.mem_map_of_mem hp
    obtain ⟨c, hc, hid⟩ := List.mem_map.mp hid
    exact hid ▸ id_of_mem_fileItems hpass hpath hrepo hkey hread hitems hc
  atCommit := by
    rintro v commitSha ⟨pass, hpass, hrepo, path, hpath, hkey, bytes, content, vectors, hhashed,
      hread, hsha, hitems, hpoints⟩
    refine ⟨pass, hpass, hrepo, path, hpath, hkey, bytes, content, vectors, hhashed, hread,
      hsha, fileItems_atCommit commitSha hitems, ?_⟩
    exact hpoints.trans (zipWith_toPoint_atCommit commitSha v.chunks vectors).symm

/-- Files with different keys own different ids. -/
theorem ownIds_disjoint (hinj : Set.InjOn h.uuid5 (identities h history)) {k' : FileKey}
    {id : Uuid} (hid : id ∈ ownIds h history k) (hid' : id ∈ ownIds h history k') : k = k' := by
  obtain ⟨name, hname, ⟨span, d, rfl⟩, rfl⟩ := hid
  obtain ⟨name', hname', ⟨span', d', rfl⟩, hid⟩ := hid'
  obtain ⟨hrepo, hpath⟩ := key_of_identity (hinj hname hname' hid.symm)
  cases k
  cases k'
  simp_all

end RepoMesh
