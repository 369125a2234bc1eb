import RepoMesh.Chunk
import RepoMesh.Discover
import RepoMesh.Fallible

/-!
# The indexing pass

`RepositoryIndexer.index`, statement by statement, over the SQLite index and the
vector store. Every call that leaves the process asks the environment for its fate:
it goes through, or it raises. A call that raises has no effect, except one to the
vector store, which may have applied any part of it. A crash is an exception that
no handler of the pass sees, so a pass can be cut off at every call.

The log, newest entry first, records what a pass did in order; nothing reads it.
-/

namespace RepoMesh

/-! ## State and environment -/

/-- An exception, as the handlers of `index` tell them apart. -/
inductive Exc where
  /-- the process dies -/
  | crash
  | leaseLost
  | indexCancelled
  | providerUnavailable (text : String)
  | other (text : String)
  deriving DecidableEq, Repr

/-- `str(exc)` of the exceptions that are reported for a file. -/
def Exc.text : Exc → String
  | .providerUnavailable text | .other text => text
  | .crash | .leaseLost | .indexCancelled => ""

/-- What becomes of a call; `done` are the points a raising vector call reached. -/
inductive Fate where
  | goes
  | raises (e : Exc) (done : List Uuid)
  deriving DecidableEq

/-- A point of the vector store: the vector, as JSON, and the payload. -/
structure Point where
  id : Uuid
  repositoryId : Uuid
  filePath : String
  vector : String
  deriving DecidableEq

def Point.key (p : Point) : FileKey := ⟨p.repositoryId, p.filePath⟩

/-- The calls that change the index or the vector store. -/
inductive Mutation where
  | deleteFile
  | finishVectorDeletion
  | markVectorDirty
  | replaceFileChunks
  | updateFileCommit
  | vectorDelete
  | vectorUpsert
  deriving DecidableEq, Repr

inductive LogEntry where
  | entered
  | checked
  | left
  | mutated (m : Mutation) (key : FileKey)
  /-- a vector call that raised -/
  | interrupted (m : Mutation) (key : FileKey)
  | deferred (message : String) (key : FileKey) (error : String)
  | updatedRepository (repositoryId : Uuid)
  | progressed (stats : IndexStats) (path error : Option String)
  deriving DecidableEq

structure World where
  db : IndexDb
  points : Table Point.id
  log : List LogEntry

abbrev IndexM := Prog Fate Exc World

def World.write (entry : LogEntry) (w : World) : World := { w with log := entry :: w.log }

/-! ## Calls -/

/-- A call whose result does not matter beyond its raising. -/
def attempt : IndexM Unit := do
  match ← Prog.ask .goes with
  | .goes => pure ()
  | .raises e _ => Prog.raise e

def note (entry : LogEntry) : IndexM Unit := Prog.modify (World.write entry)

/-- `cancelled()`, with `IndexCancelled` raised on its answer. -/
def checkpoint : IndexM Unit := attempt

/-- The ownership check that a guard hands out. -/
def check : IndexM Unit := do
  attempt
  note .checked

/-- `with guard() as check: body`; leaving may raise in the place of what the body
raised. -/
def withGuard (body : IndexM Unit) : IndexM Unit := do
  attempt
  note .entered
  body.catching fun e =>
    if e = .crash then Prog.raise e
    else do
      attempt
      note .left
      Prog.raise e
  attempt
  note .left

/-- A transaction on the SQLite index. -/
def sql (m : Mutation) (key : FileKey) (f : IndexDb → IndexDb) : IndexM Unit := do
  attempt
  Prog.modify fun w => { w with db := f w.db }.write (.mutated m key)

def replaceFileChunks (key : FileKey) (sha256 : HexDigest) (commitSha : String)
    (chunks : List CodeChunk) (vectorSynced : Bool) : IndexM Unit := do
  attempt
  let w ← Prog.get
  match w.db.replaceFileChunks key.repositoryId key.path sha256 commitSha chunks
      vectorSynced with
  | .error text => Prog.raise (.other text)
  | .ok db =>
      Prog.modify fun w => { w with db := db }.write (.mutated .replaceFileChunks key)

/-- A call to the vector store that takes the points to `f done`, or to
`f` of all points if it goes through. -/
def vectorCall (m : Mutation) (key : FileKey)
    (f : Option (List Uuid) → Table Point.id → Table Point.id) : IndexM Unit := do
  match ← Prog.ask .goes with
  | .goes =>
      Prog.modify fun w => { w with points := f none w.points }.write (.mutated m key)
  | .raises e done => do
      Prog.modify fun w =>
        { w with points := f (some done) w.points }.write (.interrupted m key)
      Prog.raise e

/-- The call reached the point: it went through, or the point is among those
done. -/
def reached (done : Option (List Uuid)) (id : Uuid) : Bool :=
  match done with
  | none => true
  | some ids => id ∈ ids

/-- `QdrantVectorStore.delete_file`. -/
def vectorDelete (key : FileKey) : IndexM Unit :=
  vectorCall .vectorDelete key fun done points =>
    points.delete fun p => p.key = key && reached done p.id

/-- `QdrantVectorStore.upsert`; `key` names the file in the log. -/
def vectorUpsert (key : FileKey) (items : List Point) : IndexM Unit :=
  vectorCall .vectorUpsert key fun done points =>
    (items.filter fun p => reached done p.id).foldl Table.upsert points

/-- `except ProviderUnavailable`: the message is logged and `value` returned. -/
def deferring {α : Type} (message : String) (key : FileKey) (value : α) (e : Exc) :
    IndexM α :=
  match e with
  | .providerUnavailable text => do
      note (.deferred message key text)
      pure value
  | e => Prog.raise e

def progress (stats : IndexStats) (path error : Option String) : IndexM Unit := do
  attempt
  note (.progressed stats path error)

/-- The outer handlers of both loops: lost authority goes on, an ordinary exception
is counted. -/
def countError (stats : IndexStats) (e : Exc) : IndexM (IndexStats × Option String) :=
  match e with
  | .crash | .leaseLost | .indexCancelled => Prog.raise e
  | e => pure ({ stats with errorCount := stats.errorCount + 1 }, some e.text)

/-! ## The collaborators and the tree -/

structure Embedder where
  model : String
  version : String
  /-- the vectors of some texts, as JSON -/
  embed : List String → List String

structure Indexer where
  chunker : CodeChunker
  embedder : Embedder
  /-- `read_text(encoding="utf-8", errors="replace")` of some bytes -/
  readText : ByteArray → String

/-- The working tree as one pass meets it. A file may change between the moment its
hash is taken and the moment it is read. -/
structure Tree where
  commitSha : String
  found : Except ScanError (List RelPath)
  hashed : RelPath → Option ByteArray
  read : RelPath → Option ByteArray

/-- A checkout that does not change during the pass. -/
def Checkout.tree (co : Checkout) (maxBytes : Nat) : Tree where
  commitSha := co.currentCommit
  found := co.discoverFiles maxBytes
  hashed := co.read
  read := co.read

/-- The bytes of a file, or `OSError`. -/
def readFile (bytes : Option ByteArray) : IndexM ByteArray := do
  attempt
  match bytes with
  | none => Prog.raise (.other "file cannot be read")
  | some bytes => pure bytes

/-- The text a chunk is embedded as. -/
def embeddedText (c : CodeChunk) : String :=
  c.filePath ++ "\n" ++ c.symbolName.getD "" ++ "\n" ++ c.content

/-- `zip(chunks, vectors, strict=True)`, with the vector stored in each chunk. -/
def zipItems (chunks : List CodeChunk) (vectors : List String) :
    Except String (List CodeChunk) :=
  if vectors.length < chunks.length then .error "zip() argument 2 is shorter than argument 1"
  else if chunks.length < vectors.length then
    .error "zip() argument 2 is longer than argument 1"
  else .ok (List.zipWith (fun c v => { c with vectorJson := some v }) chunks vectors)

/-- The point `upsert` makes of a chunk. -/
def CodeChunk.toPoint (c : CodeChunk) (vector : String) : Point where
  id := c.id
  repositoryId := c.repositoryId
  filePath := c.filePath
  vector := vector

/-- The keys and paths of `relative_map`: a dictionary keeps the first place of a
key. -/
def relativeMap (files : List RelPath) : List RelPath := files.eraseDups

/-- The paths whose vectors are to be deleted. -/
def deletedPaths (manifest : List FileRow) (pending : List String) (files : List RelPath) :
    List String :=
  sortBy id (((manifest.map (·.path)).filter (· ∉ files.map RelPath.asPosix) ++
    pending).eraseDups)

/-- The skip test of an incremental pass. -/
def unchanged (mode : Mode) (manifest : List FileRow) (deleted : List String)
    (path : String) (digest : HexDigest) : Bool :=
  mode = .incremental &&
    (manifest.find? (·.path = path)).any (fun r => r.sha256 = digest && r.vectorSynced) &&
    path ∉ deleted

/-! ## The two loops -/

/-- The inner `try` of the deletion loop. -/
def deleteVectors (key : FileKey) : IndexM Unit := do
  check
  vectorDelete key
  check
  sql .finishVectorDeletion key (·.finishVectorDeletion key.repositoryId key.path)

/-- The guarded part of the deletion loop. -/
def deleteGuarded (key : FileKey) : IndexM Unit := do
  check
  sql .deleteFile key (·.deleteFile key.repositoryId key.path)
  (deleteVectors key).catching (deferring "vector deletion deferred" key ())

def deleteOne (repositoryId : Uuid) (stats : IndexStats) (path : String) :
    IndexM IndexStats := do
  checkpoint
  let body : IndexM (IndexStats × Option String) := do
    withGuard (deleteGuarded ⟨repositoryId, path⟩)
    pure ({ stats with deletedFiles := stats.deletedFiles + 1 }, none)
  let (stats, error) ← body.catching (countError stats)
  progress stats (some path) error
  pure stats

/-- The inner `try` of indexing a file: the points are replaced. -/
def syncVectors (key : FileKey) (items : List Point) : IndexM Bool := do
  check
  vectorDelete key
  check
  vectorUpsert key items
  pure true

/-- The guarded part of indexing a file whose chunks and vectors are ready. -/
def indexGuarded (key : FileKey) (digest : HexDigest) (commitSha : String)
    (chunks : List CodeChunk) (vectors : List String) : IndexM Unit := do
  check
  sql .markVectorDirty key (·.markVectorDirty key.repositoryId key.path)
  let vectorSynced ← (syncVectors key (List.zipWith CodeChunk.toPoint chunks vectors)).catching
    (deferring "vector sync deferred" key false)
  check
  replaceFileChunks key digest commitSha chunks vectorSynced
  if vectorSynced then do
    check
    sql .finishVectorDeletion key (·.finishVectorDeletion key.repositoryId key.path)
  else pure ()

/-- `self.chunker.chunk` with the collaborators' values. -/
def Indexer.cut (h : Hashing) (ix : Indexer) (key : FileKey) (commitSha content : String) :
    List CodeChunk :=
  ix.chunker.chunk h key.repositoryId commitSha key.path content ix.embedder.model
    ix.embedder.version

/-- The vectors of some chunks; without chunks the embedder is not called. -/
def Indexer.vectors (ix : Indexer) (chunks : List CodeChunk) : List String :=
  let texts := chunks.map embeddedText
  if texts = [] then [] else ix.embedder.embed texts

/-- The chunks of a file with their vectors stored, and the vectors. -/
def Indexer.fileItems (h : Hashing) (ix : Indexer) (key : FileKey)
    (commitSha content : String) : Except String (List CodeChunk × List String) :=
  let chunks := ix.cut h key commitSha content
  let vectors := ix.vectors chunks
  (zipItems chunks vectors).map fun items => (items, vectors)

/-- The embedder is called if there is something to embed. -/
def embedCall (chunks : List CodeChunk) : IndexM Unit := if chunks = [] then pure () else attempt

/-- Chunking and embedding a file. -/
def embedFile (h : Hashing) (ix : Indexer) (key : FileKey) (commitSha content : String) :
    IndexM (List CodeChunk × List String) := do
  attempt
  embedCall (ix.cut h key commitSha content)
  match ix.fileItems h key commitSha content with
  | .error text => Prog.raise (.other text)
  | .ok items => pure items

/-- One file of the second loop, with its outcome for the statistics. -/
def indexFile (h : Hashing) (ix : Indexer) (repositoryId : Uuid) (mode : Mode) (tree : Tree)
    (manifest : List FileRow) (deleted : List String) (stats : IndexStats) (path : RelPath) :
    IndexM IndexStats := do
  let key : FileKey := ⟨repositoryId, path.asPosix⟩
  let bytes ← readFile (tree.hashed path)
  let digest := h.sha256 bytes
  if unchanged mode manifest deleted key.path digest then do
    withGuard do
      check
      sql .updateFileCommit key (·.updateFileCommit repositoryId key.path tree.commitSha)
    pure { stats with skippedFiles := stats.skippedFiles + 1 }
  else do
    let content ← readFile (tree.read path)
    let (chunks, vectors) ← embedFile h ix key tree.commitSha (ix.readText content)
    withGuard (indexGuarded key digest tree.commitSha chunks vectors)
    pure { stats with
      indexedFiles := stats.indexedFiles + 1
      indexedChunks := stats.indexedChunks + chunks.length }

def indexOne (h : Hashing) (ix : Indexer) (repositoryId : Uuid) (mode : Mode) (tree : Tree)
    (manifest : List FileRow) (deleted : List String) (stats : IndexStats) (path : RelPath) :
    IndexM IndexStats := do
  checkpoint
  let body : IndexM (IndexStats × Option String) := do
    let stats ← indexFile h ix repositoryId mode tree manifest deleted stats path
    pure (stats, none)
  let (stats, error) ← body.catching (countError stats)
  progress stats (some path.asPosix) error
  pure stats

/-- The last guarded step. -/
def markIndexed (repositoryId : Uuid) (commitSha : String) : IndexM Unit := do
  check
  attempt
  Prog.modify fun w =>
    { w with db := w.db.updateRepository repositoryId commitSha "indexed" }.write
      (.updatedRepository repositoryId)

/-- `RepositoryIndexer.index`. -/
def index (h : Hashing) (ix : Indexer) (repositoryId : Uuid) (mode : Mode) (tree : Tree) :
    IndexM IndexStats := do
  checkpoint
  let w ← Prog.get
  if (w.db.repositories.get? repositoryId).isNone then
    Prog.raise (.other "repository not found")
  else do
    attempt
    match tree.found with
    | .error e => Prog.raise (.other e.text)
    | .ok files => do
        let manifest := w.db.fileManifest repositoryId
        let deleted := deletedPaths manifest (w.db.pendingDeletions repositoryId) files
        let stats : IndexStats := { totalFiles := files.length + deleted.length }
        progress stats none none
        let stats ← deleted.foldlM (deleteOne repositoryId) stats
        let stats ← (relativeMap files).foldlM
          (indexOne h ix repositoryId mode tree manifest deleted) stats
        withGuard (markIndexed repositoryId tree.commitSha)
        pure stats

end RepoMesh
