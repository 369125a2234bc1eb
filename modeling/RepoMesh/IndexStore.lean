import RepoMesh.Schema

/-!
# The SQLite index

The tables an indexing pass reads and writes, and the methods of `Database` on
them. Each method is one SQLite transaction, so it is a function of the whole
index; the only one a constraint can fail is `replace_file_chunks`, whose inserts
respect `chunks.id UNIQUE`.

`files.indexed_at` and `chunks.rowid` are not stored: no query of the pass or of the
watcher reads them.
-/

namespace RepoMesh

/-- A SHA-256 digest as `hexdigest()` writes it. -/
structure HexDigest where
  text : String
  hex : text.toList.all (· ∈ "0123456789abcdef".toList)
  deriving DecidableEq

/-- A UUID as `str` writes it. -/
@[ext] structure Uuid where
  text : String
  hex : text.toList.all (· ∈ "0123456789abcdef-".toList)
  deriving DecidableEq

/-- `hashlib.sha256(..).hexdigest()` and `uuid.uuid5(NAMESPACE_URL, ..)`. -/
structure Hashing where
  sha256 : ByteArray → HexDigest
  uuid5 : String → Uuid

/-- The key of `files` and of `pending_vector_deletions`. -/
@[ext] structure FileKey where
  repositoryId : Uuid
  path : String
  deriving DecidableEq

structure RepositoryRow where
  id : Uuid
  root : String
  commitSha : String
  status : String
  deriving DecidableEq

/-- The row after `update_repository`. -/
def RepositoryRow.updated (commitSha status : String) (r : RepositoryRow) : RepositoryRow :=
  { r with commitSha := commitSha, status := status }

theorem RepositoryRow.updated_id (c s : String) (r : RepositoryRow) :
    (r.updated c s).id = r.id := rfl

structure FileRow where
  repositoryId : Uuid
  path : String
  sha256 : HexDigest
  commitSha : String
  chunkCount : Nat
  vectorSynced : Bool
  deriving DecidableEq

def FileRow.key (r : FileRow) : FileKey := ⟨r.repositoryId, r.path⟩

/-- The row after `mark_vector_dirty`. -/
def FileRow.dirty (r : FileRow) : FileRow := { r with vectorSynced := false }

/-- The row after `update_file_commit`. -/
def FileRow.atCommit (commitSha : String) (r : FileRow) : FileRow :=
  { r with commitSha := commitSha }

@[simp] theorem FileRow.dirty_key (r : FileRow) : r.dirty.key = r.key := rfl

@[simp] theorem FileRow.atCommit_key (c : String) (r : FileRow) : (r.atCommit c).key = r.key :=
  rfl

/-- `CodeChunk`, which is also a row of `chunks` and an item given to the vector
store. -/
structure CodeChunk where
  id : Uuid
  repositoryId : Uuid
  commitSha : String
  filePath : String
  language : String
  symbolName : Option String
  symbolKind : Option String
  startLine : Nat
  endLine : Nat
  content : String
  contentSha256 : HexDigest
  importsJson : String
  embeddingModel : String
  embeddingVersion : String
  chunkingStrategy : String
  vectorJson : Option String
  deriving DecidableEq

def CodeChunk.key (c : CodeChunk) : FileKey := ⟨c.repositoryId, c.filePath⟩

/-- The row after `update_file_commit`. -/
def CodeChunk.atCommit (commitSha : String) (c : CodeChunk) : CodeChunk :=
  { c with commitSha := commitSha }

@[simp] theorem CodeChunk.atCommit_id (s : String) (c : CodeChunk) : (c.atCommit s).id = c.id :=
  rfl

@[simp] theorem CodeChunk.atCommit_key (s : String) (c : CodeChunk) :
    (c.atCommit s).key = c.key := rfl

structure IndexDb where
  repositories : Table RepositoryRow.id
  files : Table FileRow.key
  chunks : Table CodeChunk.id
  pending : Table (id : FileKey → FileKey)

namespace IndexDb

/-! ## Reading -/

/-- The rows `file_manifest` makes its dictionary of. -/
def fileManifest (db : IndexDb) (repositoryId : Uuid) : List FileRow :=
  db.files.rows.filter (·.repositoryId = repositoryId)

def pendingDeletions (db : IndexDb) (repositoryId : Uuid) : List String :=
  (db.pending.rows.filter (·.repositoryId = repositoryId)).map (·.path)

/-! ## Writing -/

/-- The inserts of `replace_file_chunks`; `none` when one meets its id. -/
def insertChunks (t : Table CodeChunk.id) : List CodeChunk → Option (Table CodeChunk.id)
  | [] => some t
  | c :: cs => (t.insert? c).bind fun t' => insertChunks t' cs

def replaceFileChunks (repositoryId : Uuid) (path : String) (sha256 : HexDigest)
    (commitSha : String) (chunks : List CodeChunk) (vectorSynced : Bool) (db : IndexDb) :
    Except String IndexDb :=
  match insertChunks (db.chunks.delete (·.key = ⟨repositoryId, path⟩)) chunks with
  | none => .error "UNIQUE constraint failed: chunks.id"
  | some inserted =>
      .ok
        { db with
          chunks := inserted
          files := db.files.upsert
            { repositoryId := repositoryId
              path := path
              sha256 := sha256
              commitSha := commitSha
              chunkCount := chunks.length
              vectorSynced := vectorSynced } }

def deleteFile (repositoryId : Uuid) (path : String) (db : IndexDb) : IndexDb :=
  { db with
    pending := db.pending.insertNew ⟨repositoryId, path⟩
    chunks := db.chunks.delete (·.key = ⟨repositoryId, path⟩)
    files := db.files.delete (·.key = ⟨repositoryId, path⟩) }

def markVectorDirty (repositoryId : Uuid) (path : String) (db : IndexDb) : IndexDb :=
  { db with
    files := db.files.update (·.key = ⟨repositoryId, path⟩)
      FileRow.dirty FileRow.dirty_key }

def finishVectorDeletion (repositoryId : Uuid) (path : String) (db : IndexDb) : IndexDb :=
  { db with pending := db.pending.delete (· = ⟨repositoryId, path⟩) }

def updateFileCommit (repositoryId : Uuid) (path commitSha : String) (db : IndexDb) :
    IndexDb :=
  { db with
    files := db.files.update (·.key = ⟨repositoryId, path⟩) (FileRow.atCommit commitSha)
      (FileRow.atCommit_key commitSha)
    chunks := db.chunks.update (·.key = ⟨repositoryId, path⟩) (CodeChunk.atCommit commitSha)
      (CodeChunk.atCommit_id commitSha) }

def updateRepository (repositoryId : Uuid) (commitSha status : String) (db : IndexDb) :
    IndexDb :=
  { db with
    repositories := db.repositories.update (·.id = repositoryId)
      (RepositoryRow.updated commitSha status) (RepositoryRow.updated_id commitSha status) }

end IndexDb

/-! ## Transactions -/

/-- The transactions of `Database` that an indexing pass makes. -/
inductive Write where
  | replaceFileChunks (repositoryId : Uuid) (path : String) (sha256 : HexDigest)
      (commitSha : String) (chunks : List CodeChunk) (vectorSynced : Bool)
  | deleteFile (repositoryId : Uuid) (path : String)
  | markVectorDirty (repositoryId : Uuid) (path : String)
  | finishVectorDeletion (repositoryId : Uuid) (path : String)
  | updateFileCommit (repositoryId : Uuid) (path commitSha : String)
  | updateRepository (repositoryId : Uuid) (commitSha status : String)

/-- The write on the index. -/
def Write.onPlain (plain : IndexDb) : Write → Except String IndexDb
  | replaceFileChunks repositoryId path sha256 commitSha chunks vectorSynced =>
      plain.replaceFileChunks repositoryId path sha256 commitSha chunks vectorSynced
  | deleteFile repositoryId path => .ok (plain.deleteFile repositoryId path)
  | markVectorDirty repositoryId path => .ok (plain.markVectorDirty repositoryId path)
  | finishVectorDeletion repositoryId path => .ok (plain.finishVectorDeletion repositoryId path)
  | updateFileCommit repositoryId path commitSha =>
      .ok (plain.updateFileCommit repositoryId path commitSha)
  | updateRepository repositoryId commitSha status =>
      .ok (plain.updateRepository repositoryId commitSha status)

/-- A transaction that raises is rolled back. -/
def committed {ε σ : Type} (s : σ) : Except ε σ → σ
  | .ok t => t
  | .error _ => s

end RepoMesh
