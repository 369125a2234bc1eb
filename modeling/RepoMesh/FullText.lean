import RepoMesh.IndexKeeps
import RepoMesh.TriggeredIndex

/-!
# The full-text index

`chunks_fts` is an external-content FTS5 table: the text stays in `chunks`, and the
triggers `chunks_ai`, `chunks_ad` and `chunks_au` tell the index of every row that comes,
goes or changes. `Database` is the SQLite index with the rowids of `chunks` and with
`chunks_fts`; `Database.Plain` forgets both. A write does to the database what it does to
the plain index (`Write.run_plain`), and none of its triggers is ever wrong about what the
index holds (`index_follows_chunks`).
-/

namespace RepoMesh

/-- The columns of `chunks_fts`. -/
structure FtsDoc where
  content : String
  symbolName : Option String
  filePath : String
  deriving DecidableEq

def CodeChunk.doc (c : CodeChunk) : FtsDoc where
  content := c.content
  symbolName := c.symbolName
  filePath := c.filePath

inductive SqlError where
  /-- `UNIQUE constraint failed: chunks.id` -/
  | unique
  /-- a trigger told the index of an entry that it does not hold, or holds already -/
  | corrupt
  deriving DecidableEq

/-- The SQLite database. Repository rows stay, so no statement fails at a foreign key of
`files` or `chunks`. -/
structure Database where
  repositories : Table RepositoryRow.id
  files : Table FileRow.key
  pending : Table (id : FileKey → FileKey)
  chunks : Triggered CodeChunk FtsDoc

/-- A statement on `chunks`, with its triggers. -/
def Database.ran {α : Type} : Option α → Except SqlError α
  | none => .error .corrupt
  | some a => .ok a

namespace Database

def insertChunk (c : CodeChunk) (chunks : Triggered CodeChunk FtsDoc) :
    Except SqlError (Triggered CodeChunk FtsDoc) :=
  if chunks.rows.any (·.2.id = c.id) then .error .unique
  else ran (chunks.insertRow CodeChunk.doc c)

def insertChunks : List CodeChunk → Triggered CodeChunk FtsDoc →
    Except SqlError (Triggered CodeChunk FtsDoc)
  | [], chunks => .ok chunks
  | c :: cs, chunks => (insertChunk c chunks).bind (insertChunks cs)

def replaceFileChunks (repositoryId : Uuid) (path : String) (sha256 : HexDigest)
    (commitSha : String) (chunks : List CodeChunk) (vectorSynced : Bool) (db : Database) :
    Except SqlError Database :=
  ((ran (db.chunks.deleteRows CodeChunk.doc (·.key = ⟨repositoryId, path⟩))).bind
    (insertChunks chunks)).map fun inserted =>
      { db with
        chunks := inserted
        files := db.files.upsert
          { repositoryId := repositoryId
            path := path
            sha256 := sha256
            commitSha := commitSha
            chunkCount := chunks.length
            vectorSynced := vectorSynced } }

def deleteFile (repositoryId : Uuid) (path : String) (db : Database) :
    Except SqlError Database :=
  (ran (db.chunks.deleteRows CodeChunk.doc (·.key = ⟨repositoryId, path⟩))).map fun cleared =>
    { db with
      pending := db.pending.insertNew ⟨repositoryId, path⟩
      chunks := cleared
      files := db.files.delete (·.key = ⟨repositoryId, path⟩) }

def markVectorDirty (repositoryId : Uuid) (path : String) (db : Database) : Database :=
  { db with
    files := db.files.update (·.key = ⟨repositoryId, path⟩)
      FileRow.dirty FileRow.dirty_key }

def finishVectorDeletion (repositoryId : Uuid) (path : String) (db : Database) : Database :=
  { db with pending := db.pending.delete (· = ⟨repositoryId, path⟩) }

def updateFileCommit (repositoryId : Uuid) (path commitSha : String) (db : Database) :
    Except SqlError Database :=
  (ran (db.chunks.updateRows CodeChunk.doc (·.key = ⟨repositoryId, path⟩)
    (CodeChunk.atCommit commitSha))).map fun updated =>
      { db with
        files := db.files.update (·.key = ⟨repositoryId, path⟩) (FileRow.atCommit commitSha)
          (FileRow.atCommit_key commitSha)
        chunks := updated }

def updateRepository (repositoryId : Uuid) (commitSha status : String) (db : Database) :
    Database :=
  { db with
    repositories := db.repositories.update (·.id = repositoryId)
      (RepositoryRow.updated commitSha status) (RepositoryRow.updated_id commitSha status) }

end Database

/-! ## Writes -/

namespace Write

def run (db : Database) : Write → Except SqlError Database
  | replaceFileChunks repositoryId path sha256 commitSha chunks vectorSynced =>
      db.replaceFileChunks repositoryId path sha256 commitSha chunks vectorSynced
  | deleteFile repositoryId path => db.deleteFile repositoryId path
  | markVectorDirty repositoryId path => .ok (db.markVectorDirty repositoryId path)
  | finishVectorDeletion repositoryId path => .ok (db.finishVectorDeletion repositoryId path)
  | updateFileCommit repositoryId path commitSha =>
      db.updateFileCommit repositoryId path commitSha
  | updateRepository repositoryId commitSha status =>
      .ok (db.updateRepository repositoryId commitSha status)

end Write

/-- Databases and writes as a transition system. -/
def database : System Database Write where
  init db := db.chunks = Triggered.empty
  step db write db' := committed db (write.run db) = db'

/-! ## Forgetting rowids and index -/

/-- `plain` is the database without rowids, whose index is that of its chunks. -/
structure Database.Plain (db : Database) (plain : IndexDb) : Prop where
  repositories : db.repositories = plain.repositories
  files : db.files = plain.files
  pending : db.pending = plain.pending
  chunks : db.chunks.rows.map Prod.snd = plain.chunks.rows
  coherent : db.chunks.Coherent CodeChunk.doc

/-- What a commit leaves of a chunk. -/
def CodeChunk.Kin (c c' : CodeChunk) : Prop := ∃ commitSha, c' = c.atCommit commitSha

theorem CodeChunk.Kin.refl (c : CodeChunk) : c.Kin c := ⟨c.commitSha, rfl⟩

theorem CodeChunk.Kin.trans (a b c : CodeChunk) (h : a.Kin b) (h' : b.Kin c) : a.Kin c := by
  obtain ⟨s, rfl⟩ := h
  obtain ⟨s', rfl⟩ := h'
  exact ⟨s', rfl⟩

section

variable {s t : Triggered CodeChunk FtsDoc} {table table' : Table CodeChunk.id}

/-- The statements of one transaction on `chunks`. -/
structure Statements (s t : Triggered CodeChunk FtsDoc) (table : Table CodeChunk.id) : Prop where
  coherent : t.Coherent CodeChunk.doc
  rows : t.rows.map Prod.snd = table.rows
  inherits : s.Inherits CodeChunk.Kin t

theorem statements_delete (h : s.Coherent CodeChunk.doc) (hrows : s.rows.map Prod.snd = table.rows)
    (p : CodeChunk → Bool) :
    ∃ t, s.deleteRows CodeChunk.doc p = some t ∧ Statements s t (table.delete p) := by
  obtain ⟨t, ht, hcoherent, htrows, hseq⟩ := Triggered.deleteRows_spec h p
  refine ⟨t, ht, hcoherent, ?_, Triggered.inherits_of_filter CodeChunk.Kin.refl htrows hseq⟩
  show _ = table.rows.filter fun r => !p r
  rw [htrows, ← hrows, List.filter_map]
  rfl

theorem statements_update (h : s.Coherent CodeChunk.doc) (hrows : s.rows.map Prod.snd = table.rows)
    (p : CodeChunk → Bool) (commitSha : String) :
    ∃ t, s.updateRows CodeChunk.doc p (CodeChunk.atCommit commitSha) = some t ∧
      Statements s t (table.update p (CodeChunk.atCommit commitSha)
        (CodeChunk.atCommit_id commitSha)) := by
  obtain ⟨t, ht, hcoherent, htrows, hseq⟩ :=
    Triggered.updateRows_spec h p (CodeChunk.atCommit commitSha)
  refine ⟨t, ht, hcoherent, ?_, Triggered.inherits_of_map CodeChunk.Kin.refl
    (fun c => ⟨commitSha, rfl⟩) htrows hseq⟩
  show _ = table.rows.map fun r => if p r then r.atCommit commitSha else r
  rw [htrows, ← hrows, List.map_map, List.map_map]
  refine List.map_congr_left fun row _ => ?_
  simp only [Function.comp]
  split <;> rfl

theorem any_id_iff (hrows : s.rows.map Prod.snd = table.rows) (c : CodeChunk) :
    s.rows.any (·.2.id = c.id) = (table.get? c.id).isSome := by
  have hmem : ∀ r, r ∈ table.rows ↔ ∃ row ∈ s.rows, row.2 = r := by
    intro r
    rw [← hrows, List.mem_map]
  rw [Bool.eq_iff_iff, List.any_eq_true, ← Table.mem_keys, List.mem_map]
  constructor
  · rintro ⟨row, hrow, hid⟩
    exact ⟨row.2, (hmem _).mpr ⟨row, hrow, rfl⟩, of_decide_eq_true hid⟩
  · rintro ⟨r, hr, hid⟩
    obtain ⟨row, hrow, rfl⟩ := (hmem r).mp hr
    exact ⟨row, hrow, decide_eq_true hid⟩

/-- The inserts fail exactly where those of the plain table fail. -/
theorem statements_insert (chunks : List CodeChunk) (h : s.Coherent CodeChunk.doc)
    (hrows : s.rows.map Prod.snd = table.rows) :
    (IndexDb.insertChunks table chunks = none ∧
        Database.insertChunks chunks s = .error .unique) ∨
      ∃ t table', IndexDb.insertChunks table chunks = some table' ∧
        Database.insertChunks chunks s = .ok t ∧ Statements s t table' := by
  induction chunks generalizing s table with
  | nil =>
      exact Or.inr ⟨s, table, rfl, rfl, h, hrows, Triggered.inherits_refl CodeChunk.Kin.refl s⟩
  | cons c cs ih =>
      have hany := any_id_iff hrows c
      cases hget : table.get? c.id with
      | some r =>
          refine Or.inl ⟨?_, ?_⟩
          · rw [IndexDb.insertChunks, Table.insert?, hget]
            rfl
          · rw [Database.insertChunks, Database.insertChunk, hany, hget]
            rfl
      | none =>
          obtain ⟨u, hu, hucoherent, hurows, huseq⟩ := Triggered.insertRow_spec h c
          have htable : (table.insertNew c).rows = table.rows ++ [c] := Table.insertNew_rows hget
          have hurows' : u.rows.map Prod.snd = (table.insertNew c).rows := by
            rw [hurows, List.map_append, hrows, htable]
            rfl
          have hplain : IndexDb.insertChunks table (c :: cs) =
              IndexDb.insertChunks (table.insertNew c) cs := by
            rw [IndexDb.insertChunks, Table.insert?, hget]
            rfl
          have hindexed : Database.insertChunks (c :: cs) s = Database.insertChunks cs u := by
            rw [Database.insertChunks, Database.insertChunk, hany, hget, hu]
            rfl
          rw [hplain, hindexed]
          refine (ih hucoherent hurows').imp_right ?_
          rintro ⟨t, table', ht, ht', hstatements⟩
          refine ⟨t, table', ht, ht', hstatements.coherent, hstatements.rows, ?_⟩
          exact (Triggered.inherits_of_append CodeChunk.Kin.refl hurows huseq).trans
            CodeChunk.Kin.trans hstatements.inherits

end

namespace Write

variable {db db' : Database} {plain : IndexDb}

/-- A write on the database and the same write on the plain index fail together, and
otherwise leave a database and its plain index. -/
theorem run_plain (h : db.Plain plain) (write : Write) :
    (∃ text, write.onPlain plain = .error text ∧ write.run db = .error .unique) ∨
      ∃ db' plain', write.onPlain plain = .ok plain' ∧ write.run db = .ok db' ∧
        db'.Plain plain' ∧ db.chunks.Inherits CodeChunk.Kin db'.chunks := by
  have hsame : db.chunks.Inherits CodeChunk.Kin db.chunks :=
    Triggered.inherits_refl CodeChunk.Kin.refl _
  cases write with
  | replaceFileChunks repositoryId path sha256 commitSha chunks vectorSynced =>
      obtain ⟨u, hu, hcleared⟩ := statements_delete h.coherent h.chunks
        (·.key = ⟨repositoryId, path⟩)
      have hrun : Write.run db (.replaceFileChunks repositoryId path sha256 commitSha chunks
          vectorSynced) = (Database.insertChunks chunks u).map fun inserted =>
            { db with
              chunks := inserted
              files := db.files.upsert
                ⟨repositoryId, path, sha256, commitSha, chunks.length, vectorSynced⟩ } := by
        rw [Write.run, Database.replaceFileChunks, hu]
        rfl
      rcases statements_insert chunks hcleared.coherent hcleared.rows with
        ⟨hnone, herror⟩ | ⟨t, table', hsome, hok, hinserted⟩
      · refine Or.inl ⟨"UNIQUE constraint failed: chunks.id", ?_, ?_⟩
        · rw [onPlain, IndexDb.replaceFileChunks, hnone]
        · rw [hrun, herror]
          rfl
      · have hplain : onPlain plain (.replaceFileChunks repositoryId path sha256 commitSha chunks
            vectorSynced) = .ok
              { plain with
                chunks := table'
                files := plain.files.upsert
                  ⟨repositoryId, path, sha256, commitSha, chunks.length, vectorSynced⟩ } := by
          rw [onPlain, IndexDb.replaceFileChunks, hsome]
        rw [hok] at hrun
        exact Or.inr ⟨_, _, hplain, hrun,
          ⟨h.repositories, h.files ▸ rfl, h.pending, hinserted.rows, hinserted.coherent⟩,
          hcleared.inherits.trans CodeChunk.Kin.trans hinserted.inherits⟩
  | deleteFile repositoryId path =>
      obtain ⟨u, hu, hcleared⟩ := statements_delete h.coherent h.chunks
        (·.key = ⟨repositoryId, path⟩)
      have hrun : Write.run db (.deleteFile repositoryId path) =
          .ok { db with
            pending := db.pending.insertNew ⟨repositoryId, path⟩
            chunks := u
            files := db.files.delete (·.key = ⟨repositoryId, path⟩) } := by
        rw [Write.run, Database.deleteFile, hu]
        rfl
      exact Or.inr ⟨_, _, rfl, hrun,
        ⟨h.repositories, h.files ▸ rfl, h.pending ▸ rfl, hcleared.rows, hcleared.coherent⟩,
        hcleared.inherits⟩
  | markVectorDirty repositoryId path =>
      have hfiles : (db.markVectorDirty repositoryId path).files =
          (plain.markVectorDirty repositoryId path).files := by
        rw [Database.markVectorDirty, IndexDb.markVectorDirty, h.files]
      exact Or.inr ⟨_, _, rfl, rfl, ⟨h.repositories, hfiles, h.pending, h.chunks, h.coherent⟩, hsame⟩
  | finishVectorDeletion repositoryId path =>
      have hpending : (db.finishVectorDeletion repositoryId path).pending =
          (plain.finishVectorDeletion repositoryId path).pending := by
        rw [Database.finishVectorDeletion, IndexDb.finishVectorDeletion, h.pending]
      exact Or.inr ⟨_, _, rfl, rfl, ⟨h.repositories, h.files, hpending, h.chunks, h.coherent⟩, hsame⟩
  | updateFileCommit repositoryId path commitSha =>
      obtain ⟨u, hu, hupdated⟩ := statements_update h.coherent h.chunks
        (·.key = ⟨repositoryId, path⟩) commitSha
      have hrun : Write.run db (.updateFileCommit repositoryId path commitSha) =
          .ok { db with
            files := db.files.update (·.key = ⟨repositoryId, path⟩)
              (FileRow.atCommit commitSha) (FileRow.atCommit_key commitSha)
            chunks := u } := by
        rw [Write.run, Database.updateFileCommit, hu]
        rfl
      exact Or.inr ⟨_, _, rfl, hrun,
        ⟨h.repositories, h.files ▸ rfl, h.pending, hupdated.rows, hupdated.coherent⟩,
        hupdated.inherits⟩
  | updateRepository repositoryId commitSha status =>
      have hrepositories : (db.updateRepository repositoryId commitSha status).repositories =
          (plain.updateRepository repositoryId commitSha status).repositories := by
        rw [Database.updateRepository, IndexDb.updateRepository, h.repositories]
      exact Or.inr ⟨_, _, rfl, rfl, ⟨hrepositories, h.files, h.pending, h.chunks, h.coherent⟩, hsame⟩

/-- Whatever becomes of the write, the database that is left has a plain index. -/
theorem committed_plain (h : db.Plain plain) (write : Write) :
    (committed db (write.run db)).Plain (committed plain (write.onPlain plain)) ∧
      db.chunks.Inherits CodeChunk.Kin (committed db (write.run db)).chunks := by
  rcases run_plain h write with ⟨text, hplain, hrun⟩ | ⟨db', plain', hplain, hrun, h', hinherits⟩
  · rw [hplain, hrun]
    exact ⟨h, Triggered.inherits_refl CodeChunk.Kin.refl _⟩
  · rw [hplain, hrun]
    exact ⟨h', hinherits⟩

end Write

/-! ## Runs of writes -/

theorem exists_plain {db : Database} (h : database.Reachable db) : ∃ plain, db.Plain plain := by
  refine h.induct (I := fun db => ∃ plain, db.Plain plain) ?_ ?_
  · intro db hinit
    have hempty : db.chunks = Triggered.empty := hinit
    have hrows : db.chunks.rows = [] := by rw [hempty, Triggered.empty]
    refine ⟨⟨db.repositories, db.files, Table.empty _, db.pending⟩, rfl, rfl, rfl, ?_, ?_⟩
    · rw [hrows]
      rfl
    · rw [hempty]
      exact Triggered.coherent_empty _
  · rintro db write db' - ⟨plain, hplain⟩ rfl
    exact ⟨_, (Write.committed_plain hplain write).1⟩

theorem run_plain {db db' : Database} {writes : List Write} {plain : IndexDb}
    (hrun : database.Run db writes db') (h : db.Plain plain) :
    db'.Plain (writes.foldl (fun plain write => committed plain (write.onPlain plain)) plain) ∧
      db.chunks.Inherits CodeChunk.Kin db'.chunks := by
  induction hrun generalizing plain with
  | nil _ => exact ⟨h, Triggered.inherits_refl CodeChunk.Kin.refl _⟩
  | @cons db db₁ db' write writes hstep _ ih =>
      obtain rfl : committed db (write.run db) = db₁ := hstep
      obtain ⟨hplain, hinherits⟩ := Write.committed_plain h write
      obtain ⟨hplain', hinherits'⟩ := ih hplain
      exact ⟨hplain', hinherits.trans CodeChunk.Kin.trans hinherits'⟩

/-- Whatever writes are made in whatever order, failed ones included: no trigger is wrong
about what the full-text index holds; the index holds just the chunks, each under its rowid;
a rowid stays with its chunk for good; and the writes do what they do to the plain index. -/
theorem index_follows_chunks {db db' : Database} {writes : List Write}
    (h : database.Reachable db) (hrun : database.Run db writes db') :
    (∀ write : Write, write.run db' ≠ .error .corrupt) ∧
      db'.chunks.entries.Perm (db'.chunks.rows.map fun row => (row.1, row.2.doc)) ∧
      (∀ row ∈ db'.chunks.rows, row.1 ≤ db.chunks.seq →
        ∃ old ∈ db.chunks.rows, old.1 = row.1 ∧ ∃ commitSha, row.2 = old.2.atCommit commitSha) ∧
      ∃ plain, db.Plain plain ∧ db'.Plain
        (writes.foldl (fun plain write => committed plain (write.onPlain plain)) plain) := by
  obtain ⟨plain, hplain⟩ := exists_plain h
  obtain ⟨hplain', hinherits⟩ := run_plain hrun hplain
  refine ⟨fun write heq => ?_, hplain'.coherent.image, hinherits.origin, plain, hplain, hplain'⟩
  rcases Write.run_plain hplain' write with ⟨_, -, hunique⟩ | ⟨_, _, -, hok, -⟩
  · rw [heq] at hunique
    cases hunique
  · rw [heq] at hok
    cases hok

/-- The database after a list of writes. -/
def Database.after (db : Database) (writes : List Write) : Database :=
  writes.foldl (fun db write => committed db (write.run db)) db

theorem run_after (writes : List Write) (db : Database) :
    database.Run db writes (db.after writes) := by
  induction writes generalizing db with
  | nil => exact .nil db
  | cons write writes ih => exact .cons rfl (ih _)

def Database.fresh : Database := ⟨Table.empty _, Table.empty _, Table.empty _, Triggered.empty⟩

/-- A chunk of one line. -/
def oneLine (id : Uuid) (filePath content : String) : CodeChunk where
  id := id
  repositoryId := ⟨"d0", rfl⟩
  commitSha := "c1"
  filePath := filePath
  language := "python"
  symbolName := none
  symbolKind := none
  startLine := 1
  endLine := 1
  content := content
  contentSha256 := ⟨"d1", rfl⟩
  importsJson := "[]"
  embeddingModel := "hash"
  embeddingVersion := "1"
  chunkingStrategy := "tree-sitter"
  vectorJson := none

/-- A file is indexed, its commit moves on, it is indexed again, and another file meets the
id of its chunk. -/
theorem index_follows_chunks_moved :
    let db := Database.fresh.after [
      .replaceFileChunks ⟨"d0", rfl⟩ "a.py" ⟨"1", rfl⟩ "c1"
        [oneLine ⟨"b1", rfl⟩ "a.py" "x = 1", oneLine ⟨"b2", rfl⟩ "a.py" "y = 2"] true,
      .updateFileCommit ⟨"d0", rfl⟩ "a.py" "c2"]
    let db' := db.after [
      .replaceFileChunks ⟨"d0", rfl⟩ "a.py" ⟨"2", rfl⟩ "c3"
        [oneLine ⟨"b1", rfl⟩ "a.py" "x = 3"] true,
      .replaceFileChunks ⟨"d0", rfl⟩ "b.py" ⟨"3", rfl⟩ "c3"
        [oneLine ⟨"b1", rfl⟩ "b.py" "x = 3"] true]
    db.chunks.entries.map Prod.fst = [1, 2] ∧ db'.chunks.entries.map Prod.fst = [3] ∧
      db'.chunks.entries.Perm (db'.chunks.rows.map fun row => (row.1, row.2.doc)) ∧
      ∀ row ∈ db'.chunks.rows, row.1 ≤ db.chunks.seq →
        ∃ old ∈ db.chunks.rows, old.1 = row.1 ∧ ∃ commitSha, row.2 = old.2.atCommit commitSha := by
  intro db db'
  have hreach : database.Reachable db := ⟨Database.fresh, _, rfl, run_after _ _⟩
  have hrun : database.Run db _ db' := run_after _ _
  obtain ⟨-, himage, horigin, -⟩ := index_follows_chunks hreach hrun
  refine ⟨?_, ?_, himage, horigin⟩
  · decide +kernel
  · decide +kernel

/-! ## Passes -/

/-- A database that the writes so far may have left, and whose plain index is the world's. -/
def World.Stored (db : Database) (w : World) : Prop :=
  ∃ db' writes, database.Run db writes db' ∧ db'.Plain w.db

theorem World.Stored.write {db : Database} {w : World} (hw : w.Stored db) (write : Write)
    {plain : IndexDb} (hplain : write.onPlain w.db = .ok plain) (w' : World) (hw' : w'.db = plain) :
    w'.Stored db := by
  obtain ⟨db', writes, hrun, h⟩ := hw
  have hstep := (Write.committed_plain h write).1
  rw [hplain] at hstep
  exact ⟨_, writes ++ [write], hrun.append (.single rfl), hw' ▸ hstep⟩

theorem stored_keeps (h : Hashing) (ix : Indexer) (repositoryId : Uuid) (tree : Tree)
    (db : Database) :
    StorageKeeps h ix repositoryId tree (fun _ => True)
      (fun path => ∃ files, tree.found = .ok files ∧ path ∈ files) (World.Stored db) where
  aside := fun _ _ _ _ hw => hw
  delete := fun _ path _ hw => hw.write (.deleteFile repositoryId path) rfl _ rfl
  finish := fun _ key hw => hw.write (.finishVectorDeletion key.repositoryId key.path) rfl _ rfl
  dirty := fun _ path _ hw => hw.write (.markVectorDirty repositoryId path.asPosix) rfl _ rfl
  commit := fun _ path _ hw =>
    hw.write (.updateFileCommit repositoryId path.asPosix tree.commitSha) rfl _ rfl
  replace := fun _ path bytes _ chunks _ vectorSynced _ _ _ _ _ hw hdb =>
    hw.write (.replaceFileChunks repositoryId path.asPosix (h.sha256 bytes) tree.commitSha chunks
      vectorSynced) hdb _ rfl

/-- The passes of a history make writes only: wherever they are cut off, the database under
the index is one that writes have left. -/
theorem passes_stored {h : Hashing} {passes : List Pass} {w w' : World} {db : Database}
    (hrun : (indexing h).Run w passes w') (hplain : db.Plain w.db) : w'.Stored db := by
  refine passes_keep hrun (fun pass _ w hw => ?_) ⟨db, [], .nil db, hplain⟩
  have hkeep : Keeps (World.Stored db) (index h pass.indexer pass.repositoryId pass.mode
      pass.tree) :=
    index_keeps pass.mode (fun w hw => hw.write
      (.updateRepository pass.repositoryId pass.tree.commitSha "indexed") rfl _ rfl)
      (stored_keeps h pass.indexer pass.repositoryId pass.tree db)
  have hpost := hkeep w pass.fates hw
  rw [Pass.run]
  revert hpost
  rcases (index h pass.indexer pass.repositoryId pass.mode pass.tree w pass.fates).1 with ⟨r, w'⟩
  cases r <;> exact id

end RepoMesh
