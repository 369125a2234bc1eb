import RepoMesh.IndexRefines

/-!
# What a clean pass leaves of a file

A pass that ends without an error and without a deferral leaves each file of its
repository in one of four ways (`Leaves`), told apart by what the pass found and by
what was recorded before it.
-/

namespace RepoMesh

variable {h : Hashing} {history : List Pass} {pass : Pass} {k : FileKey} {w w' : World}
  {e : Entry}

/-- A clean pass from `w` leaves the entry of `k`. -/
inductive Leaves (h : Hashing) (pass : Pass) (w : World) (k : FileKey) : Entry → Prop where
  /-- the file was in step with its row and has its content -/
  | skipped (path : RelPath) (bytes : ByteArray) (r : FileRow) (hfinds : pass.Finds path)
      (hpath : path.asPosix = k.path) (hmode : pass.mode = .incremental)
      (hhashed : pass.tree.hashed path = some bytes) (hrow : (w.entry k).row = some r)
      (hsha : r.sha256 = h.sha256 bytes) (hsync : (w.entry k).Synced) :
      Leaves h pass w k ((w.entry k).updateCommit pass.tree.commitSha)
  /-- the file was stored -/
  | stored (path : RelPath) (bytes content : ByteArray) (vectors : List String)
      (v : Version k) (hfinds : pass.Finds path) (hpath : path.asPosix = k.path)
      (hhashed : pass.tree.hashed path = some bytes)
      (hread : pass.tree.read path = some content) (hsha : v.sha256 = h.sha256 bytes)
      (hcommit : v.commitSha = pass.tree.commitSha)
      (hitems : pass.indexer.fileItems h k pass.tree.commitSha
        (pass.indexer.readText content) = .ok (v.chunks, vectors))
      (hpoints : v.points = List.zipWith CodeChunk.toPoint v.chunks vectors) :
      Leaves h pass w k v.entry
  /-- the file was not found, and all that was recorded is gone -/
  | removed (hno : ∀ path, pass.Finds path → path.asPosix ≠ k.path)
      (hrecorded : ¬ (w.entry k).Unrecorded) : Leaves h pass w k Entry.absent
  /-- the file was not found, and nothing told of it -/
  | untouched (hno : ∀ path, pass.Finds path → path.asPosix ≠ k.path)
      (hun : (w.entry k).Unrecorded) : Leaves h pass w k (w.entry k)

/-! ## Records -/

theorem mem_fileManifest {repositoryId : Uuid} {r : FileRow} :
    r ∈ w.db.fileManifest repositoryId ↔
      r.repositoryId = repositoryId ∧ (w.entry r.key).row = some r := by
  have hget : (w.entry r.key).row = some r ↔ r ∈ w.db.files.rows := by
    simp [World.entry, Table.get?_eq_some]
  rw [hget]
  simp [IndexDb.fileManifest, and_comm]

theorem mem_pendingDeletions {repositoryId : Uuid} {path : String} :
    path ∈ w.db.pendingDeletions repositoryId ↔
      (w.entry ⟨repositoryId, path⟩).pending = true := by
  have hget : (w.entry ⟨repositoryId, path⟩).pending = true ↔
      (⟨repositoryId, path⟩ : FileKey) ∈ w.db.pending.rows := by
    simp [World.entry, Option.isSome_iff_exists, Table.get?_eq_some]
  rw [hget, IndexDb.pendingDeletions, List.mem_map]
  constructor
  · rintro ⟨k, hk, rfl⟩
    obtain ⟨hk, hrepo⟩ := List.mem_filter.mp hk
    rwa [← of_decide_eq_true hrepo]
  · exact fun hmem => ⟨_, List.mem_filter.mpr ⟨hmem, decide_eq_true rfl⟩, rfl⟩

/-- A path is deleted for being in the manifest and gone, or for having a tombstone. -/
theorem mem_deletedPaths {manifest : List FileRow} {pending : List String}
    {files : List RelPath} {path : String} :
    path ∈ deletedPaths manifest pending files ↔
      ((∃ r ∈ manifest, r.path = path) ∧ ∀ q ∈ files, q.asPosix ≠ path) ∨ path ∈ pending := by
  simp [deletedPaths, mem_sortBy]

/-- A file that is not deleted and not found is unrecorded, and the other way round. -/
theorem not_mem_deleted_iff {files : List RelPath} (hno : ∀ q ∈ files, q.asPosix ≠ k.path) :
    k.path ∉ deletedPaths (w.db.fileManifest k.repositoryId)
        (w.db.pendingDeletions k.repositoryId) files ↔ (w.entry k).Unrecorded := by
  have hrow : (∃ r ∈ w.db.fileManifest k.repositoryId, r.path = k.path) ↔
      (w.entry k).row ≠ none := by
    constructor
    · rintro ⟨r, hr, hpath⟩
      obtain ⟨hrepo, hrow⟩ := mem_fileManifest.mp hr
      have hkey : r.key = k := FileKey.ext hrepo hpath
      rw [← hkey, hrow]
      simp
    · intro hne
      obtain ⟨r, hr⟩ := Option.ne_none_iff_exists'.mp hne
      have hkey : r.key = k := Table.key_of_get? hr
      rw [← hkey] at hr ⊢
      exact ⟨r, mem_fileManifest.mpr ⟨rfl, hr⟩, rfl⟩
  rw [mem_deletedPaths, mem_pendingDeletions, hrow, Entry.Unrecorded, not_or, not_and,
    Bool.not_eq_true, ne_eq]
  refine and_congr_left fun _ => ⟨fun hnot => ?_, fun hrow hne => absurd hrow hne⟩
  exact Classical.not_not.mp fun hne => hnot hne hno

/-- The row that the skip test looks up. -/
theorem row_of_find {r : FileRow}
    (hfind : (w.db.fileManifest k.repositoryId).find? (·.path = k.path) = some r) :
    (w.entry k).row = some r := by
  obtain ⟨hrepo, hrow⟩ := mem_fileManifest.mp (List.mem_of_find?_eq_some hfind)
  have hpath : r.path = k.path := by simpa using List.find?_some hfind
  have hkey : r.key = k := FileKey.ext hrepo hpath
  rwa [hkey] at hrow

/-- What the skip test knows. -/
theorem synced_of_unchanged {mode : Mode} {files : List RelPath} {digest : HexDigest}
    (hskip : unchanged mode (w.db.fileManifest k.repositoryId)
      (deletedPaths (w.db.fileManifest k.repositoryId) (w.db.pendingDeletions k.repositoryId)
        files) k.path digest = true) :
    mode = .incremental ∧ (∃ r, (w.entry k).row = some r ∧ r.sha256 = digest) ∧
      (w.entry k).Synced := by
  simp only [unchanged, Bool.and_eq_true, decide_eq_true_eq, Option.any_eq_true] at hskip
  obtain ⟨⟨hmode, r, hfind, hsha, hsynced⟩, hkept⟩ := hskip
  have hrow := row_of_find hfind
  have hpending : k.path ∉ w.db.pendingDeletions k.repositoryId := fun hmem =>
    hkept (mem_deletedPaths.mpr (Or.inr hmem))
  rw [mem_pendingDeletions, Bool.not_eq_true] at hpending
  exact ⟨hmode, ⟨r, hrow, hsha⟩, ⟨r, hrow, hsynced⟩, hpending⟩

/-- Each entry a clean pass may leave is one of the four. -/
theorem leaves_of_target (hrepo : k.repositoryId = pass.repositoryId)
    (ht : Target h pass w k e) : Leaves h pass w k e := by
  obtain ⟨files, hfound, hamong⟩ := ht
  simp only [← hrepo] at hamong
  rcases hamong with ⟨path, hmem, hkey, bytes, hhashed, hindexed⟩ | ⟨hnone, rfl⟩
  · have hfinds : pass.Finds path := ⟨files, hfound, mem_relativeMap.mp hmem⟩
    have hpath : path.asPosix = k.path := congrArg FileKey.path hkey
    split at hindexed
    case isTrue hskip =>
      obtain ⟨hmode, ⟨r, hrow, hsha⟩, hsync⟩ := synced_of_unchanged hskip
      have hkept : k.path ∉ deletedPaths (w.db.fileManifest k.repositoryId)
          (w.db.pendingDeletions k.repositoryId) files := by
        simp only [unchanged, Bool.and_eq_true, decide_eq_true_eq] at hskip
        exact hskip.2
      rw [afterDeletes, if_neg fun hdel => hkept hdel.2] at hindexed
      subst hindexed
      exact .skipped path bytes r hfinds hpath hmode hhashed hrow hsha hsync
    case isFalse =>
      obtain ⟨content, vectors, v, hread, hsha, hcommit, hitems, hpoints, rfl⟩ := hindexed
      exact .stored path bytes content vectors v hfinds hpath hhashed hread hsha hcommit hitems
        hpoints
  · have hno : ∀ q ∈ files, q.asPosix ≠ k.path := by
      intro q hq heq
      exact hnone q (mem_relativeMap.mpr hq) (by rw [← hrepo, heq])
    have hno' : ∀ path, pass.Finds path → path.asPosix ≠ k.path := by
      rintro path ⟨files', hfound', hpath⟩
      obtain rfl := Except.ok.inj (hfound.symm.trans hfound')
      exact hno path hpath
    by_cases hun : (w.entry k).Unrecorded
    · rw [afterDeletes, if_neg fun hdel => (not_mem_deleted_iff hno).mpr hun hdel.2]
      exact .untouched hno' hun
    · have hdel := Classical.not_not.mp fun hkept => hun ((not_mem_deleted_iff hno).mp hkept)
      rw [afterDeletes, if_pos ⟨rfl, hdel⟩]
      exact .removed hno' hun

/-- No tombstone is left. -/
theorem Leaves.pending (ho : Leaves h pass w k e) : e.pending = false := by
  cases ho with
  | skipped path bytes r _ _ _ _ _ _ hsync => exact hsync.2
  | stored => rfl
  | removed => rfl
  | untouched _ hun => exact hun.2

end RepoMesh
