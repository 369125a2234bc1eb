import RepoMesh.CleanPass

/-!
# What a pass without errors records

Of all that is stored for a file only the digest in its `files` row is followed here. The
deletion of the file and `replace_file_chunks` write it, and no other call touches it. So a
pass that counts no error records just the files that it found, with the digests it took of
them (`recorded_iff`): also where vector calls were put off, where the chunks of another
file are stored under the same path, and where ids collide.
-/

namespace RepoMesh

/-- The digest that the row of the file records. -/
def Entry.digest (e : Entry) : Option HexDigest := e.row.map FileRow.sha256

/-- Unless an error was counted, `T` holds of the digest. -/
def Recorded (stats : IndexStats) (T : Option HexDigest → Prop) (e : Entry) (_ : Nat) : Prop :=
  stats.errorCount = 0 → T e.digest

def Anything (_ : Entry) (_ : Nat) : Prop := True

theorem Recorded.anything {stats : IndexStats} {T : Option HexDigest → Prop} (e : Entry) (n : Nat)
    (_ : Recorded stats T e n) : Anything e n :=
  trivial

theorem Recorded.of_counted {stats stats' : IndexStats} {T : Option HexDigest → Prop}
    {H : Entry → Nat → Prop} (e : Entry) (n : Nat)
    (h : Counted stats stats' (Recorded stats T) H e n) : Recorded stats' T e n := by
  intro hzero
  rcases h with ⟨hstats, hdigest⟩ | ⟨hstats, -⟩
  · exact hdigest (hstats.symm.trans hzero)
  · omega

/-! ## What the calls do to a digest -/

section

variable {w : World} {k key : FileKey}

/-- An update that leaves the digests as they are. -/
theorem map_sha256_get?_update (t : Table FileRow.key) {p : FileRow → Bool}
    {f : FileRow → FileRow} (hf : ∀ r, (f r).key = r.key) (hsha : ∀ r, (f r).sha256 = r.sha256) :
    ((t.update p f hf).get? k).map FileRow.sha256 = (t.get? k).map FileRow.sha256 := by
  rw [Table.get?_update, Option.map_map]
  refine congrArg (fun g => (t.get? k).map g) (funext fun r => ?_)
  simp only [Function.comp]
  split
  · exact hsha r
  · rfl

theorem digest_markVectorDirty : ((w.afterSql .markVectorDirty key
    (·.markVectorDirty key.repositoryId key.path)).entry k).digest = (w.entry k).digest :=
  map_sha256_get?_update w.db.files FileRow.dirty_key fun _ => rfl

theorem digest_updateFileCommit (key : FileKey) (commitSha : String) :
    ((w.afterSql .updateFileCommit key
      (·.updateFileCommit key.repositoryId key.path commitSha)).entry k).digest =
      (w.entry k).digest :=
  map_sha256_get?_update w.db.files (FileRow.atCommit_key commitSha) fun _ => rfl

theorem digest_deleteFile : ((w.afterSql .deleteFile key
    (·.deleteFile key.repositoryId key.path)).entry k).digest =
      if key = k then none else (w.entry k).digest := by
  split
  case isTrue h =>
    rw [← h, World.entry_deleteFile]
    rfl
  case isFalse h => rw [w.entry_deleteFile_of_ne h]

theorem digest_replaceFileChunks {digest : HexDigest} {commitSha : String}
    {chunks : List CodeChunk} {vectorSynced : Bool} {db : IndexDb}
    (hdb : w.db.replaceFileChunks key.repositoryId key.path digest commitSha chunks
      vectorSynced = .ok db) :
    (({ w with db := db }.write (.mutated .replaceFileChunks key)).entry k).digest =
      if key = k then some digest else (w.entry k).digest := by
  obtain ⟨-, -, hfiles⟩ := World.replaceFileChunks_ok hdb
  show (db.files.get? k).map FileRow.sha256 = _
  rw [hfiles, Table.get?_upsert, apply_ite (Option.map FileRow.sha256)]
  rfl

end

/-! ## Turns of the loops -/

section

variable {k key : FileKey} {stats : IndexStats} {T T' : Option HexDigest → Prop}

theorem deleteCalls_recorded :
    DeleteCalls k key (Recorded stats T)
      (Recorded stats fun d => if key = k then d = none else T d)
      (Recorded stats fun d => if key = k then d = none else T d)
      (Recorded stats fun d => if key = k then d = none else T d)
      (Recorded stats fun d => if key = k then d = none else T d) Anything := by
  refine
    { rows := ?_
      points := fun _ => id
      part := fun _ _ => id
      tombstone := fun _ => id
      deferred := fun _ _ => id
      start_cut := Recorded.anything
      rows_cut := fun _ _ => id
      points_cut := fun _ _ => id
      deferred_cut := Recorded.anything
      end_cut := Recorded.anything }
  intro w hw hzero
  rw [digest_deleteFile]
  split
  · rfl
  · exact hw hzero

/-- A turn of the deletion loop. -/
theorem deleteOne_recorded (repositoryId : Uuid) (path : String) :
    Triple (On k (Recorded stats T)) (deleteOne repositoryId stats path)
      (fun stats' => On k (Recorded stats' fun d =>
        if (⟨repositoryId, path⟩ : FileKey) = k then d = none else T d))
      fun _ => On k Anything :=
  (deleteOne_spec stats deleteCalls_recorded).conseq (fun _ => id)
    (fun _ => On.mono Recorded.of_counted) fun _ _ => id

theorem indexCalls_recorded {digest : HexDigest} {commitSha : String} {chunks : List CodeChunk}
    {vectors : List String} (hown : key = k → T' (some digest)) (hother : key ≠ k → T' = T) :
    IndexCalls k key digest commitSha chunks vectors (Recorded stats T) (Recorded stats T)
      (Recorded stats T) (Recorded stats T) (Recorded stats T')
      (fun e n => key ≠ k → Recorded stats T e n) (Recorded stats T')
      fun e n => key ≠ k → Recorded stats T e n := by
  have hcut : ∀ e n, Recorded stats T e n → key ≠ k → Recorded stats T e n := fun _ _ h _ => h
  have hcut' : ∀ e n, Recorded stats T' e n → key ≠ k → Recorded stats T e n :=
    fun _ _ h hne => hother hne ▸ h
  have hreplace : ∀ w db vectorSynced, (key ≠ k → On k (Recorded stats T) w) →
      w.db.replaceFileChunks key.repositoryId key.path digest commitSha chunks vectorSynced =
        .ok db →
      On k (Recorded stats T') ({ w with db := db }.write (.mutated .replaceFileChunks key)) := by
    intro w db vectorSynced hw hdb hzero
    rw [digest_replaceFileChunks hdb]
    split
    case isTrue h => exact hown h
    case isFalse h => exact (hother h).symm ▸ hw h hzero
  exact
    { dirty := fun w hw hzero => by
        rw [digest_markVectorDirty]
        exact hw hzero
      unpoint := fun _ => id
      unpoint_part := fun _ _ hw _ => hw
      upsert := fun _ => id
      upsert_part := fun _ _ hw _ => hw
      deferred := fun _ _ => id
      synced := fun w db hw => hreplace w db true fun _ => hw
      unsynced := fun w db => hreplace w db false
      tombstone := fun _ => id
      start_cut := hcut
      dirty_cut := hcut
      unpoint_cut := hcut
      upsert_cut := hcut
      synced_cut := hcut'
      deferred_cut := fun _ _ => id
      end_cut := hcut' }

variable {h : Hashing} {ix : Indexer} {repositoryId : Uuid} {mode : Mode} {tree : Tree}
  {manifest : List FileRow} {deleted : List String}

/-- A turn of the indexing loop; a file is only skipped if its digest is recorded. -/
theorem indexOne_recorded (path : RelPath)
    (hskip : ∀ bytes d, (⟨repositoryId, path.asPosix⟩ : FileKey) = k →
      tree.hashed path = some bytes →
      unchanged mode manifest deleted path.asPosix (h.sha256 bytes) = true → T d →
      d = some (h.sha256 bytes)) :
    Triple (On k (Recorded stats T))
      (indexOne h ix repositoryId mode tree manifest deleted stats path)
      (fun stats' => On k (Recorded stats' fun d =>
        if (⟨repositoryId, path.asPosix⟩ : FileKey) = k then
          ∃ bytes, tree.hashed path = some bytes ∧ d = some (h.sha256 bytes)
        else T d))
      fun _ => On k Anything := by
  have hcalls : FileCalls k h ix repositoryId mode tree manifest deleted path (Recorded stats T)
      (Recorded stats fun d => if (⟨repositoryId, path.asPosix⟩ : FileKey) = k then
          ∃ bytes, tree.hashed path = some bytes ∧ d = some (h.sha256 bytes)
        else T d)
      fun e n => (⟨repositoryId, path.asPosix⟩ : FileKey) ≠ k → Recorded stats T e n := by
    refine ⟨?_, ?_, fun _ _ h _ => h, fun _ _ h hne => ?_⟩
    · intro bytes hbytes hunchanged w hw hzero
      rw [digest_updateFileCommit ⟨repositoryId, path.asPosix⟩]
      split
      case isTrue hkey => exact ⟨bytes, hbytes, hskip bytes _ hkey hbytes hunchanged (hw hzero)⟩
      case isFalse => exact hw hzero
    · intro bytes content chunks vectors hbytes _ _ _
      exact ⟨_, _, _, _, _, indexCalls_recorded (fun hkey => by rw [if_pos hkey]; exact
        ⟨bytes, hbytes, rfl⟩) fun hne => funext fun d => if_neg hne⟩
    · simpa only [if_neg hne] using h
  exact (indexOne_spec stats hcalls).conseq (fun _ => id)
    (fun _ => On.mono Recorded.of_counted) fun _ _ _ => trivial

end

/-! ## A whole pass -/

section

variable {h : Hashing} {k : FileKey} {repositoryId : Uuid} {tree : Tree} {d₀ d₁ : Option HexDigest}

/-- The deletion loop. -/
theorem deletes_recorded (deleted : List String) (stats : IndexStats) :
    Triple (On k (Recorded stats (· = d₀))) (deleted.foldlM (deleteOne repositoryId) stats)
      (fun stats' => On k (Recorded stats' fun d =>
        d = if k.repositoryId = repositoryId ∧ k.path ∈ deleted then none else d₀))
      fun _ => On k Anything := by
  have hloop := Triple.foldlM deleted (f := deleteOne repositoryId)
    (I := fun done stats' => On k (Recorded stats' fun d =>
      d = if k.repositoryId = repositoryId ∧ k.path ∈ done then none else d₀))
    (E := fun _ => On k Anything) (fun done path rest stats' _ => ?_) stats
  · exact hloop.pre fun w hw hzero => by simpa using hw hzero
  · refine (deleteOne_recorded repositoryId path).conseq (fun _ => id)
      (fun stats'' w hw hzero => ?_) fun _ _ => id
    have hdigest : if (⟨repositoryId, path⟩ : FileKey) = k then (w.entry k).digest = none
      else (w.entry k).digest = _ := hw hzero
    show (w.entry k).digest = _
    by_cases hkey : (⟨repositoryId, path⟩ : FileKey) = k
    · subst hkey
      simpa using hdigest
    · rw [if_neg hkey] at hdigest
      rw [hdigest]
      refine if_congr (and_congr_right fun hrepo => ?_) rfl rfl
      have hpath : k.path ≠ path := fun hpath => hkey (FileKey.ext hrepo.symm hpath.symm)
      simp [hpath]

/-- What the indexing loop over `done` records of the file, after `d₁`. -/
def RecordedAmong (h : Hashing) (repositoryId : Uuid) (tree : Tree) (k : FileKey)
    (d₁ : Option HexDigest) (done : List RelPath) (d : Option HexDigest) : Prop :=
  (∃ path ∈ done, (⟨repositoryId, path.asPosix⟩ : FileKey) = k ∧
      ∃ bytes, tree.hashed path = some bytes ∧ d = some (h.sha256 bytes)) ∨
    ((∀ path ∈ done, (⟨repositoryId, path.asPosix⟩ : FileKey) ≠ k) ∧ d = d₁)

/-- The indexing loop. -/
theorem files_recorded {ix : Indexer} {mode : Mode} {manifest : List FileRow}
    {deleted : List String} (files : List RelPath)
    (hskip : ∀ digest, k.repositoryId = repositoryId →
      unchanged mode manifest deleted k.path digest = true → d₁ = some digest)
    (stats : IndexStats) :
    Triple (On k (Recorded stats (· = d₁)))
      (files.foldlM (indexOne h ix repositoryId mode tree manifest deleted) stats)
      (fun stats' => On k (Recorded stats' (RecordedAmong h repositoryId tree k d₁ files)))
      fun _ => On k Anything := by
  have hloop := Triple.foldlM files
    (f := indexOne h ix repositoryId mode tree manifest deleted)
    (I := fun done stats' => On k (Recorded stats' (RecordedAmong h repositoryId tree k d₁ done)))
    (E := fun _ => On k Anything) (fun done path rest stats' _ => ?_) stats
  · exact hloop.pre fun w hw hzero => Or.inr ⟨by simp, hw hzero⟩
  · refine (indexOne_recorded path fun bytes d hkey hbytes hunchanged hamong => ?_).conseq
      (fun _ => id) (fun stats'' w hw hzero => ?_) fun _ _ => id
    · rcases hamong with ⟨path', -, hkey', bytes', hbytes', rfl⟩ | ⟨-, rfl⟩
      · obtain rfl : path' = path :=
          RelPath.asPosix_injective (congrArg FileKey.path (hkey'.trans hkey.symm))
        rw [Option.some.inj (hbytes'.symm.trans hbytes)]
      · rw [show path.asPosix = k.path from congrArg FileKey.path hkey] at hunchanged
        exact hskip _ (congrArg FileKey.repositoryId hkey).symm hunchanged
    · have hdigest := hw hzero
      split at hdigest
      case isTrue hkey => exact Or.inl ⟨path, by simp, hkey, hdigest⟩
      case isFalse hkey =>
        rcases hdigest with ⟨path', hpath', hrest⟩ | ⟨hnone, heq⟩
        · exact Or.inl ⟨path', List.mem_append_left _ hpath', hrest⟩
        · refine Or.inr ⟨fun path' hpath' => ?_, heq⟩
          rcases List.mem_append.mp hpath' with hpath' | hpath'
          · exact hnone path' hpath'
          · rwa [List.mem_singleton.mp hpath']

/-- The digest that a pass from `w` records of a file when all goes well. -/
def TargetDigest (h : Hashing) (pass : Pass) (w : World) (k : FileKey) (d : Option HexDigest) :
    Prop :=
  ∃ files, pass.tree.found = .ok files ∧
    let deleted := deletedPaths (w.db.fileManifest pass.repositoryId)
      (w.db.pendingDeletions pass.repositoryId) files
    RecordedAmong h pass.repositoryId pass.tree k
      (if k.repositoryId = pass.repositoryId ∧ k.path ∈ deleted then none
        else (w.entry k).digest) (relativeMap files) d

theorem markIndexed_recorded {stats : IndexStats} {T : Option HexDigest → Prop}
    (commitSha : String) :
    Triple (On k (Recorded stats T)) (markIndexed repositoryId commitSha)
      (fun _ => On k (Recorded stats T)) fun _ => On k Anything := by
  refine Triple.bind (check_spec.exc fun _ => On.mono Recorded.anything) fun _ => ?_
  exact Triple.bind (attempt_cut Recorded.anything) fun _ => Triple.modify fun _ => id

theorem index_recorded (pass : Pass) (w : World) :
    Triple (fun w' => w' = w) (index h pass.indexer pass.repositoryId pass.mode pass.tree)
      (fun stats => On k (Recorded stats (TargetDigest h pass w k)))
      fun _ => On k Anything := by
  refine index_rule (fun _ => trivial) fun files hfound _ => ?_
  refine ⟨On k fun e _ => e.digest = (w.entry k).digest, _, _, fun stats => ?_,
    fun stats _ => (deletes_recorded _ stats).pre fun w' hw' _ => hw',
    files_recorded (relativeMap files) (fun digest hrepo hunchanged => ?_), fun stats => ?_⟩
  · refine (progress_spec stats none none).conseq ?_ (fun _ _ => id) fun _ _ _ => trivial
    rintro w' rfl
    rfl
  · rw [← hrepo] at hunchanged ⊢
    obtain ⟨-, ⟨r, hrow, rfl⟩, -⟩ := synced_of_unchanged hunchanged
    have hkept : k.path ∉ deletedPaths (w.db.fileManifest k.repositoryId)
        (w.db.pendingDeletions k.repositoryId) files := by
      simp only [unchanged, Bool.and_eq_true, decide_eq_true_eq] at hunchanged
      exact hunchanged.2
    rw [if_neg fun hdel => hkept hdel.2, Entry.digest, hrow]
    rfl
  · refine (withGuard_spec (markIndexed_recorded pass.tree.commitSha) Recorded.anything
      Recorded.anything).conseq (fun _ => id) (fun _ w' hw' hzero => ?_) fun _ _ => id
    exact ⟨files, hfound, hw' hzero⟩

variable {pass : Pass} {w w' : World} {stats : IndexStats}

theorem pass_digest (hrun : pass.run h w = (.ok stats, w')) (herror : stats.errorCount = 0) :
    TargetDigest h pass w k (w'.entry k).digest := by
  have hpost := index_recorded (h := h) (k := k) pass w w pass.fates rfl
  rw [Pass.run] at hrun
  rw [hrun] at hpost
  exact hpost herror

/-- A pass without errors records the digests that it took of the files it found, and no
others. -/
theorem recorded_iff (hrun : pass.run h w = (.ok stats, w')) (herror : stats.errorCount = 0)
    (hrepo : k.repositoryId = pass.repositoryId) {digest : HexDigest} :
    (w'.entry k).digest = some digest ↔ ∃ path bytes, pass.Finds path ∧ path.asPosix = k.path ∧
      pass.tree.hashed path = some bytes ∧ digest = h.sha256 bytes := by
  obtain ⟨files, hfound, hamong⟩ := pass_digest (k := k) hrun herror
  have hfinds : ∀ path, pass.Finds path ↔ path ∈ relativeMap files := fun path =>
    ⟨fun ⟨_, hfound', hpath⟩ => mem_relativeMap.mpr
        (Except.ok.inj (hfound'.symm.trans hfound) ▸ hpath),
      fun hpath => ⟨files, hfound, mem_relativeMap.mp hpath⟩⟩
  rcases hamong with ⟨path, hpath, hkey, bytes, hbytes, hdigest⟩ | ⟨hnone, hdigest⟩
  · rw [hdigest]
    constructor
    · rintro heq
      exact ⟨path, bytes, (hfinds path).mpr hpath, congrArg FileKey.path hkey, hbytes,
        (Option.some.inj heq).symm⟩
    · rintro ⟨path', bytes', -, hposix, hbytes', rfl⟩
      obtain rfl : path' = path :=
        RelPath.asPosix_injective (hposix.trans (congrArg FileKey.path hkey).symm)
      rw [Option.some.inj (hbytes'.symm.trans hbytes)]
  · have hno : ∀ path ∈ files, path.asPosix ≠ k.path := fun path hpath hposix =>
      hnone path (mem_relativeMap.mpr hpath) (FileKey.ext hrepo.symm hposix)
    have hgone : (w'.entry k).digest = none := by
      rw [hdigest, ← hrepo]
      split
      case isTrue => rfl
      case isFalse hkept =>
        have hun := (not_mem_deleted_iff hno).mp fun hdel => hkept ⟨rfl, hdel⟩
        rw [Entry.digest, hun.1]
        rfl
    rw [hgone]
    refine iff_of_false (by simp) ?_
    rintro ⟨path, _, hpath, hposix, -⟩
    exact hno path (mem_relativeMap.mp ((hfinds path).mp hpath)) hposix

/-- All files that it found could be read. -/
theorem hashed_of_clean (hrun : pass.run h w = (.ok stats, w')) (herror : stats.errorCount = 0)
    {path : RelPath} (hpath : pass.Finds path) :
    ∃ bytes, pass.tree.hashed path = some bytes := by
  obtain ⟨files, hfound, hamong⟩ := pass_digest (k := ⟨pass.repositoryId, path.asPosix⟩) hrun herror
  rcases hamong with ⟨path', -, hkey, bytes, hbytes, -⟩ | ⟨hnone, -⟩
  · obtain rfl := RelPath.asPosix_injective (congrArg FileKey.path hkey)
    exact ⟨bytes, hbytes⟩
  · obtain ⟨files', hfound', hmem⟩ := hpath
    obtain rfl := Except.ok.inj (hfound'.symm.trans hfound)
    exact absurd rfl (hnone path (mem_relativeMap.mpr hmem))

end

end RepoMesh
