import RepoMesh.IndexHistory

/-!
# What a pass keeps

An assertion about the whole world that every storage call of a pass keeps holds
wherever the pass is cut off (`index_keeps`). `StorageKeeps` lists the calls: the
deletions of the paths `D`, what is stored of the files `F`, and everything that
leaves the index alone.
-/

namespace RepoMesh

/-- The entry records a change of the index. -/
def LogEntry.onIndex : LogEntry → Bool
  | .mutated .vectorDelete _ | .mutated .vectorUpsert _ => false
  | .mutated _ _ | .updatedRepository _ => true
  | _ => false

/-- The world after `replace_file_chunks`. -/
def World.afterReplace (w : World) (key : FileKey) (db : IndexDb) : World :=
  { w with db := db }.write (.mutated .replaceFileChunks key)

/-- The world after the repository was marked as indexed. -/
def World.afterMark (w : World) (repositoryId : Uuid) (commitSha : String) : World :=
  { w with db := w.db.updateRepository repositoryId commitSha "indexed" }.write
    (.updatedRepository repositoryId)

/-- A file without backslashes in its path gets the version made of its items. -/
theorem World.entry_afterReplace {w : World} {h : Hashing} {ix : Indexer} {key : FileKey}
    {digest : HexDigest} {commitSha content : String} {chunks : List CodeChunk}
    {vectors : List String} {vectorSynced : Bool} {db : IndexDb}
    (hplain : '\\' ∉ key.path.toList)
    (hitems : ix.fileItems h key commitSha content = .ok (chunks, vectors))
    (hdb : w.db.replaceFileChunks key.repositoryId key.path digest commitSha chunks
      vectorSynced = .ok db) :
    ∃ v : Version key, v.sha256 = digest ∧ v.commitSha = commitSha ∧ v.chunks = chunks ∧
      (w.afterReplace key db).entry key = (w.entry key).replace v vectorSynced := by
  obtain ⟨v, hsha, hcommit, hchunks, -⟩ := exists_version hplain digest hitems
  rw [← hsha, ← hcommit, ← hchunks] at hdb
  exact ⟨v, hsha, hcommit, hchunks, w.entry_replaceFileChunks v hdb⟩

/-- Each call that a pass over `tree` may make on storage keeps `P`. -/
structure StorageKeeps (h : Hashing) (ix : Indexer) (repositoryId : Uuid) (tree : Tree)
    (D : String → Prop) (F : RelPath → Prop) (P : World → Prop) : Prop where
  aside : ∀ w points entry, entry.onIndex = false → P w →
    P ({ w with points := points }.write entry)
  delete : ∀ w path, D path → P w → P (w.afterSql .deleteFile ⟨repositoryId, path⟩
    (·.deleteFile repositoryId path))
  finish : ∀ w key, P w → P (w.afterSql .finishVectorDeletion key
    (·.finishVectorDeletion key.repositoryId key.path))
  dirty : ∀ w path, F path → P w → P (w.afterSql .markVectorDirty
    ⟨repositoryId, path.asPosix⟩ (·.markVectorDirty repositoryId path.asPosix))
  commit : ∀ w path, F path → P w → P (w.afterSql .updateFileCommit
    ⟨repositoryId, path.asPosix⟩
    (·.updateFileCommit repositoryId path.asPosix tree.commitSha))
  replace : ∀ w path bytes content chunks vectors vectorSynced db, F path →
    tree.hashed path = some bytes → tree.read path = some content →
    ix.fileItems h ⟨repositoryId, path.asPosix⟩ tree.commitSha (ix.readText content) =
      .ok (chunks, vectors) → P w →
    w.db.replaceFileChunks repositoryId path.asPosix (h.sha256 bytes) tree.commitSha chunks
      vectorSynced = .ok db →
    P (w.afterReplace ⟨repositoryId, path.asPosix⟩ db)

section

variable {h : Hashing} {ix : Indexer} {repositoryId : Uuid} {tree : Tree} {D : String → Prop}
  {F : RelPath → Prop} {P : World → Prop} {mode : Mode} {manifest : List FileRow}
  {deleted : List String}

/-! ## Calls -/

theorem attempt_keeps {P : World → Prop} : Keeps P attempt := attempt_spec

namespace StorageKeeps

theorem note (hkeeps : StorageKeeps h ix repositoryId tree D F P) {entry : LogEntry}
    (hentry : entry.onIndex = false) : Keeps P (note entry) :=
  Keeps.modify fun w hw => hkeeps.aside w w.points entry hentry hw

theorem check (hkeeps : StorageKeeps h ix repositoryId tree D F P) : Keeps P check :=
  Keeps.bind attempt_keeps fun _ => hkeeps.note rfl

theorem progress (hkeeps : StorageKeeps h ix repositoryId tree D F P) (stats : IndexStats)
    (path error : Option String) : Keeps P (progress stats path error) :=
  Keeps.bind attempt_keeps fun _ => hkeeps.note rfl

theorem guarded (hkeeps : StorageKeeps h ix repositoryId tree D F P) {body : IndexM Unit}
    (hbody : Keeps P body) : Keeps P (withGuard body) := by
  refine Keeps.bind attempt_keeps fun _ => Keeps.bind (hkeeps.note rfl) fun _ => ?_
  refine Keeps.bind (Keeps.catching hbody fun e => Keeps.ite (fun _ => Keeps.raise) fun _ => ?_)
    fun _ => Keeps.bind attempt_keeps fun _ => hkeeps.note rfl
  exact Keeps.bind attempt_keeps fun _ => Keeps.bind (hkeeps.note rfl) fun _ => Keeps.raise

theorem vectorCall (hkeeps : StorageKeeps h ix repositoryId tree D F P) {m : Mutation}
    (hm : ∀ key, (LogEntry.mutated m key).onIndex = false) (key : FileKey)
    (f : Option (List Uuid) → Table Point.id → Table Point.id) :
    Keeps P (vectorCall m key f) := by
  refine Keeps.bind Keeps.ask fun fate => ?_
  cases fate with
  | goes => exact Keeps.modify fun w hw => hkeeps.aside w _ _ (hm key) hw
  | raises e done =>
      exact Keeps.bind (Keeps.modify fun w hw => hkeeps.aside w _ _ rfl hw) fun _ => Keeps.raise

theorem deferring (hkeeps : StorageKeeps h ix repositoryId tree D F P) {α : Type}
    (message : String) (key : FileKey) (value : α) (e : Exc) :
    Keeps P (deferring message key value e) := by
  cases e with
  | providerUnavailable text => exact Keeps.bind (hkeeps.note rfl) fun _ => Keeps.pure
  | crash => exact Keeps.raise
  | leaseLost => exact Keeps.raise
  | indexCancelled => exact Keeps.raise
  | other text => exact Keeps.raise

end StorageKeeps

theorem sql_keeps {m : Mutation} {key : FileKey} {f : IndexDb → IndexDb}
    (hsql : ∀ w, P w → P (w.afterSql m key f)) : Keeps P (sql m key f) :=
  Keeps.bind attempt_keeps fun _ => Keeps.modify hsql

theorem countError_keeps {P : World → Prop} (stats : IndexStats) (e : Exc) :
    Keeps P (countError stats e) := by
  cases e with
  | providerUnavailable text => exact Keeps.pure
  | other text => exact Keeps.pure
  | crash => exact Keeps.raise
  | leaseLost => exact Keeps.raise
  | indexCancelled => exact Keeps.raise

/-! ## The loops -/

namespace StorageKeeps

/-- A turn of the deletion loop. -/
theorem deleteOne (hkeeps : StorageKeeps h ix repositoryId tree D F P) {path : String}
    (hpath : D path) (stats : IndexStats) : Keeps P (deleteOne repositoryId stats path) := by
  have hvectors : Keeps P (deleteVectors ⟨repositoryId, path⟩) := by
    refine Keeps.bind hkeeps.check fun _ => ?_
    refine Keeps.bind (hkeeps.vectorCall (fun _ => rfl) _ _) fun _ => ?_
    exact Keeps.bind hkeeps.check fun _ => sql_keeps fun w => hkeeps.finish w _
  have hguarded : Keeps P (deleteGuarded ⟨repositoryId, path⟩) := by
    refine Keeps.bind hkeeps.check fun _ => ?_
    refine Keeps.bind (sql_keeps fun w => hkeeps.delete w path hpath) fun _ => ?_
    exact Keeps.catching hvectors fun e => hkeeps.deferring _ _ _ e
  refine Keeps.bind attempt_keeps fun _ => Keeps.bind (Keeps.catching ?_ (countError_keeps stats))
    fun _ => Keeps.bind (hkeeps.progress _ _ _) fun _ => Keeps.pure
  exact Keeps.bind (hkeeps.guarded hguarded) fun _ => Keeps.pure

/-- The guarded part of indexing a file. -/
theorem indexGuarded (hkeeps : StorageKeeps h ix repositoryId tree D F P) {path : RelPath}
    (hpath : F path) {bytes content : ByteArray} {chunks : List CodeChunk}
    {vectors : List String} (hhashed : tree.hashed path = some bytes)
    (hread : tree.read path = some content)
    (hitems : ix.fileItems h ⟨repositoryId, path.asPosix⟩ tree.commitSha
      (ix.readText content) = .ok (chunks, vectors)) :
    Keeps P (indexGuarded ⟨repositoryId, path.asPosix⟩ (h.sha256 bytes) tree.commitSha chunks
      vectors) := by
  refine Keeps.bind hkeeps.check fun _ => ?_
  refine Keeps.bind (sql_keeps fun w => hkeeps.dirty w path hpath) fun _ => ?_
  refine Keeps.bind (Keeps.catching ?_ fun e => hkeeps.deferring _ _ _ e) fun vectorSynced => ?_
  · refine Keeps.bind hkeeps.check fun _ => ?_
    refine Keeps.bind (hkeeps.vectorCall (fun _ => rfl) _ _) fun _ => ?_
    refine Keeps.bind hkeeps.check fun _ => ?_
    exact Keeps.bind (hkeeps.vectorCall (fun _ => rfl) _ _) fun _ => Keeps.pure
  refine Keeps.bind hkeeps.check fun _ => Keeps.bind ?_ fun _ => ?_
  · refine Keeps.bind attempt_keeps fun _ => ?_
    refine Triple.bind (Triple.get (Q := fun w w' => w' = w ∧ P w) fun w hw => ⟨rfl, hw⟩)
      fun w => ?_
    cases hdb : w.db.replaceFileChunks repositoryId path.asPosix (h.sha256 bytes) tree.commitSha
        chunks vectorSynced with
    | error text =>
        refine Triple.raise ?_
        rintro w' ⟨rfl, hw⟩
        exact hw
    | ok db =>
        refine Triple.modify ?_
        rintro w' ⟨rfl, hw⟩
        exact hkeeps.replace _ path bytes content chunks vectors vectorSynced db hpath hhashed
          hread hitems hw hdb
  · exact Keeps.ite (fun _ => Keeps.bind hkeeps.check fun _ => sql_keeps fun w => hkeeps.finish w _)
      fun _ => Keeps.pure

theorem indexFile (hkeeps : StorageKeeps h ix repositoryId tree D F P) {path : RelPath}
    (hpath : F path) (stats : IndexStats) :
    Keeps P (indexFile h ix repositoryId mode tree manifest deleted stats path) := by
  refine Triple.bind (readFile_spec (tree.hashed path)) fun bytes => Triple.ite ?_ ?_
  · intro _
    refine Triple.pre (P := P) ?_ fun _ hw => hw.2
    refine Keeps.bind (hkeeps.guarded ?_) fun _ => Keeps.pure
    exact Keeps.bind hkeeps.check fun _ => sql_keeps fun w => hkeeps.commit w path hpath
  · intro _
    refine Triple.bind (R := fun content w => tree.read path = some content ∧
      tree.hashed path = some bytes ∧ P w) ((readFile_spec (tree.read path)).exc
      fun _ _ hw => hw.2) fun content => ?_
    refine Triple.bind ((embedFile_spec h ix ⟨repositoryId, path.asPosix⟩ tree.commitSha
      (ix.readText content)).exc fun _ _ hw => hw.2.2) ?_
    rintro ⟨chunks, vectors⟩
    refine Triple.of_forall fun w hw => ?_
    obtain ⟨hitems, hread, hhashed, hP⟩ := hw
    refine Triple.pre (P := P) ?_ fun _ hw => hw ▸ hP
    exact Keeps.bind (hkeeps.guarded (hkeeps.indexGuarded hpath hhashed hread hitems))
      fun _ => Keeps.pure

/-- A turn of the indexing loop. -/
theorem indexOne (hkeeps : StorageKeeps h ix repositoryId tree D F P) {path : RelPath}
    (hpath : F path) (stats : IndexStats) :
    Keeps P (indexOne h ix repositoryId mode tree manifest deleted stats path) := by
  refine Keeps.bind attempt_keeps fun _ => Keeps.bind (Keeps.catching ?_ (countError_keeps stats))
    fun _ => Keeps.bind (hkeeps.progress _ _ _) fun _ => Keeps.pure
  exact Keeps.bind (hkeeps.indexFile hpath stats) fun _ => Keeps.pure

end StorageKeeps

/-! ## The pass -/

theorem markIndexed_keeps (hkeeps : StorageKeeps h ix repositoryId tree D F P)
    (hmark : ∀ w, P w → P (w.afterMark repositoryId tree.commitSha)) :
    Keeps P (withGuard (markIndexed repositoryId tree.commitSha)) :=
  hkeeps.guarded (Keeps.bind hkeeps.check fun _ => Keeps.bind attempt_keeps fun _ =>
    Keeps.modify hmark)

/-- What every storage call keeps, a pass keeps. -/
theorem index_keeps (mode : Mode) (hmark : ∀ w, P w → P (w.afterMark repositoryId tree.commitSha))
    (hkeeps : StorageKeeps h ix repositoryId tree (fun _ => True)
      (fun path => ∃ files, tree.found = .ok files ∧ path ∈ files) P) :
    Keeps P (index h ix repositoryId mode tree) := by
  refine Triple.of_forall fun w hw => index_rule (fun _ => hw) fun files hfound _ => ?_
  refine ⟨P, fun _ => P, fun _ => P, fun stats => (hkeeps.progress _ _ _).pre ?_,
    fun stats _ => Keeps.foldlM _ (fun stats path _ => hkeeps.deleteOne trivial stats) _,
    fun stats => Keeps.foldlM _ (fun stats path hpath =>
      hkeeps.indexOne ⟨files, hfound, mem_relativeMap.mp hpath⟩ stats) stats,
    fun _ => markIndexed_keeps hkeeps hmark⟩
  rintro w' rfl
  exact hw

/-- What every pass of a history keeps, the history keeps. -/
theorem passes_keep {passes : List Pass} {w w' : World} (hrun : (indexing h).Run w passes w')
    (hpass : ∀ pass ∈ passes, ∀ w, P w → P (pass.run h w).2) (hw : P w) : P w' := by
  induction hrun with
  | nil => exact hw
  | @cons w w₁ w' pass passes hstep _ ih =>
      have hstepped := hpass pass List.mem_cons_self w hw
      rw [show (pass.run h w).2 = w₁ from hstep] at hstepped
      exact ih (fun p hp => hpass p (List.mem_cons_of_mem _ hp)) hstepped

end

end RepoMesh
