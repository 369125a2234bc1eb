import RepoMesh.CleanPass
import RepoMesh.IndexKeeps
import RepoMesh.Skipping

/-!
# A file that fails

A pass is cut at the turn of one file: the statements up to it, the turn, and the
rest. A file whose turn raises before its rows are stored keeps the rows it had,
unless the deletion loop took them: that happens to a path that is there again while
its tombstone still stands (`World.Leftover`). The chunk rows of a file are those under
its path with slashes, so a file with a backslash in its path loses them to what else
is deleted under that path.
-/

namespace RepoMesh

/-! ## The turn of a file -/

/-- `index` up to the turn of the file behind `pre`, with what the loop goes on with. -/
def indexUpTo (h : Hashing) (ix : Indexer) (repositoryId : Uuid) (mode : Mode) (tree : Tree)
    (pre : List RelPath) : IndexM (List FileRow × List String × IndexStats) := do
  checkpoint
  let w ← Prog.get
  if (w.db.repositories.get? repositoryId).isNone then
    Prog.raise (.other "repository not found")
  else do
    attempt
    match tree.found with
    | .error e => Prog.raise (.other e.text)
    | .ok files => do
        let manifest := w.db.fileManifest repositoryId
        let deleted := deletedPaths manifest (w.db.pendingDeletions repositoryId) files
        let stats : IndexStats := { totalFiles := files.length + deleted.length }
        progress stats none none
        let stats ← deleted.foldlM (deleteOne repositoryId) stats
        let stats ← pre.foldlM (indexOne h ix repositoryId mode tree manifest deleted) stats
        pure (manifest, deleted, stats)

/-- `index` behind the turn of a file, `post` being the files after it. -/
def indexFrom (h : Hashing) (ix : Indexer) (repositoryId : Uuid) (mode : Mode) (tree : Tree)
    (manifest : List FileRow) (deleted : List String) (post : List RelPath)
    (stats : IndexStats) : IndexM IndexStats := do
  let stats ← post.foldlM (indexOne h ix repositoryId mode tree manifest deleted) stats
  withGuard (markIndexed repositoryId tree.commitSha)
  pure stats

section

variable {h : Hashing} {ix : Indexer} {repositoryId : Uuid} {mode : Mode} {tree : Tree}
  {files pre post : List RelPath} {path : RelPath}

/-- A pass, cut at the turn of a file. -/
theorem index_split (hfound : tree.found = .ok files)
    (hfiles : relativeMap files = pre ++ path :: post) :
    index h ix repositoryId mode tree =
      indexUpTo h ix repositoryId mode tree pre >>= fun r =>
        indexOne h ix repositoryId mode tree r.1 r.2.1 r.2.2 path >>= fun stats =>
          indexFrom h ix repositoryId mode tree r.1 r.2.1 post stats := by
  unfold index indexUpTo indexFrom
  simp only [bind_assoc]
  refine bind_congr fun _ => bind_congr fun w => ?_
  split
  · rfl
  · simp only [bind_assoc, hfound, hfiles, List.foldlM_append, List.foldlM_cons, pure_bind]

end

/-- The exceptions that the loops count. -/
def Exc.counted : Exc → Bool
  | .providerUnavailable _ | .other _ => true
  | .crash | .leaseLost | .indexCancelled => false

/-- Between `w` and `w'` no transaction on the rows of `k` was committed. -/
def Unstored (k : FileKey) (w w' : World) : Prop :=
  ∃ new, w'.log = new ++ w.log ∧ .mutated .replaceFileChunks k ∉ new ∧
    .mutated .updateFileCommit k ∉ new

/-- The turn of the file raises an exception that is counted, between `w₁` and `w₂`. -/
structure Pass.RaisesAt (h : Hashing) (pass : Pass) (w : World) (path : RelPath)
    (w₁ w₂ : World) (e : Exc) : Prop where
  counted : e.counted = true
  turn : ∃ files pre post manifest deleted stats w₀ answers₀ answers₁ answers₂,
    pass.tree.found = .ok files ∧ relativeMap files = pre ++ path :: post ∧
    indexUpTo h pass.indexer pass.repositoryId pass.mode pass.tree pre w pass.fates =
      ((.ok (manifest, deleted, stats), w₀), answers₀) ∧
    checkpoint w₀ answers₀ = ((.ok (), w₁), answers₁) ∧
    indexFile h pass.indexer pass.repositoryId pass.mode pass.tree manifest deleted stats path
      w₁ answers₁ = ((.error e, w₂), answers₂)

/-- The file is counted as an error. -/
def Pass.Counts (h : Hashing) (pass : Pass) (w : World) (path : RelPath) : Prop :=
  ∃ w₁ w₂ e, pass.RaisesAt h w path w₁ w₂ e

/-- The file is counted as an error before its rows are stored. -/
def Pass.Fails (h : Hashing) (pass : Pass) (w : World) (path : RelPath) : Prop :=
  ∃ w₁ w₂ e, pass.RaisesAt h w path w₁ w₂ e ∧ Unstored ⟨pass.repositoryId, path.asPosix⟩ w₁ w₂

/-- The key that the chunk rows of a file are filed under. -/
def FileKey.filed (k : FileKey) : FileKey := ⟨k.repositoryId, slashed k.path⟩

/-- The rows of the file are those they were, apart from `vector_synced`. -/
structure SameRows (k : FileKey) (w w' : World) : Prop where
  file : (w'.db.files.get? k).map FileRow.dirty = (w.db.files.get? k).map FileRow.dirty
  chunks : w'.db.chunks.rows.filter (·.key = k.filed) = w.db.chunks.rows.filter (·.key = k.filed)

/-- No other file that the pass finds has its chunks under the same path. -/
def Pass.Alone (pass : Pass) (path : RelPath) : Prop :=
  ∀ q, pass.Finds q → slashed q.asPosix = slashed path.asPosix → q = path

/-- A deletion takes rows of a file that is there: its path has a tombstone beside rows of
it (it was deleted while the vector store was out, and is there again), or its chunks are
filed under another path, which has a tombstone or a row. -/
def World.Leftover (w : World) (k : FileKey) : Prop :=
  (w.entry k).pending = true ∧ (w.entry k).row ≠ none ∨
    (w.entry k.filed).chunks ≠ [] ∧ ((w.entry k.filed).pending = true ∨
      k.filed ≠ k ∧ (w.entry k.filed).row ≠ none)

/-! ## What keeps the rows -/

section

variable {h : Hashing} {pass : Pass} {k : FileKey} {w w₁ w₂ : World} {path : RelPath}

/-- Chunks of a path without backslashes are filed under it. -/
theorem FileKey.filed_eq_self (hplain : '\\' ∉ k.path.toList) : k.filed = k :=
  FileKey.ext rfl (slashed_eq_self hplain)

theorem FileKey.filed_filed (k : FileKey) : k.filed.filed = k.filed :=
  filed_eq_self (not_mem_slashed k.path)

/-- No file but this one is filed where it is. -/
theorem Pass.Alone.filed_ne (halone : pass.Alone path) {q : RelPath} (hq : pass.Finds q)
    (hne : q ≠ path) : (⟨pass.repositoryId, q.asPosix⟩ : FileKey).filed ≠
      (⟨pass.repositoryId, path.asPosix⟩ : FileKey).filed :=
  fun heq => hne (halone q hq (congrArg FileKey.path heq))

theorem SameRows.refl (k : FileKey) (w : World) : SameRows k w w := ⟨rfl, rfl⟩

theorem SameRows.of_entry {w' : World} (hrow : (w'.entry k).row.map FileRow.dirty =
      (w.entry k).row.map FileRow.dirty)
    (hchunks : (w'.entry k.filed).chunks = (w.entry k.filed).chunks) : SameRows k w w' :=
  ⟨hrow, hchunks⟩

theorem SameRows.trans_entry {w' w'' : World} (hw : SameRows k w w')
    (hentry : w''.entry k = w'.entry k) (hfiled : w''.entry k.filed = w'.entry k.filed) :
    SameRows k w w'' := by
  refine .of_entry ?_ ?_
  · rw [hentry]
    exact hw.file
  · rw [hfiled]
    exact hw.chunks

/-- The deletion loop takes rows of `k` only if there are none; the turns of files that are
filed elsewhere leave them alone. -/
theorem storage_keeps_rows {D : String → Prop}
    (hrow : ∀ path, D path → (⟨pass.repositoryId, path⟩ : FileKey) = k → (w.entry k).row = none)
    (hchunks : ∀ path, D path → (⟨pass.repositoryId, path⟩ : FileKey) = k.filed →
      (w.entry k.filed).chunks = []) :
    StorageKeeps h pass.indexer pass.repositoryId pass.tree D
      (fun path => (⟨pass.repositoryId, path.asPosix⟩ : FileKey).filed ≠ k.filed)
      (SameRows k w) where
  aside := fun _ _ _ _ hw => ⟨hw.file, hw.chunks⟩
  delete := by
    intro w' path hpath hw
    refine .of_entry ?_ ?_
    · by_cases hkey : (⟨pass.repositoryId, path⟩ : FileKey) = k
      · have hnone := hrow path hpath hkey
        subst hkey
        rw [w'.entry_deleteFile, hnone]
        rfl
      · rw [w'.entry_deleteFile_of_ne hkey]
        exact hw.file
    · by_cases hkey : (⟨pass.repositoryId, path⟩ : FileKey) = k.filed
      · have hnil := hchunks path hpath hkey
        rw [← hkey] at hnil ⊢
        rw [w'.entry_deleteFile, hnil]
        rfl
      · rw [w'.entry_deleteFile_of_ne hkey]
        exact hw.chunks
  finish := fun _ _ hw => ⟨hw.file, hw.chunks⟩
  dirty := by
    intro w' path hpath hw
    refine .of_entry ?_ hw.chunks
    rw [w'.entry_markVectorDirty_of_ne fun hkey => hpath (congrArg FileKey.filed hkey)]
    exact hw.file
  commit := by
    intro w' path hpath hw
    refine hw.trans_entry (w'.entry_updateFileCommit_of_ne _ ?_)
      (w'.entry_updateFileCommit_of_ne _ ?_)
    · exact fun hkey => hpath (congrArg FileKey.filed hkey)
    · intro hkey
      exact hpath ((congrArg FileKey.filed hkey).trans k.filed_filed)
  replace := by
    intro w' path bytes content chunks vectors vectorSynced db hpath _ _ hitems hw hdb
    have hother : ∀ k' : FileKey, k'.filed = k.filed →
        ∀ c ∈ chunks, c.key ≠ k' := by
      rintro k' hk' c hc rfl
      rw [key_of_mem_fileItems hitems hc] at hk'
      exact hpath ((FileKey.filed_filed _).symm.trans hk')
    have hself : ∀ k' : FileKey, k'.filed = k.filed →
        (⟨pass.repositoryId, path.asPosix⟩ : FileKey) ≠ k' := by
      rintro k' hk' rfl
      exact hpath hk'
    exact hw.trans_entry (w'.entry_replaceFileChunks_of_ne (hself k rfl) (hother k rfl) hdb)
      (w'.entry_replaceFileChunks_of_ne (hself _ k.filed_filed) (hother _ k.filed_filed) hdb)

/-- In the turn of `k` itself, the rows are the same until its transaction is
committed. -/
def SameOrStored (k : FileKey) (w w₁ w' : World) : Prop :=
  ∃ new, w'.log = new ++ w₁.log ∧ (.mutated .replaceFileChunks k ∈ new ∨
    .mutated .updateFileCommit k ∈ new ∨ SameRows k w w')

theorem SameOrStored.step {w' w'' : World} (hw : SameOrStored k w w₁ w') {entry : LogEntry}
    (hlog : w''.log = entry :: w'.log)
    (hrows : SameRows k w w' → entry = .mutated .replaceFileChunks k ∨
      entry = .mutated .updateFileCommit k ∨ SameRows k w w'') : SameOrStored k w w₁ w'' := by
  obtain ⟨new, hnew, hor⟩ := hw
  refine ⟨entry :: new, by rw [hlog, hnew, List.cons_append], ?_⟩
  rcases hor with hreplace | hcommit | hsame
  · exact Or.inl (List.mem_cons_of_mem _ hreplace)
  · exact Or.inr (Or.inl (List.mem_cons_of_mem _ hcommit))
  · rcases hrows hsame with rfl | rfl | hsame
    · exact Or.inl List.mem_cons_self
    · exact Or.inr (Or.inl List.mem_cons_self)
    · exact Or.inr (Or.inr hsame)

/-- A turn that raises is counted, and only reported from there on. -/
theorem indexOne_of_error {ix : Indexer} {repositoryId : Uuid} {mode : Mode} {tree : Tree}
    {manifest : List FileRow} {deleted : List String} {stats : IndexStats} {w₀ : World}
    {answers₀ answers₁ answers₂ : List Fate} {e : Exc}
    (hcheck : checkpoint w₀ answers₀ = ((.ok (), w₁), answers₁))
    (hturn : indexFile h ix repositoryId mode tree manifest deleted stats path w₁ answers₁ =
      ((.error e, w₂), answers₂)) (he : e.counted = true) :
    ∃ stats', indexOne h ix repositoryId mode tree manifest deleted stats path w₀ answers₀ =
      (progress stats' (some path.asPosix) (some e.text) >>= fun _ => pure stats') w₂
        answers₂ := by
  refine ⟨{ stats with errorCount := stats.errorCount + 1 }, ?_⟩
  rw [indexOne, Prog.bind_apply, hcheck]
  simp only [Prog.bind_apply, Prog.catching, hturn]
  cases e with
  | providerUnavailable text => rfl
  | other text => rfl
  | crash => cases he
  | leaseLost => cases he
  | indexCancelled => cases he

/-- Behind the turn of `path` its rows are not touched. -/
theorem Pass.RaisesAt.rest_keeps_rows {e : Exc} (hraises : pass.RaisesAt h w path w₁ w₂ e)
    (halone : pass.Alone path) {base : World}
    (hbase : SameRows ⟨pass.repositoryId, path.asPosix⟩ base w₂) :
    SameRows ⟨pass.repositoryId, path.asPosix⟩ base (pass.run h w).2 := by
  obtain ⟨files, pre, post, manifest, deleted, stats, w₀, answers₀, answers₁, answers₂, hfound,
    hfiles, hupTo, hcheck, hturn⟩ := hraises.turn
  obtain ⟨stats', hone⟩ := indexOne_of_error hcheck hturn hraises.counted
  have hkeeps : StorageKeeps h pass.indexer pass.repositoryId pass.tree (fun _ => False) _
      (SameRows ⟨pass.repositoryId, path.asPosix⟩ base) :=
    storage_keeps_rows (fun _ hfalse => absurd hfalse id) fun _ hfalse => absurd hfalse id
  have hpost : ∀ q ∈ post, pass.Finds q ∧ q ≠ path := by
    intro q hq
    have hnodup := nodup_relativeMap files
    rw [hfiles, List.nodup_append, List.nodup_cons] at hnodup
    refine ⟨⟨files, hfound, mem_relativeMap.mp (by simp [hfiles, hq])⟩, ?_⟩
    rintro rfl
    exact hnodup.2.1.1 hq
  have hrest : Keeps (SameRows ⟨pass.repositoryId, path.asPosix⟩ base)
      ((progress stats' (some path.asPosix) (some e.text) >>= fun _ => pure stats') >>=
        indexFrom h pass.indexer pass.repositoryId pass.mode pass.tree manifest deleted post) := by
    refine Keeps.bind (Keeps.bind (hkeeps.progress _ _ _) fun _ => Keeps.pure) fun stats => ?_
    refine Keeps.bind (Keeps.foldlM _ (fun stats q hq => hkeeps.indexOne
      (halone.filed_ne (hpost q hq).1 (hpost q hq).2) stats) _) fun _ => ?_
    exact Keeps.bind (markIndexed_keeps hkeeps fun _ hw => ⟨hw.file, hw.chunks⟩)
      fun _ => Keeps.pure
  have hrun := hrest.run hbase answers₂
  rw [Pass.run, index_split hfound hfiles, Prog.bind_apply, hupTo]
  simp only [Prog.bind_apply] at hrun ⊢
  rw [hone]
  exact hrun

/-- What the rows are when the exception is raised, they are after the pass. -/
theorem Pass.RaisesAt.sameRows_iff {e : Exc} (hraises : pass.RaisesAt h w path w₁ w₂ e)
    (halone : pass.Alone path) :
    SameRows ⟨pass.repositoryId, path.asPosix⟩ w (pass.run h w).2 ↔
      SameRows ⟨pass.repositoryId, path.asPosix⟩ w w₂ := by
  have hrest := hraises.rest_keeps_rows halone (.refl _ w₂)
  exact ⟨fun hsame => ⟨hrest.file.symm.trans hsame.file, hrest.chunks.symm.trans hsame.chunks⟩,
    hraises.rest_keeps_rows halone⟩

/-- A pass over the one file, which cannot be read. -/
def unreadablePass (repositoryId : Uuid) (path : RelPath) : Pass where
  indexer := lineIndexer
  repositoryId := repositoryId
  mode := .incremental
  tree := { commitSha := "c1", found := .ok [path], hashed := fun _ => none, read := fun _ => none }
  fates := []

end

def indexedWorld : World := ((samplePass .full "c1" [fileAB] []).run indexHashing sampleWorld).2

/-- The file cannot be read, the one named `a\b` can. -/
def besidePass : Pass :=
  { unreadablePass sampleId fileAB with
    tree := { sampleTree "c1" [fileAB, twinAB] with
      hashed := fun path => if path = fileAB then none else some "two\n".toUTF8 } }

/-- Taking the tombstone raises, behind the transaction on the rows. -/
def latePass : Pass :=
  samplePass .full "c2" [fileAB] (List.replicate 18 .goes ++ [.raises (.other "disk I/O error") []])

/-- Neither a twin nor a failure behind the transaction leaves the rows as they were. -/
theorem counted_file_changes_rows :
    (indexing indexHashing).Reachable indexedWorld ∧
      ¬ indexedWorld.Leftover ⟨sampleId, fileAB.asPosix⟩ ∧
      (besidePass.Fails indexHashing indexedWorld fileAB ∧
        ¬ SameRows ⟨sampleId, fileAB.asPosix⟩ indexedWorld
          (besidePass.run indexHashing indexedWorld).2) ∧
      latePass.Alone fileAB ∧ latePass.Counts indexHashing indexedWorld fileAB ∧
        ¬ SameRows ⟨sampleId, fileAB.asPosix⟩ indexedWorld
          (latePass.run indexHashing indexedWorld).2 := by
  refine ⟨⟨sampleWorld, _, ⟨rfl, rfl, rfl, rfl, rfl⟩, .single rfl⟩, ?_, ⟨?_, ?_⟩, ?_, ?_, ?_⟩
  · have hpending : (indexedWorld.entry ⟨sampleId, fileAB.asPosix⟩).pending = false := by
      decide +kernel
    have hfiled : (⟨sampleId, fileAB.asPosix⟩ : FileKey).filed = ⟨sampleId, fileAB.asPosix⟩ :=
      FileKey.filed_eq_self (by decide)
    rw [World.Leftover, hfiled, hpending]
    simp
  · exact ⟨_, _, _, ⟨rfl, [fileAB, twinAB], [], [twinAB], _, _, _, _, _, _, _, rfl, by decide, rfl,
      rfl, rfl⟩, [], rfl, List.not_mem_nil, List.not_mem_nil⟩
  · intro hsame
    have hcount := congrArg List.length hsame.chunks
    exact absurd hcount (by decide +kernel)
  · rintro q ⟨files, hfound, hq⟩ -
    obtain rfl := Except.ok.inj hfound
    exact List.mem_singleton.mp hq
  · exact ⟨_, _, _, rfl, [fileAB], [], [], _, _, _, _, _, _, _, rfl, by decide, rfl, rfl, rfl⟩
  · intro hsame
    have hcommits := congrArg (List.map CodeChunk.commitSha) hsame.chunks
    exact absurd hcommits (by decide +kernel)

end RepoMesh
