import RepoMesh.IndexKeeps
import RepoMesh.Skipping

/-!
# Manifest and chunk rows

The manifest counts the chunk rows of a path and names their commit. Every storage
call that a pass makes keeps the two in step (`Entry.Matches`), except for a file
with a backslash in its path: it is entered under its own path, and its chunks under
the path with slashes.
-/

namespace RepoMesh

/-- Row and chunk rows of a path belong together. -/
def IndexDb.Matches (db : IndexDb) (k : FileKey) : Prop :=
  (∀ row, db.files.get? k = some row →
    row.chunkCount = (db.chunks.rows.filter (·.key = k)).length ∧
      ∀ c ∈ db.chunks.rows, c.key = k → c.commitSha = row.commitSha) ∧
  (db.files.get? k = none → ∀ c ∈ db.chunks.rows, c.key ≠ k)

/-- No file that the pass found and that has a backslash in its path is entered under
`path` or has its chunks there. -/
def Pass.Upright (pass : Pass) (path : String) : Prop :=
  ∀ q, pass.Finds q → '\\' ∈ q.asPosix.toList → q.asPosix ≠ path ∧ slashed q.asPosix ≠ path

theorem Pass.Upright.noTwin {pass : Pass} {path : String} (h : pass.Upright path) :
    pass.NoTwin path := by
  intro q hq hpath
  by_cases hback : '\\' ∈ q.asPosix.toList
  · exact absurd hpath (h q hq hback).2
  · rwa [slashed_eq_self hback] at hpath

/-- The same of an entry. -/
structure Entry.Matches (e : Entry) : Prop where
  count : ∀ r, e.row = some r → r.chunkCount = e.chunks.length
  commit : ∀ r, e.row = some r → ∀ c ∈ e.chunks, c.commitSha = r.commitSha
  none : e.row = none → e.chunks = []

namespace Entry.Matches

variable {e : Entry}

theorem deleteFile (e : Entry) : e.deleteFile.Matches where
  count := fun _ hr => absurd hr (by simp [Entry.deleteFile])
  commit := fun _ hr => absurd hr (by simp [Entry.deleteFile])
  none := fun _ => rfl

theorem markDirty (h : e.Matches) : e.markDirty.Matches where
  count := by
    intro r hr
    obtain ⟨r', hr', rfl⟩ := Option.map_eq_some_iff.mp hr
    exact h.count r' hr'
  commit := by
    intro r hr
    obtain ⟨r', hr', rfl⟩ := Option.map_eq_some_iff.mp hr
    exact h.commit r' hr'
  none := fun hr => h.none (Option.map_eq_none_iff.mp hr)

theorem updateCommit (h : e.Matches) (commitSha : String) :
    (e.updateCommit commitSha).Matches where
  count := by
    intro r hr
    obtain ⟨r', hr', rfl⟩ := Option.map_eq_some_iff.mp hr
    rw [Entry.updateCommit, List.length_map]
    exact h.count r' hr'
  commit := by
    intro r hr c hc
    obtain ⟨r', -, rfl⟩ := Option.map_eq_some_iff.mp hr
    obtain ⟨c', -, rfl⟩ := List.mem_map.mp hc
    rfl
  none := by
    intro hr
    rw [Entry.updateCommit, h.none (Option.map_eq_none_iff.mp hr), List.map_nil]

theorem replace {key : FileKey} {v : Version key} (hv : ∀ c ∈ v.chunks, c.commitSha = v.commitSha)
    (vectorSynced : Bool) : (e.replace v vectorSynced).Matches where
  count := fun _ hr => Option.some.inj hr ▸ rfl
  commit := fun _ hr c hc => Option.some.inj hr ▸ hv c hc
  none := fun hr => absurd hr (by simp [Entry.replace])

end Entry.Matches

theorem matches_of_entry {w : World} {k : FileKey} (h : (w.entry k).Matches) :
    w.db.Matches k := by
  refine ⟨fun row hrow => ⟨h.count row hrow, fun c hc hkey => ?_⟩, fun hrow c hc hkey => ?_⟩
  · exact h.commit row hrow c (World.mem_entry_chunks.mpr ⟨hc, hkey⟩)
  · have hmem := World.mem_entry_chunks.mpr ⟨hc, hkey⟩
    rw [h.none hrow] at hmem
    cases hmem

section

variable {h : Hashing} {pass : Pass} {k : FileKey}

/-- Stored chunks have the commit of the pass. -/
theorem commit_of_mem_fileItems {ix : Indexer} {key : FileKey} {commitSha content : String}
    {chunks : List CodeChunk} {vectors : List String}
    (hitems : ix.fileItems h key commitSha content = .ok (chunks, vectors)) {c : CodeChunk}
    (hc : c ∈ chunks) : c.commitSha = commitSha := by
  obtain ⟨span, -, vector, rfl⟩ := mem_fileItems hitems hc
  rfl

/-- Every storage call of a pass keeps row and chunk rows together. -/
theorem storage_keeps_matches
    (hup : pass.repositoryId = k.repositoryId → pass.Upright k.path) :
    StorageKeeps h pass.indexer pass.repositoryId pass.tree (fun _ => True) pass.Finds
      fun w => (w.entry k).Matches where
  aside := fun w points entry _ hw => ⟨hw.count, hw.commit, hw.none⟩
  delete := by
    intro w path _ hw
    by_cases hkey : (⟨pass.repositoryId, path⟩ : FileKey) = k
    · subst hkey
      rw [w.entry_deleteFile]
      exact .deleteFile _
    · rwa [w.entry_deleteFile_of_ne hkey]
  finish := by
    intro w key hw
    by_cases hkey : key = k
    · subst hkey
      rw [w.entry_finishVectorDeletion]
      exact ⟨hw.count, hw.commit, hw.none⟩
    · rwa [w.entry_finishVectorDeletion_of_ne hkey]
  dirty := by
    intro w path _ hw
    by_cases hkey : (⟨pass.repositoryId, path.asPosix⟩ : FileKey) = k
    · subst hkey
      rw [w.entry_markVectorDirty]
      exact hw.markDirty
    · rwa [w.entry_markVectorDirty_of_ne hkey]
  commit := by
    intro w path _ hw
    by_cases hkey : (⟨pass.repositoryId, path.asPosix⟩ : FileKey) = k
    · subst hkey
      rw [w.entry_updateFileCommit]
      exact hw.updateCommit _
    · rwa [w.entry_updateFileCommit_of_ne _ hkey]
  replace := by
    intro w path bytes content chunks vectors vectorSynced db hpath _ _ hitems hw hdb
    by_cases hkey : (⟨pass.repositoryId, path.asPosix⟩ : FileKey) = k
    · subst hkey
      have hplain : '\\' ∉ path.asPosix.toList := fun hback =>
        (hup rfl path hpath hback).1 rfl
      obtain ⟨v, -, hcommit, hchunks, hentry⟩ := World.entry_afterReplace hplain hitems hdb
      rw [hentry]
      refine .replace (fun c hc => ?_) vectorSynced
      rw [hcommit]
      exact commit_of_mem_fileItems hitems (hchunks ▸ hc)
    · have hother := key_ne_of_mem_fileItems (fun hrepo => (hup hrepo).noTwin) hpath hkey hitems
      rwa [World.afterReplace, w.entry_replaceFileChunks_of_ne hkey hother hdb]

/-- The step lemma. -/
theorem pass_keeps_matches (hup : pass.repositoryId = k.repositoryId → pass.Upright k.path)
    {w : World} (hw : (w.entry k).Matches) : ((pass.run h w).2.entry k).Matches :=
  (index_keeps pass.mode (fun _ hw => ⟨hw.count, hw.commit, hw.none⟩)
    (storage_keeps_matches hup)).run hw pass.fates

end

/-- At every point of every history, the manifest counts the chunk rows of a path and
names their commit, provided no file with a backslash in its path was found that is
entered under the path or has its chunks there. -/
theorem manifest_matches_chunks (h : Hashing) (history : List Pass) (w₀ w : World)
    (hfresh : w₀.Fresh) (hrun : (indexing h).Run w₀ history w) (k : FileKey)
    (hup : ∀ pass ∈ history, pass.repositoryId = k.repositoryId → pass.Upright k.path) :
    w.db.Matches k := by
  have habsent : (w₀.entry k).Matches := by
    rw [entry_of_fresh hfresh]
    exact ⟨fun _ hr => absurd hr (by simp [Entry.absent]),
      fun _ hr => absurd hr (by simp [Entry.absent]), fun _ => rfl⟩
  exact matches_of_entry (passes_keep (P := fun w => (w.entry k).Matches) hrun
    (fun pass hpass _ hw => pass_keeps_matches (hup pass hpass) hw) habsent)

/-- A full pass over one file. -/
theorem manifest_matches_chunks_one :
    ((samplePass .full "c1" [fileAB] []).run indexHashing sampleWorld).2.db.Matches
      ⟨sampleId, "a/b"⟩ := by
  refine manifest_matches_chunks indexHashing [samplePass .full "c1" [fileAB] []] sampleWorld _
    ⟨rfl, rfl, rfl, rfl, rfl⟩ (.cons rfl (.nil _)) ⟨sampleId, "a/b"⟩ ?_
  intro pass hpass _ q hq hback
  obtain rfl := List.mem_singleton.mp hpass
  obtain ⟨files, hfound, hmem⟩ := hq
  obtain rfl := Except.ok.inj hfound
  obtain rfl := List.mem_singleton.mp hmem
  exact absurd hback (by decide)

/-- What a full pass over a file named `a\b` leaves. -/
def backslashWorld : World := ((samplePass .full "c1" [twinAB] []).run indexHashing sampleWorld).2

theorem reachable_backslashWorld : (indexing indexHashing).Reachable backslashWorld :=
  ⟨sampleWorld, _, ⟨rfl, rfl, rfl, rfl, rfl⟩, .single rfl⟩

/-- The file is entered as `a\b`, and its chunk as one of `a/b`. -/
theorem manifest_mismatch_backslash :
    (indexing indexHashing).Reachable backslashWorld ∧
      backslashWorld.db.files.rows.map (fun r => (r.path, r.chunkCount)) = [("a\\b", 1)] ∧
      backslashWorld.db.chunks.rows.map (·.filePath) = ["a/b"] ∧
      ¬ backslashWorld.db.Matches ⟨sampleId, "a\\b"⟩ ∧
      ¬ backslashWorld.db.Matches ⟨sampleId, "a/b"⟩ := by
  refine ⟨reachable_backslashWorld, by decide +kernel, by decide +kernel, ?_, ?_⟩
  · rintro ⟨hrow, -⟩
    have hcount : (backslashWorld.db.files.get? ⟨sampleId, "a\\b"⟩).all
        (fun row => row.chunkCount = (backslashWorld.db.chunks.rows.filter
          (·.key = ⟨sampleId, "a\\b"⟩)).length) = true := by
      rw [Option.all_eq_true]
      exact fun row h => decide_eq_true (hrow row h).1
    exact absurd hcount (by decide +kernel)
  · rintro ⟨-, hnone⟩
    have hchunks : ∀ c ∈ backslashWorld.db.chunks.rows, c.key ≠ ⟨sampleId, "a/b"⟩ :=
      hnone (by decide +kernel)
    exact absurd hchunks (by decide +kernel)

end RepoMesh
