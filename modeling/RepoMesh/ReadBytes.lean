import RepoMesh.RowsMatch

/-!
# The hash and the text of a file

A pass hashes a file and reads it in two steps, and the file may be edited in
between. The hash it stores is that of the first step and the chunks are cut from
what the second one read, so the hash describes the chunks exactly if both saw the
same bytes (`stored_hash_describes_iff`).
-/

namespace RepoMesh

/-- The pass stored rows for the file. -/
def Pass.Stored (h : Hashing) (pass : Pass) (w : World) (path : RelPath) : Prop :=
  ∃ new, (pass.run h w).2.log = new ++ w.log ∧
    .mutated .replaceFileChunks ⟨pass.repositoryId, path.asPosix⟩ ∈ new

/-- The chunk rows of the file are those that the pass cuts from `bytes`. -/
def Pass.CutFrom (h : Hashing) (pass : Pass) (path : RelPath) (bytes : ByteArray)
    (db : IndexDb) : Prop :=
  ∃ vectors, pass.indexer.fileItems h ⟨pass.repositoryId, path.asPosix⟩ pass.tree.commitSha
    (pass.indexer.readText bytes) =
      .ok (db.chunks.rows.filter (·.key = ⟨pass.repositoryId, path.asPosix⟩), vectors)

/-- The hash in the row is that of the bytes the chunk rows were cut from, so that the
chunk rows are those of every file, among `B`, that has this hash. -/
structure Pass.Describes (h : Hashing) (pass : Pass) (path : RelPath) (B : Set ByteArray)
    (row : FileRow) (db : IndexDb) : Prop where
  hash : ∀ content, pass.tree.read path = some content →
    row.sha256 = h.sha256 content ∧ pass.CutFrom h path content db
  current : ∀ bytes ∈ B, h.sha256 bytes = row.sha256 → pass.CutFrom h path bytes db

section

variable {h : Hashing} {pass : Pass} {w : World} {path : RelPath}

/-- Once the pass has stored the file, a row of it has the hash that was taken, and the
chunk rows are those of the bytes that were read. -/
def HashedAndRead (h : Hashing) (pass : Pass) (w : World) (path : RelPath) (w' : World) : Prop :=
  ∃ new, w'.log = new ++ w.log ∧
    (.mutated .replaceFileChunks ⟨pass.repositoryId, path.asPosix⟩ ∈ new →
      ∀ row, (w'.entry ⟨pass.repositoryId, path.asPosix⟩).row = some row →
        ∃ bytes content vectors, pass.tree.hashed path = some bytes ∧
          pass.tree.read path = some content ∧ row.sha256 = h.sha256 bytes ∧
          pass.indexer.fileItems h ⟨pass.repositoryId, path.asPosix⟩ pass.tree.commitSha
            (pass.indexer.readText content) =
              .ok ((w'.entry ⟨pass.repositoryId, path.asPosix⟩).chunks, vectors))

/-- Any change of the entry that gives it neither another hash nor other chunks. -/
theorem HashedAndRead.step {w' w'' : World} (hw : HashedAndRead h pass w path w')
    {entry : LogEntry} (hlog : w''.log = entry :: w'.log)
    (hne : entry ≠ .mutated .replaceFileChunks ⟨pass.repositoryId, path.asPosix⟩)
    (hrow : ∀ row, (w''.entry ⟨pass.repositoryId, path.asPosix⟩).row = some row →
      ∃ row', (w'.entry ⟨pass.repositoryId, path.asPosix⟩).row = some row' ∧
        row.sha256 = row'.sha256 ∧
        ((w''.entry ⟨pass.repositoryId, path.asPosix⟩).chunks =
            (w'.entry ⟨pass.repositoryId, path.asPosix⟩).chunks ∨
          (w''.entry ⟨pass.repositoryId, path.asPosix⟩).chunks =
            (w'.entry ⟨pass.repositoryId, path.asPosix⟩).chunks.map
              (CodeChunk.atCommit pass.tree.commitSha))) :
    HashedAndRead h pass w path w'' := by
  obtain ⟨new, hnew, hstored⟩ := hw
  refine ⟨entry :: new, by rw [hlog, hnew, List.cons_append], fun hmem row hrow' => ?_⟩
  obtain ⟨row', hprev, hsha, hchunks⟩ := hrow row hrow'
  obtain ⟨bytes, content, vectors, hhashed, hread, hsha', hitems⟩ :=
    hstored ((List.mem_cons.mp hmem).resolve_left (Ne.symm hne)) row' hprev
  rcases hchunks with hchunks | hchunks
  · exact ⟨bytes, content, vectors, hhashed, hread, hsha.trans hsha', hchunks ▸ hitems⟩
  · exact ⟨bytes, content, vectors, hhashed, hread, hsha.trans hsha',
      hchunks ▸ fileItems_atCommit pass.tree.commitSha hitems⟩

/-- A step on another file. -/
theorem HashedAndRead.other {w' w'' : World} (hw : HashedAndRead h pass w path w')
    {entry : LogEntry} (hlog : w''.log = entry :: w'.log)
    (hne : entry ≠ .mutated .replaceFileChunks ⟨pass.repositoryId, path.asPosix⟩)
    (hrow : (w''.entry ⟨pass.repositoryId, path.asPosix⟩).row =
      (w'.entry ⟨pass.repositoryId, path.asPosix⟩).row)
    (hchunks : (w''.entry ⟨pass.repositoryId, path.asPosix⟩).chunks =
      (w'.entry ⟨pass.repositoryId, path.asPosix⟩).chunks) :
    HashedAndRead h pass w path w'' :=
  hw.step hlog hne fun row hrow' => ⟨row, hrow ▸ hrow', rfl, Or.inl hchunks⟩

theorem HashedAndRead.other_entry {w' w'' : World} (hw : HashedAndRead h pass w path w')
    {entry : LogEntry} (hlog : w''.log = entry :: w'.log)
    (hne : entry ≠ .mutated .replaceFileChunks ⟨pass.repositoryId, path.asPosix⟩)
    (hentry : w''.entry ⟨pass.repositoryId, path.asPosix⟩ =
      w'.entry ⟨pass.repositoryId, path.asPosix⟩) : HashedAndRead h pass w path w'' :=
  hw.other hlog hne (congrArg Entry.row hentry) (congrArg Entry.chunks hentry)

theorem storage_keeps_hash (hup : pass.Upright path.asPosix) :
    StorageKeeps h pass.indexer pass.repositoryId pass.tree (fun _ => True) pass.Finds
      (HashedAndRead h pass w path) where
  aside := by
    intro w' points entry hentry hw
    have hlog : ({ w' with points := points }.write entry).log = entry :: w'.log := rfl
    refine hw.other hlog ?_ rfl rfl
    rintro rfl
    cases hentry
  delete := by
    intro w' path' _ hw
    by_cases hkey : (⟨pass.repositoryId, path'⟩ : FileKey) = ⟨pass.repositoryId, path.asPosix⟩
    · refine hw.step rfl (by simp) fun row hrow => ?_
      rw [← hkey, w'.entry_deleteFile] at hrow
      cases hrow
    · exact hw.other_entry rfl (by simp) (w'.entry_deleteFile_of_ne hkey)
  finish := fun _ _ hw => hw.other rfl (by simp) rfl rfl
  dirty := by
    intro w' path' _ hw
    by_cases hkey : (⟨pass.repositoryId, path'.asPosix⟩ : FileKey) =
        ⟨pass.repositoryId, path.asPosix⟩
    · refine hw.step rfl (by simp) fun row hrow => ?_
      rw [← hkey, w'.entry_markVectorDirty] at hrow
      obtain ⟨row', hrow', rfl⟩ := Option.map_eq_some_iff.mp hrow
      rw [← hkey, w'.entry_markVectorDirty]
      exact ⟨row', hrow', rfl, Or.inl rfl⟩
    · exact hw.other_entry rfl (by simp) (w'.entry_markVectorDirty_of_ne hkey)
  commit := by
    intro w' path' _ hw
    by_cases hkey : (⟨pass.repositoryId, path'.asPosix⟩ : FileKey) =
        ⟨pass.repositoryId, path.asPosix⟩
    · refine hw.step rfl (by simp) fun row hrow => ?_
      rw [← hkey, w'.entry_updateFileCommit] at hrow
      obtain ⟨row', hrow', rfl⟩ := Option.map_eq_some_iff.mp hrow
      rw [← hkey, w'.entry_updateFileCommit]
      exact ⟨row', hrow', rfl, Or.inr rfl⟩
    · exact hw.other_entry rfl (by simp)
        (w'.entry_updateFileCommit_of_ne pass.tree.commitSha hkey)
  replace := by
    intro w' path' bytes content chunks vectors vectorSynced db hpath hhashed hread hitems hw hdb
    by_cases hkey : (⟨pass.repositoryId, path'.asPosix⟩ : FileKey) =
        ⟨pass.repositoryId, path.asPosix⟩
    · obtain rfl := RelPath.asPosix_injective (congrArg FileKey.path hkey)
      have hplain : '\\' ∉ (⟨pass.repositoryId, path'.asPosix⟩ : FileKey).path.toList :=
        fun hback => (hup path' hpath hback).1 rfl
      obtain ⟨v, hsha, -, hchunks, hentry⟩ := World.entry_afterReplace hplain hitems hdb
      obtain ⟨new, hnew, -⟩ := hw
      refine ⟨.mutated .replaceFileChunks ⟨pass.repositoryId, path'.asPosix⟩ :: new, ?_,
        fun _ row hrow => ?_⟩
      · rw [List.cons_append, ← hnew]
        rfl
      · rw [hentry] at hrow ⊢
        obtain rfl := Option.some.inj hrow
        refine ⟨bytes, content, vectors, hhashed, hread, hsha, ?_⟩
        rw [hitems, ← hchunks]
        rfl
    · have hother := key_ne_of_mem_fileItems (fun _ => hup.noTwin) hpath hkey hitems
      exact hw.other_entry rfl (by simpa using hkey)
        (w'.entry_replaceFileChunks_of_ne hkey hother hdb)

end

/-- The row that a pass left of a file it stored describes the file's chunk rows, iff
the file was read as it was hashed. -/
theorem stored_hash_describes_iff (h : Hashing) (pass : Pass) (w : World) (path : RelPath)
    (hup : pass.Upright path.asPosix) (hstored : pass.Stored h w path) (row : FileRow)
    (hrow : (pass.run h w).2.db.files.get? ⟨pass.repositoryId, path.asPosix⟩ = some row)
    (B : Set ByteArray) (hB : Set.InjOn h.sha256 B)
    (hmem : ∀ bytes, pass.tree.hashed path = some bytes ∨ pass.tree.read path = some bytes →
      bytes ∈ B) :
    pass.Describes h path B row (pass.run h w).2.db ↔
      pass.tree.hashed path = pass.tree.read path := by
  have hkept : HashedAndRead h pass w path (pass.run h w).2 :=
    (index_keeps (P := HashedAndRead h pass w path) pass.mode
      (fun w' hw => hw.other rfl (by simp) rfl rfl) (storage_keeps_hash hup)).run
      ⟨[], rfl, fun hnil => absurd hnil List.not_mem_nil⟩ pass.fates
  obtain ⟨new, hnew, hmutated⟩ := hstored
  obtain ⟨new', hnew', hread⟩ := hkept
  obtain rfl := List.append_cancel_right (hnew.symm.trans hnew')
  obtain ⟨bytes, content, vectors, hhashed, hread, hsha, hitems⟩ := hread hmutated row hrow
  have hbytes := hmem bytes (Or.inl hhashed)
  have hcontent := hmem content (Or.inr hread)
  constructor
  · intro hdescribes
    rw [hhashed, hread, hB hbytes hcontent (hsha.symm.trans (hdescribes.hash content hread).1)]
  · intro heq
    obtain rfl := Option.some.inj (hhashed.symm.trans (heq.trans hread))
    refine ⟨fun content' hread' => ?_, fun bytes' hbytes' hsha' => ?_⟩
    · obtain rfl := Option.some.inj (hread.symm.trans hread')
      exact ⟨hsha, vectors, hitems⟩
    · obtain rfl := hB hbytes' hbytes (hsha'.trans hsha)
      exact ⟨vectors, hitems⟩

/-- A full pass over a file that does not change. -/
theorem stored_hash_describes_one :
    (samplePass .full "c1" [fileAB] []).Describes indexHashing fileAB {"one\n".toUTF8}
      ⟨sampleId, "a/b", oneFile, "c1", 1, true⟩
      ((samplePass .full "c1" [fileAB] []).run indexHashing sampleWorld).2.db := by
  refine (stored_hash_describes_iff indexHashing (samplePass .full "c1" [fileAB] []) sampleWorld
    fileAB ?_ ⟨((samplePass .full "c1" [fileAB] []).run indexHashing sampleWorld).2.log,
      (List.append_nil _).symm, by decide +kernel⟩ _ (by decide +kernel) _
    (Set.injOn_singleton _ _) ?_).mpr rfl
  · intro q hq hback
    obtain ⟨files, hfound, hmem⟩ := hq
    obtain rfl := Except.ok.inj hfound
    obtain rfl := List.mem_singleton.mp hmem
    exact absurd hback (by decide)
  · rintro bytes (hbytes | hbytes)
    · exact (Option.some.inj hbytes).symm
    · exact (Option.some.inj hbytes).symm

/-! ### An edit that is reverted -/

/-- The file is hashed as "one", edited, read as "two", and reverted after that. -/
def editedPass : Pass where
  indexer := lineIndexer
  repositoryId := sampleId
  mode := .full
  tree :=
    { commitSha := "c1"
      found := .ok [fileAB]
      hashed := fun _ => some "one\n".toUTF8
      read := fun _ => some "two\n".toUTF8 }
  fates := []

def editedWorld : World := (editedPass.run indexHashing sampleWorld).2

theorem reachable_editedWorld : (indexing indexHashing).Reachable editedWorld :=
  ⟨sampleWorld, [editedPass], ⟨rfl, rfl, rfl, rfl, rfl⟩, .single rfl⟩

/-- The row has the hash of "one", the chunk is "two", and the next pass skips the file,
which reads "one" again. -/
theorem stored_hash_edited :
    (indexing indexHashing).Reachable editedWorld ∧
      editedPass.Stored indexHashing sampleWorld fileAB ∧
      editedWorld.db.files.rows.map (fun r => (r.path, r.sha256)) =
        [("a/b", indexHashing.sha256 "one\n".toUTF8)] ∧
      indexHashing.sha256 "one\n".toUTF8 ≠ indexHashing.sha256 "two\n".toUTF8 ∧
      editedWorld.db.chunks.rows.map (fun c => (c.filePath, c.content)) = [("a/b", "two")] ∧
      ((samplePass .incremental "c2" [fileAB] []).run indexHashing
        editedWorld).2.db.chunks.rows.map (fun c => (c.filePath, c.content)) =
          [("a/b", "two")] ∧
      ¬ ∀ row, editedWorld.db.files.get? ⟨sampleId, "a/b"⟩ = some row →
        editedPass.Describes indexHashing fileAB {"one\n".toUTF8, "two\n".toUTF8} row
          editedWorld.db := by
  refine ⟨reachable_editedWorld, ⟨editedWorld.log, (List.append_nil _).symm, by decide +kernel⟩,
    by decide +kernel, by decide +kernel, by decide +kernel, by decide +kernel, fun hdescribes => ?_⟩
  have hrow : editedWorld.db.files.get? ⟨sampleId, "a/b"⟩ =
      some ⟨sampleId, "a/b", oneFile, "c1", 1, true⟩ := by
    decide +kernel
  exact absurd ((hdescribes _ hrow).hash _ rfl).1 (by decide +kernel)

end RepoMesh
