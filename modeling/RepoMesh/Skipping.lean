import RepoMesh.IndexRefines

/-!
# A skipped file is never stale

After any history of passes, wherever the last one was cut off, a file with a synced
row and no tombstone has in the vector store exactly the points of its chunk rows:
this is what lets an incremental pass skip it. It needs that no other file of the
repository is stored under the same path, which a file whose name holds a backslash
can be.
-/

namespace RepoMesh

/-! ## The points of a skipped file -/

/-- At every point of every history, a file whose row is synced and that has no
tombstone has exactly the points of its chunk rows, provided no working tree of its
repository held a twin: another file whose path reads the same once backslashes are
turned into slashes. -/
theorem skipped_file_matches (h : Hashing) (history : List Pass) (w₀ w : World)
    (hfresh : w₀.Fresh) (hrun : (indexing h).Run w₀ history w)
    (huuid : Set.InjOn h.uuid5 (identities h history)) (repositoryId : Uuid) (path : String)
    (hpath : '\\' ∉ path.toList)
    (hno : ∀ pass ∈ history, pass.repositoryId = repositoryId → pass.NoTwin path)
    (row : FileRow) (hrow : w.db.files.get? ⟨repositoryId, path⟩ = some row)
    (hsynced : row.vectorSynced = true)
    (hpending : w.db.pending.get? ⟨repositoryId, path⟩ = none) (id : Uuid) :
    (∃ p ∈ w.points.rows, p.key = ⟨repositoryId, path⟩ ∧ p.id = id) ↔
      ∃ c ∈ w.db.chunks.rows, c.key = ⟨repositoryId, path⟩ ∧ c.id = id := by
  have hok := entry_ok (k := ⟨repositoryId, path⟩) hfresh hrun fun pass hpass =>
    ⟨hpass, huuid, fun _ _ _ => hpath, hno pass hpass⟩
  have hsync : (w.entry ⟨repositoryId, path⟩).Synced :=
    ⟨⟨row, hrow, hsynced⟩, by simp [World.entry, hpending]⟩
  have hids : id ∈ (w.entry ⟨repositoryId, path⟩).pointIds ↔
      id ∈ (w.entry ⟨repositoryId, path⟩).chunkIds := by rw [hok.matched hsync]
  simpa [and_assoc] using hids

/-! ### A repository with one file, and its twin -/

def sampleId : Uuid := ⟨"4ec38a97-8ddd-5515-a93b-30efd4b834f4", by decide⟩

def oneText : HexDigest :=
  ⟨"7692c3ad3540bb803c020b3aee66cd8887123234ea0c6e7143c0add73ff431ed", by decide⟩

def twoText : HexDigest :=
  ⟨"3fc4ccfe745870e2c0d99f71f30ff0656c8dedd41cc1d7d3d376b0dbe685e2f3", by decide⟩

def oneFile : HexDigest :=
  ⟨"2c8b08da5ce60398e1f19af0e5dccc744df274b826abe585eaba68c525434806", by decide⟩

/-- The SHA-256 of the four texts below, and the UUIDs of their chunks' names. -/
def indexHashing : Hashing where
  sha256 bytes :=
    if bytes.data = "one".toUTF8.data then oneText
    else if bytes.data = "two".toUTF8.data then twoText
    else if bytes.data = "one\n".toUTF8.data then oneFile
    else ⟨"27dd8ed44a83ff94d557f9fd0412ed5a8cbca69ea04922d88c01184a07300a5a", by decide⟩
  uuid5 name :=
    if name = sampleId.text ++ ":a/b:1:1:" ++ oneText.text then
      ⟨"45805225-fafc-5e8f-aaf0-7e3933529c57", by decide⟩
    else ⟨"93e8a36b-dc3a-5ac4-8837-f50b46a84d83", by decide⟩

/-- Every file is one chunk, its first line. -/
def lineIndexer : Indexer where
  chunker :=
    { languageFor := fun _ => "text"
      spans := fun _ _ => [⟨1, 1, none, none, "line-fallback"⟩]
      importsJson := fun _ => "[]" }
  embedder := ⟨"deterministic-hash", "1", fun texts => texts.map fun _ => "[0.0]"⟩
  readText bytes := String.ofList (bytes.data.toList.map fun b => Char.ofNat b.toNat)

def fileAB : RelPath := ⟨["a", "b"], by decide, by decide, by decide⟩

def twinAB : RelPath := ⟨["a\\b"], by decide, by decide, by decide⟩

/-- A tree in which the file in the directory reads "one" and all others "two". -/
def sampleTree (commitSha : String) (files : List RelPath) : Tree where
  commitSha := commitSha
  found := .ok files
  hashed path := some (if path = fileAB then "one\n" else "two\n").toUTF8
  read path := some (if path = fileAB then "one\n" else "two\n").toUTF8

def sampleWorld : World where
  db :=
    { repositories := (Table.empty _).insertNew ⟨sampleId, "/repo", "UNCOMMITTED", "registered"⟩
      files := Table.empty _
      chunks := Table.empty _
      pending := Table.empty _ }
  points := Table.empty _
  log := []

def samplePass (mode : Mode) (commitSha : String) (files : List RelPath) (fates : List Fate) :
    Pass :=
  ⟨lineIndexer, sampleId, mode, sampleTree commitSha files, fates⟩

/-- A pass that only finds the file in the directory. -/
def FindsOnlyAB (pass : Pass) : Prop :=
  ∃ mode commitSha files fates, pass = samplePass mode commitSha files fates ∧
    ∀ q ∈ files, q = fileAB

theorem eq_of_findsOnlyAB {pass : Pass} (h : FindsOnlyAB pass) {q : RelPath}
    (hq : pass.Finds q) : q = fileAB := by
  obtain ⟨mode, commitSha, files, fates, rfl, hfiles⟩ := h
  obtain ⟨files', hfound, hmem⟩ := hq
  obtain rfl := Except.ok.inj hfound
  exact hfiles q hmem

theorem identity_fileAB :
    identity sampleId fileAB.asPosix ⟨1, 1, none, none, "line-fallback"⟩
        (indexHashing.sha256 (selected (lineIndexer.readText "one\n".toUTF8)
          ⟨1, 1, none, none, "line-fallback"⟩).toUTF8) =
      identity sampleId "a/b" ⟨1, 1, none, none, "line-fallback"⟩ oneText := by
  decide +kernel

/-- All chunks of such passes have one name. -/
theorem injOn_of_findsOnlyAB {history : List Pass} (h : ∀ pass ∈ history, FindsOnlyAB pass) :
    Set.InjOn indexHashing.uuid5 (identities indexHashing history) := by
  have hname : ∀ name ∈ identities indexHashing history,
      name = identity sampleId "a/b" ⟨1, 1, none, none, "line-fallback"⟩ oneText := by
    rintro name ⟨pass, hpass, path, hpath, bytes, span, hread, hspan, rfl⟩
    obtain rfl := eq_of_findsOnlyAB (h pass hpass) hpath
    obtain ⟨mode, commitSha, files, fates, rfl, -⟩ := h pass hpass
    obtain rfl := Option.some.inj hread
    obtain rfl := List.mem_singleton.mp hspan
    exact identity_fileAB
  intro name hmem name' hmem' _
  rw [hname name hmem, hname name' hmem']

/-- A full pass and a skip after it. -/
theorem skipped_file_matches_after_skip :
    let w := ((samplePass .incremental "c2" [fileAB] []).run indexHashing
      ((samplePass .full "c1" [fileAB] []).run indexHashing sampleWorld).2).2
    let id : Uuid := ⟨"45805225-fafc-5e8f-aaf0-7e3933529c57", by decide⟩
    (∃ p ∈ w.points.rows, p.key = ⟨sampleId, "a/b"⟩ ∧ p.id = id) ↔
      ∃ c ∈ w.db.chunks.rows, c.key = ⟨sampleId, "a/b"⟩ ∧ c.id = id := by
  have honly : ∀ pass ∈ [samplePass .full "c1" [fileAB] [], samplePass .incremental "c2" [fileAB] []],
      FindsOnlyAB pass := by
    intro pass hpass
    rcases List.mem_pair.mp hpass with rfl | rfl
    · exact ⟨_, _, _, _, rfl, by simp⟩
    · exact ⟨_, _, _, _, rfl, by simp⟩
  refine skipped_file_matches indexHashing _ sampleWorld _ ⟨rfl, rfl, rfl, rfl, rfl⟩
    (.cons rfl (.cons rfl (.nil _))) (injOn_of_findsOnlyAB honly) sampleId "a/b" (by decide) ?_
    ⟨sampleId, "a/b", oneFile, "c2", 1, true⟩ (by decide +kernel) rfl (by decide +kernel) _
  intro pass hpass _ q hq _
  rw [eq_of_findsOnlyAB (honly pass hpass) hq]
  decide

/-- The incremental pass that is cut off while the twin's points are stored. -/
def twinPass : Pass :=
  samplePass .incremental "c2" [fileAB, twinAB]
    (List.replicate 22 .goes ++ [.raises .crash []])

/-- A file named `a\b` is stored under `a/b`: cut off between its points and its rows,
a pass leaves the synced file `a/b` with a point too many. -/
theorem skipped_file_mismatch_with_twin :
    ¬ ∀ (h : Hashing) (history : List Pass) (w₀ w : World), w₀.Fresh →
      (indexing h).Run w₀ history w → ∀ (repositoryId : Uuid) (path : String),
      '\\' ∉ path.toList → ∀ row, w.db.files.get? ⟨repositoryId, path⟩ = some row →
      row.vectorSynced = true → w.db.pending.get? ⟨repositoryId, path⟩ = none → ∀ id,
      (∃ p ∈ w.points.rows, p.key = ⟨repositoryId, path⟩ ∧ p.id = id) ↔
        ∃ c ∈ w.db.chunks.rows, c.key = ⟨repositoryId, path⟩ ∧ c.id = id := by
  intro hclaim
  have hmatch := hclaim indexHashing [samplePass .full "c1" [fileAB] [], twinPass] sampleWorld _
    ⟨rfl, rfl, rfl, rfl, rfl⟩ (.cons rfl (.cons rfl (.nil _))) sampleId "a/b" (by decide)
    ⟨sampleId, "a/b", oneFile, "c2", 1, true⟩ (by decide +kernel) rfl (by decide +kernel)
    ⟨"93e8a36b-dc3a-5ac4-8837-f50b46a84d83", by decide⟩
  exact absurd hmatch (by decide +kernel)

end RepoMesh
