import RepoMesh.Discover
import RepoMesh.IndexStore

/-!
# The watcher's two fingerprints

`repository_fingerprint` digests a working tree in the order `discover_files` lists
it; `RepositoryWatcher.run_once` digests the manifest in the order of its path
strings. The bytes determine the commit and the pairs of path and hash, whatever
their order (`digestInput_injective`); the two orders are the same unless two files
of the tree clash.
-/

namespace RepoMesh

/-- What both functions feed the digest: the commit, then for each file its path
between two NULs and the hash of its content. -/
def digestInput (commit : String) (entries : List (String × HexDigest)) : ByteArray :=
  entries.foldl
    (fun bytes e =>
      bytes ++ ("\x00".toUTF8 ++ e.1.toUTF8 ++ "\x00".toUTF8) ++ e.2.text.toUTF8)
    commit.toUTF8

def Checkout.fileSha256 (h : Hashing) (co : Checkout) (path : RelPath) :
    Except ScanError HexDigest :=
  match co.read path with
  | none => .error (.osError path)
  | some bytes => .ok (h.sha256 bytes)

def Checkout.scanFile (h : Hashing) (co : Checkout) (path : RelPath) :
    Except ScanError (RelPath × HexDigest) :=
  (co.fileSha256 h path).map fun digest => (path, digest)

/-- The discovered files with the hash of each, as `repository_fingerprint` meets
them. -/
def Checkout.scan (h : Hashing) (co : Checkout) (maxBytes : Nat) :
    Except ScanError (List (RelPath × HexDigest)) :=
  (co.discoverFiles maxBytes).bind fun files => files.mapM (co.scanFile h)

def posixEntries (scanned : List (RelPath × HexDigest)) : List (String × HexDigest) :=
  scanned.map fun f => (f.1.asPosix, f.2)

/-- What `repository_fingerprint` feeds the digest. -/
def Checkout.treeInput (co : Checkout) (scanned : List (RelPath × HexDigest)) : ByteArray :=
  digestInput co.currentCommit (posixEntries scanned)

def repositoryFingerprint (h : Hashing) (co : Checkout) (maxBytes : Nat) :
    Except ScanError HexDigest :=
  (co.scan h maxBytes).map fun scanned => h.sha256 (co.treeInput scanned)

/-- The manifest's pairs of path and hash. -/
def IndexDb.entries (db : IndexDb) (repositoryId : Uuid) : List (String × HexDigest) :=
  (db.fileManifest repositoryId).map fun r => (r.path, r.sha256)

/-- What `run_once` feeds the digest for a repository row. -/
def indexedInput (db : IndexDb) (repository : RepositoryRow) : ByteArray :=
  digestInput repository.commitSha (sortBy Prod.fst (db.entries repository.id))

/-- The `indexed` digest of `run_once`. -/
def indexedFingerprint (h : Hashing) (db : IndexDb) (repository : RepositoryRow) : HexDigest :=
  h.sha256 (indexedInput db repository)

/-- The manifest and the repository row record the commit and the files of a scan. -/
def Records (db : IndexDb) (repository : RepositoryRow) (co : Checkout)
    (scanned : List (RelPath × HexDigest)) : Prop :=
  repository.commitSha = co.currentCommit ∧
    (db.entries repository.id).Perm (posixEntries scanned)

theorem posixEntries_injective : Function.Injective posixEntries := by
  refine List.map_injective_iff.mpr fun f g h => ?_
  obtain ⟨hpath, hhash⟩ := Prod.mk.inj h
  exact Prod.ext (RelPath.asPosix_injective hpath) hhash

/-! ## The bytes determine commit and entries -/

/-- The pieces that the NULs of the digested text separate. -/
def digestPieces (commit : String) (entries : List (String × HexDigest)) :
    List (List Char) :=
  commit.toList :: entries.flatMap fun e => [e.1.toList, e.2.text.toList]

theorem intercalate_cons_append (sep : Char) (x : List Char) (xs : List (List Char)) :
    [sep].intercalate (x :: xs) = x ++ xs.flatMap fun y => sep :: y := by
  induction xs generalizing x with
  | nil => simp
  | cons y xs ih =>
      rw [intercalate_cons_cons_eq x (List.cons_ne_nil y xs), ih, List.flatMap_cons,
        List.cons_append]

theorem digestInput_eq (commit : String) (entries : List (String × HexDigest)) :
    digestInput commit entries =
      (String.ofList ([nul].intercalate (digestPieces commit entries))).toUTF8 := by
  rw [digestPieces, intercalate_cons_append]
  induction entries generalizing commit with
  | nil => simp [digestInput]
  | cons e es ih =>
      have hstep : digestInput commit (e :: es) =
          digestInput (commit ++ "\x00" ++ e.1 ++ "\x00" ++ e.2.text) es := by
        simp [digestInput, String.toByteArray_append, ByteArray.append_assoc]
      rw [hstep, ih]
      have hnul : "\x00".toList = [nul] := by decide
      simp [hnul]

theorem sepFree_digestPieces {commit : String} {entries : List (String × HexDigest)}
    (hcommit : nul ∉ commit.toList) (hpaths : ∀ e ∈ entries, nul ∉ e.1.toList) :
    SepFree nul (digestPieces commit entries) := by
  intro x hx
  rcases List.mem_cons.mp hx with rfl | hx
  · exact hcommit
  · obtain ⟨e, he, hx⟩ := List.mem_flatMap.mp hx
    rcases List.mem_cons.mp hx with rfl | hx
    · exact hpaths e he
    · rw [List.mem_singleton] at hx
      rw [hx]
      exact fun hmem => absurd (List.all_eq_true.mp e.2.hex nul hmem) (by decide)

theorem digestPieces_injective {commit commit' : String}
    {entries entries' : List (String × HexDigest)}
    (h : digestPieces commit entries = digestPieces commit' entries') :
    commit = commit' ∧ entries = entries' := by
  obtain ⟨hcommit, hrest⟩ := List.cons.inj h
  refine ⟨String.toList_inj.mp hcommit, ?_⟩
  clear h hcommit
  induction entries generalizing entries' with
  | nil => cases entries' <;> simp_all
  | cons e es ih =>
      cases entries' with
      | nil => simp at hrest
      | cons e' es' =>
          simp only [List.flatMap_cons, List.cons_append, List.nil_append, List.cons.injEq,
            String.toList_inj] at hrest
          obtain ⟨hpath, hhash, htail⟩ := hrest
          have hdigest : e.2 = e'.2 := by
            cases hd : e.2
            cases hd' : e'.2
            simp_all
          rw [ih htail, Prod.ext hpath hdigest]

/-- The digested bytes determine the commit and the entries in their order. -/
theorem digestInput_injective {commit commit' : String}
    {entries entries' : List (String × HexDigest)}
    (hcommit : nul ∉ commit.toList) (hpaths : ∀ e ∈ entries, nul ∉ e.1.toList)
    (hcommit' : nul ∉ commit'.toList) (hpaths' : ∀ e ∈ entries', nul ∉ e.1.toList)
    (h : digestInput commit entries = digestInput commit' entries') :
    commit = commit' ∧ entries = entries' := by
  rw [digestInput_eq, digestInput_eq, String.toUTF8_eq_toByteArray,
    String.toUTF8_eq_toByteArray, String.toByteArray_inj] at h
  refine digestPieces_injective ?_
  exact (sepFree_digestPieces hcommit hpaths).intercalate_inj
    (sepFree_digestPieces hcommit' hpaths') (List.cons_ne_nil _ _) (List.cons_ne_nil _ _)
    (String.ofList_injective h)

/-! ## The two orders -/

theorem map_fst_of_mapM {h : Hashing} {co : Checkout} {files : List RelPath}
    {scanned : List (RelPath × HexDigest)}
    (hscan : files.mapM (co.scanFile h) = .ok scanned) : scanned.map Prod.fst = files := by
  induction files generalizing scanned with
  | nil =>
      obtain rfl := Except.ok.inj hscan
      rfl
  | cons path files ih =>
      rw [List.mapM_cons, Checkout.scanFile] at hscan
      cases hd : co.fileSha256 h path with
      | error e => simp [hd, Except.map, bind, Except.bind] at hscan
      | ok digest =>
          cases hrest : files.mapM (co.scanFile h) with
          | error e => simp [hd, hrest, Except.map, bind, Except.bind] at hscan
          | ok rest =>
              rw [hd, hrest] at hscan
              obtain rfl := Except.ok.inj hscan
              rw [List.map_cons, ih hrest]

/-- A scan lists its files in `Path` order. -/
theorem sorted_of_scan {h : Hashing} {co : Checkout} {maxBytes : Nat}
    {scanned : List (RelPath × HexDigest)} (hscan : co.scan h maxBytes = .ok scanned) :
    sortBy (fun f => f.1.key) scanned = scanned := by
  rw [Checkout.scan] at hscan
  cases hfiles : co.discoverFiles maxBytes with
  | error e => simp [hfiles, Except.bind] at hscan
  | ok files =>
      rw [hfiles, Except.bind] at hscan
      have hpaths : scanned.map Prod.fst = files := map_fst_of_mapM hscan
      have hsorted := sortBy_pairwise RelPath.key files
      rw [Checkout.sortBy_discoverFiles hfiles, ← hpaths, List.pairwise_map] at hsorted
      exact hsorted.insertionSort_eq

/-- The manifest of a recorded scan is digested in the order of the path strings. -/
theorem indexedInput_eq {db : IndexDb} {repository : RepositoryRow} {co : Checkout}
    {scanned : List (RelPath × HexDigest)} (hdistinct : (scanned.map Prod.fst).Nodup)
    (h : Records db repository co scanned) :
    indexedInput db repository =
      co.treeInput (sortBy (fun f => f.1.asPosix) scanned) := by
  obtain ⟨hcommit, hperm⟩ := h
  have hinj : ∀ a ∈ posixEntries scanned, ∀ b ∈ posixEntries scanned, a.1 = b.1 → a = b := by
    intro a ha b hb hab
    obtain ⟨f, hf, rfl⟩ := List.mem_map.mp ha
    obtain ⟨g, hg, rfl⟩ := List.mem_map.mp hb
    rw [List.inj_on_of_nodup_map hdistinct hf hg (RelPath.asPosix_injective hab)]
  have hsort : sortBy Prod.fst (db.entries repository.id) =
      sortBy Prod.fst (posixEntries scanned) :=
    (sortBy_eq_iff Prod.fst Prod.fst hperm hinj hinj).mpr fun _ _ _ _ => id
  have hmap : sortBy Prod.fst (posixEntries scanned) =
      posixEntries (sortBy (fun f => f.1.asPosix) scanned) :=
    (sortBy_map Prod.fst (fun f : RelPath × HexDigest => (f.1.asPosix, f.2)) scanned).symm
  rw [indexedInput, Checkout.treeInput, hcommit, hsort, hmap]

/-- Path order and string order list a scan alike iff no two of its files clash. -/
theorem sortBy_asPosix_eq_iff {scanned : List (RelPath × HexDigest)}
    (hsorted : sortBy (fun f => f.1.key) scanned = scanned)
    (hdistinct : (scanned.map Prod.fst).Nodup) :
    sortBy (fun f => f.1.asPosix) scanned = scanned ↔
      ∀ x ∈ scanned, ∀ y ∈ scanned, ¬ RelPath.Clash x.1 y.1 := by
  have hinj : ∀ a ∈ scanned, ∀ b ∈ scanned, a.1 = b.1 → a = b := fun a ha b hb =>
    List.inj_on_of_nodup_map hdistinct ha hb
  have hiff := sortBy_eq_iff (fun f : RelPath × HexDigest => f.1.key) (fun f => f.1.asPosix)
    (List.Perm.refl scanned)
    (fun a ha b hb hab => hinj a ha b hb (RelPath.key_injective hab))
    (fun a ha b hb hab => hinj a ha b hb (RelPath.asPosix_injective hab))
  rw [hsorted] at hiff
  rw [hiff]
  constructor
  · intro hagree x hx y hy hclash
    have hlt : x.1.key < y.1.key := RepoMesh.Clash.lt hclash
    exact (RelPath.asPosix_lt_iff hlt).mp (hagree x hx y hy hlt) hclash
  · intro hno x hx y hy hlt
    exact (RelPath.asPosix_lt_iff hlt).mpr (hno x hx y hy)

/-! ## An index that records a scan -/

/-- The manifest row a completed pass leaves for a file. -/
def recordedRow (repositoryId : Uuid) (commitSha : String) (f : RelPath × HexDigest) :
    FileRow where
  repositoryId := repositoryId
  path := f.1.asPosix
  sha256 := f.2
  commitSha := commitSha
  chunkCount := 1
  vectorSynced := true

def recordingDb (repositoryId : Uuid) (commitSha : String)
    (scanned : List (RelPath × HexDigest)) (hdistinct : (scanned.map Prod.fst).Nodup) :
    IndexDb where
  repositories := Table.empty _
  files :=
    { rows := scanned.map (recordedRow repositoryId commitSha)
      nodup := by
        rw [List.map_map]
        refine List.Nodup.of_map FileKey.path ?_
        rw [List.map_map]
        have h := hdistinct.map RelPath.asPosix_injective
        rwa [List.map_map] at h }
  chunks := Table.empty _
  pending := Table.empty _

theorem records_recordingDb (co : Checkout) (scanned : List (RelPath × HexDigest))
    (hdistinct : (scanned.map Prod.fst).Nodup) (id : Uuid) (root status : String) :
    Records (recordingDb id co.currentCommit scanned hdistinct)
      ⟨id, root, co.currentCommit, status⟩ co scanned := by
  refine ⟨rfl, ?_⟩
  have hmanifest : (recordingDb id co.currentCommit scanned hdistinct).fileManifest id =
      scanned.map (recordedRow id co.currentCommit) := by
    refine List.filter_eq_self.mpr fun r hr => ?_
    obtain ⟨f, -, rfl⟩ := List.mem_map.mp hr
    simp [recordedRow]
  rw [IndexDb.entries, hmanifest, List.map_map]
  exact List.Perm.refl _

/-! ## Agreement of watcher and indexer -/

/-- Provided SHA-256 does not collide on the tree's bytes in `Path` order and in
string order: an index that records the tree gets the tree's fingerprint, and one
that does not is digested from other bytes, iff no two files of the tree clash. -/
theorem fingerprints_agree_iff_no_clash (h : Hashing) (co : Checkout) (maxBytes : Nat)
    (scanned : List (RelPath × HexDigest)) (hscan : co.scan h maxBytes = .ok scanned)
    (hdistinct : (scanned.map Prod.fst).Nodup) (hcommit : nul ∉ co.currentCommit.toList)
    (hcoll : h.sha256 (co.treeInput (sortBy (fun f => f.1.asPosix) scanned)) =
        h.sha256 (co.treeInput scanned) →
      co.treeInput (sortBy (fun f => f.1.asPosix) scanned) = co.treeInput scanned) :
    ((∀ db repository, Records db repository co scanned →
        repositoryFingerprint h co maxBytes = .ok (indexedFingerprint h db repository)) ∧
      (∀ db repository, nul ∉ repository.commitSha.toList →
        (∀ r ∈ db.fileManifest repository.id, nul ∉ r.path.toList) →
        ¬ Records db repository co scanned →
        indexedInput db repository ≠ co.treeInput scanned)) ↔
      ∀ x ∈ scanned, ∀ y ∈ scanned, ¬ RelPath.Clash x.1 y.1 := by
  have hpaths : ∀ l : List (RelPath × HexDigest), ∀ e ∈ posixEntries l, nul ∉ e.1.toList := by
    intro l e he
    obtain ⟨f, -, rfl⟩ := List.mem_map.mp he
    exact f.1.nul_not_mem_asPosix
  have hfingerprint : repositoryFingerprint h co maxBytes =
      .ok (h.sha256 (co.treeInput scanned)) := by
    rw [repositoryFingerprint, hscan, Except.map]
  rw [← sortBy_asPosix_eq_iff (sorted_of_scan hscan) hdistinct]
  constructor
  · rintro ⟨hagree, -⟩
    have hrec := records_recordingDb co scanned hdistinct ⟨"", by decide⟩ "" ""
    have hdigest := hagree _ _ hrec
    rw [hfingerprint, indexedFingerprint, indexedInput_eq hdistinct hrec] at hdigest
    have hbytes := hcoll (Except.ok.inj hdigest).symm
    have hentries := (digestInput_injective hcommit (hpaths _) hcommit (hpaths _) hbytes).2
    exact posixEntries_injective hentries
  · intro hsame
    constructor
    · intro db repository hrec
      rw [hfingerprint, indexedFingerprint, indexedInput_eq hdistinct hrec, hsame]
    · intro db repository hcommit' hpaths' hno heq
      have hsorted : ∀ e ∈ sortBy Prod.fst (db.entries repository.id), nul ∉ e.1.toList := by
        intro e he
        obtain ⟨r, hr, rfl⟩ := List.mem_map.mp (mem_sortBy.mp he)
        exact hpaths' r hr
      obtain ⟨hc, hentries⟩ := digestInput_injective hcommit' hsorted hcommit (hpaths _) heq
      exact hno ⟨hc, hentries ▸ (sortBy_perm _ _).symm⟩

/-! ### A tree with a clash and one without -/

def mainPy : RelPath := ⟨["src", "main.py"], by decide, by decide, by decide⟩
def utilPy : RelPath := ⟨["src", "util.py"], by decide, by decide, by decide⟩
def genPy : RelPath := ⟨["src-gen.py"], by decide, by decide, by decide⟩

def mainHash : HexDigest :=
  ⟨"78bdb4dea631a247ca66eb3c01d1efb01da6b7dd449686fc14fdbf4f2709b490", by decide⟩
def otherHash : HexDigest :=
  ⟨"0abae1e0ae728216ee44993c5a3a755f8b1c387d947fc4c4f72cab0e4a84214b", by decide⟩

/-- A checkout without commits whose other files all read alike. -/
def sampleCheckout (entries : List RelPath) : Checkout where
  head := none
  lsFiles := .ok (entries.map RelPath.encode)
  resolve := some
  read path := some (if path = mainPy then "import util\n" else "X = 1\n").toUTF8

/-- SHA-256 on the contents and the fingerprint inputs of the trees below. -/
def sampleSha256 (bytes : ByteArray) : HexDigest :=
  let co := sampleCheckout []
  if bytes.data = "import util\n".toUTF8.data then mainHash
  else if bytes.data = "X = 1\n".toUTF8.data then otherHash
  else if bytes.data = (co.treeInput [(mainPy, mainHash), (genPy, otherHash)]).data then
    ⟨"a9e86fe09f62ef6adedc6effe2a742e3ce3e4887887830fcda647eda569da775", by decide⟩
  else if bytes.data = (co.treeInput [(genPy, otherHash), (mainPy, mainHash)]).data then
    ⟨"29b24933d9d7eac85d42103eadd3337f0f3f4e956fd69b16ad5e030f3e0cb600", by decide⟩
  else ⟨"c786a737d9fe8acbe700624c21666fc62b2b91f0db220efdc8c93c586cab26bc", by decide⟩

def sampleHashing : Hashing where
  sha256 := sampleSha256
  uuid5 _ := ⟨"", by decide⟩

def sampleRepository : RepositoryRow := ⟨⟨"", by decide⟩, "/repo", "UNCOMMITTED", "indexed"⟩

/-- Two files in one directory: watcher and indexer agree. -/
theorem fingerprints_agree_without_clash :
    repositoryFingerprint sampleHashing (sampleCheckout [utilPy, mainPy]) 1000 =
      .ok (indexedFingerprint sampleHashing
        (recordingDb sampleRepository.id "UNCOMMITTED"
          [(mainPy, mainHash), (utilPy, otherHash)] (by decide))
        sampleRepository) :=
  ((fingerprints_agree_iff_no_clash sampleHashing (sampleCheckout [utilPy, mainPy]) 1000
      [(mainPy, mainHash), (utilPy, otherHash)] (by decide +kernel) (by decide) (by decide)
      (fun _ => by decide +kernel)).mpr
    ((sortBy_asPosix_eq_iff (by decide +kernel) (by decide)).mp (by decide +kernel))).1 _ _
    (records_recordingDb (sampleCheckout [utilPy, mainPy])
      [(mainPy, mainHash), (utilPy, otherHash)] (by decide) sampleRepository.id "/repo"
      "indexed")

/-- `src/main.py` beside `src-gen.py`: an index that records the tree gets another
fingerprint. -/
theorem fingerprints_differ_on_clash :
    ¬ ∀ (h : Hashing) (co : Checkout) (maxBytes : Nat) (scanned : List (RelPath × HexDigest)),
      co.scan h maxBytes = .ok scanned → (scanned.map Prod.fst).Nodup →
      nul ∉ co.currentCommit.toList → ∀ db repository, Records db repository co scanned →
      repositoryFingerprint h co maxBytes = .ok (indexedFingerprint h db repository) := by
  intro h
  have hagree := h sampleHashing (sampleCheckout [genPy, mainPy]) 1000
    [(mainPy, mainHash), (genPy, otherHash)] (by decide +kernel) (by decide) (by decide) _ _
    (records_recordingDb _ _ (by decide) sampleRepository.id "/repo" "indexed")
  exact absurd hagree (by decide +kernel)

end RepoMesh
