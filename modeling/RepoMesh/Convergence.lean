import RepoMesh.CleanPass
import RepoMesh.Skipping

/-!
# Convergence of the vector store

After a pass without errors and deferrals the vector store holds the points of the
repository's chunk rows and no others, unless it held points of a file that neither a
row nor a tombstone told of and that the pass did not find. Such points are left when
a pass is cut off between the points of a new file and its rows, and the file goes
away before the next pass: nothing will ever delete them.
-/

namespace RepoMesh

variable {h : Hashing} {history : List Pass} {pass : Pass} {k : FileKey} {w w' : World}

/-! ## Passes without backslashes -/

theorem Pass.Plain.noTwin (hplain : pass.Plain) (path : String) : pass.NoTwin path := by
  intro q hq heq
  rwa [slashed_eq_self (hplain q hq)] at heq

/-- For passes without backslashes every file is tame. -/
theorem tame_of_plain (hpass : pass ∈ history) (hplain : pass.Plain)
    (huuid : Set.InjOn h.uuid5 (identities h history)) : Tame h history pass k where
  mem := hpass
  uuid5 := huuid
  plain := by
    intro q hq heq
    rw [← heq]
    exact hplain q hq
  noTwin := fun _ => hplain.noTwin k.path

/-! ## Ids of a repository -/

/-- The ids of the points stored for a repository. -/
def World.pointIds (repositoryId : Uuid) (w : World) : Set Uuid :=
  {id | ∃ p ∈ w.points.rows, p.repositoryId = repositoryId ∧ p.id = id}

/-- The ids of a repository's chunk rows. -/
def World.chunkIds (repositoryId : Uuid) (w : World) : Set Uuid :=
  {id | ∃ c ∈ w.db.chunks.rows, c.repositoryId = repositoryId ∧ c.id = id}

/-- The pass finds a file for every stored point of its repository that neither a row
nor a tombstone tells of. -/
def Pass.Covers (pass : Pass) (w : World) : Prop :=
  ∀ p ∈ w.points.rows, p.repositoryId = pass.repositoryId → (w.entry p.key).Unrecorded →
    ∃ q, pass.Finds q ∧ q.asPosix = p.filePath

theorem mem_pointIds_world {repositoryId id : Uuid} :
    id ∈ w.pointIds repositoryId ↔
      ∃ path, id ∈ (w.entry ⟨repositoryId, path⟩).pointIds := by
  constructor
  · rintro ⟨p, hp, rfl, rfl⟩
    exact ⟨p.filePath, p, ⟨hp, rfl⟩, rfl⟩
  · rintro ⟨path, p, ⟨hp, hkey⟩, rfl⟩
    exact ⟨p, hp, congrArg FileKey.repositoryId hkey, rfl⟩

theorem mem_chunkIds_world {repositoryId id : Uuid} :
    id ∈ w.chunkIds repositoryId ↔
      ∃ path, id ∈ (w.entry ⟨repositoryId, path⟩).chunkIds := by
  constructor
  · rintro ⟨c, hc, rfl, rfl⟩
    exact ⟨c.filePath, c, World.mem_entry_chunks.mpr ⟨hc, rfl⟩, rfl⟩
  · rintro ⟨path, c, hc, rfl⟩
    obtain ⟨hc, hkey⟩ := World.mem_entry_chunks.mp hc
    exact ⟨c, hc, congrArg FileKey.repositoryId hkey, rfl⟩

/-! ## What a clean pass leaves of one file -/

section

variable {e e₀ : Entry}

@[simp] theorem pointIds_updateCommit (commitSha : String) :
    (e.updateCommit commitSha).pointIds = e.pointIds := rfl

@[simp] theorem chunkIds_updateCommit (commitSha : String) :
    (e.updateCommit commitSha).chunkIds = e.chunkIds := by
  ext id
  simp [Entry.updateCommit]

theorem pointIds_version (v : Version k) : v.entry.pointIds = v.entry.chunkIds :=
  Entry.Ok.pointIds_pointSet v

@[simp] theorem pointIds_absent : Entry.absent.pointIds = ∅ := by
  ext id
  simp [Entry.absent]

@[simp] theorem chunkIds_absent : Entry.absent.chunkIds = ∅ := by
  ext id
  simp [Entry.absent]

end

/-- Points and chunks of a file have the same ids after a clean pass, unless it had
points that nothing told of and that the pass did not come across. -/
theorem Leaves.matched_iff {e : Entry}
    (hok : (w.entry k).Ok (ownIds h history k) (Stores h history k))
    (hl : Leaves h pass w k e) :
    e.pointIds = e.chunkIds ↔ ((w.entry k).Unrecorded → (w.entry k).points.Nonempty →
      ∃ q, pass.Finds q ∧ q.asPosix = k.path) := by
  cases hl with
  | skipped path bytes r hfinds hpath hmode hhashed hrow hsha hsync =>
      refine iff_of_true ?_ fun _ _ => ⟨path, hfinds, hpath⟩
      rw [pointIds_updateCommit, chunkIds_updateCommit, hok.matched hsync]
  | stored path bytes content vectors v hfinds hpath =>
      exact iff_of_true (pointIds_version v) fun _ _ => ⟨path, hfinds, hpath⟩
  | removed hno hrecorded =>
      exact iff_of_true (by simp) fun hun => absurd hun hrecorded
  | untouched hno hun =>
      have hchunks : (w.entry k).chunkIds = ∅ := by
        ext id
        simp [Entry.chunkIds, hok.chunks_row hun.1]
      rw [hchunks, Set.eq_empty_iff_forall_notMem]
      constructor
      · rintro hempty - ⟨p, hp⟩
        exact absurd ⟨p, hp, rfl⟩ (hempty p.id)
      · rintro hcovered id ⟨p, hp, -⟩
        obtain ⟨q, hq, hpath⟩ := hcovered hun ⟨p, hp⟩
        exact hno q hq hpath

/-! ## The whole repository -/

/-- Of one repository, points and chunk rows have the same ids iff they do for each
of its files. -/
theorem pointIds_eq_chunkIds_iff (repositoryId : Uuid)
    (huuid : Set.InjOn h.uuid5 (identities h history))
    (hok : ∀ k, (w.entry k).Ok (ownIds h history k) (Stores h history k)) :
    w.pointIds repositoryId = w.chunkIds repositoryId ↔ ∀ path,
      (w.entry ⟨repositoryId, path⟩).pointIds = (w.entry ⟨repositoryId, path⟩).chunkIds := by
  have hown : ∀ {path path' id}, id ∈ (w.entry ⟨repositoryId, path⟩).pointIds →
      id ∈ (w.entry ⟨repositoryId, path'⟩).chunkIds → path = path' := by
    rintro path path' id ⟨p, hp, rfl⟩ ⟨c, hc, hid⟩
    have hpoint := (hok ⟨repositoryId, path⟩).points_own p hp
    have hchunk := (hok ⟨repositoryId, path'⟩).chunks_own (storable_stores h history _) hc
    rw [hid] at hchunk
    exact congrArg FileKey.path (ownIds_disjoint huuid hpoint hchunk)
  constructor
  · intro heq path
    ext id
    constructor
    · intro hid
      have hmem : id ∈ w.chunkIds repositoryId := heq ▸ mem_pointIds_world.mpr ⟨path, hid⟩
      obtain ⟨path', hid'⟩ := mem_chunkIds_world.mp hmem
      rwa [hown hid hid']
    · intro hid
      have hmem : id ∈ w.pointIds repositoryId := heq ▸ mem_chunkIds_world.mpr ⟨path, hid⟩
      obtain ⟨path', hid'⟩ := mem_pointIds_world.mp hmem
      rwa [← hown hid' hid]
  · intro hall
    ext id
    rw [mem_pointIds_world, mem_chunkIds_world]
    exact exists_congr fun path => by rw [hall path]

theorem covers_iff : pass.Covers w ↔ ∀ path,
    (w.entry ⟨pass.repositoryId, path⟩).Unrecorded →
      (w.entry ⟨pass.repositoryId, path⟩).points.Nonempty →
        ∃ q, pass.Finds q ∧ q.asPosix = path := by
  constructor
  · rintro hcovers path hun ⟨p, hp⟩
    obtain ⟨hp, hkey⟩ := World.mem_entry_points.mp hp
    have hrepo : p.repositoryId = pass.repositoryId := congrArg FileKey.repositoryId hkey
    have hpath : p.filePath = path := congrArg FileKey.path hkey
    exact hpath ▸ hcovers p hp hrepo (hkey ▸ hun)
  · intro hcovers p hp hrepo hun
    have hkey : p.key = ⟨pass.repositoryId, p.filePath⟩ := FileKey.ext hrepo rfl
    rw [hkey] at hun
    exact hcovers p.filePath hun ⟨p, hp, hkey⟩

/-- Points that nothing tells of were left by an upsert that no later call on their
file completed or took back. -/
theorem windowOpen_of_unrecorded {w₀ : World} (hfresh : w₀.Fresh)
    (hrun : (indexing h).Run w₀ history w) (hplain : ∀ pass ∈ history, pass.Plain)
    (huuid : Set.InjOn h.uuid5 (identities h history)) {p : Point} (hp : p ∈ w.points.rows)
    (hun : (w.entry p.key).Unrecorded) : windowOpen p.key w.log = true := by
  have hok := entry_ok (k := p.key) hfresh hrun fun pass hpass =>
    tame_of_plain hpass (hplain pass hpass) huuid
  exact hok.window hun ⟨p, hp, rfl⟩

/-- After any history and a clean pass, the points stored for the repository are those
of its chunk rows iff the pass found a file for every stored point that neither a row
nor a tombstone told of. -/
theorem vectors_converge_iff_covers (h : Hashing) (history : List Pass) (pass : Pass)
    (w₀ w w' : World) (stats : IndexStats) (hfresh : w₀.Fresh)
    (hrun : (indexing h).Run w₀ history w) (hplain : ∀ p ∈ history ++ [pass], p.Plain)
    (huuid : Set.InjOn h.uuid5 (identities h (history ++ [pass])))
    (hpass : pass.run h w = (.ok stats, w')) (herror : stats.errorCount = 0)
    (hdeferred : w'.deferrals = w.deferrals) :
    w'.pointIds pass.repositoryId = w'.chunkIds pass.repositoryId ↔ pass.Covers w := by
  have htame : ∀ k, ∀ p ∈ history ++ [pass], Tame h (history ++ [pass]) p k := fun k p hp =>
    tame_of_plain hp (hplain p hp) huuid
  have hlast : ∀ k, Tame h (history ++ [pass]) pass k := fun k => htame k pass (by simp)
  have hok : ∀ k, (w.entry k).Ok (ownIds h (history ++ [pass]) k)
      (Stores h (history ++ [pass]) k) := by
    exact fun k => entry_ok hfresh hrun fun p hp => htame k p (List.mem_append_left _ hp)
  have hok' : ∀ k, (w'.entry k).Ok (ownIds h (history ++ [pass]) k)
      (Stores h (history ++ [pass]) k) := by
    intro k
    have hmoves := pass_moves (hlast k) (hok k)
    rw [hpass] at hmoves
    exact (hok k).moves (storable_stores h _ k) hmoves
  rw [pointIds_eq_chunkIds_iff pass.repositoryId huuid hok', covers_iff]
  refine forall_congr' fun path => ?_
  have htarget := pass_target (hlast ⟨pass.repositoryId, path⟩) (hok _) hpass herror hdeferred
  exact (leaves_of_target rfl htarget).matched_iff (hok _)

/-! ### A first pass, cut off after the points -/

def cutPass : Pass :=
  samplePass .full "c1" [fileAB] (List.replicate 15 .goes ++ [.raises .crash []])

def cutWorld : World := (cutPass.run indexHashing sampleWorld).2

/-- The pass after it. -/
def nextPass (files : List RelPath) : Pass := samplePass .incremental "c2" files []

theorem plain_of_findsOnlyAB {pass : Pass} (h : FindsOnlyAB pass) : pass.Plain := by
  intro q hq
  rw [eq_of_findsOnlyAB h hq]
  decide

theorem findsOnlyAB_samplePass {mode : Mode} {commitSha : String} {files : List RelPath}
    {fates : List Fate} (h : ∀ q ∈ files, q = fileAB) :
    FindsOnlyAB (samplePass mode commitSha files fates) :=
  ⟨mode, commitSha, files, fates, rfl, h⟩

theorem findsOnlyAB_cut (files : List RelPath) (h : ∀ q ∈ files, q = fileAB) :
    ∀ pass ∈ [cutPass] ++ [nextPass files], FindsOnlyAB pass := by
  intro pass hpass
  rcases List.mem_pair.mp hpass with rfl | rfl
  · exact findsOnlyAB_samplePass (by simp)
  · exact findsOnlyAB_samplePass h

/-- The next pass finds the file again. -/
theorem vectors_converge_when_found :
    let w' := ((nextPass [fileAB]).run indexHashing cutWorld).2
    w'.pointIds sampleId = w'.chunkIds sampleId := by
  have honly := findsOnlyAB_cut [fileAB] (by simp)
  have hconverge := vectors_converge_iff_covers indexHashing [cutPass] (nextPass [fileAB])
    sampleWorld cutWorld _ { totalFiles := 1, indexedFiles := 1, indexedChunks := 1 }
    ⟨rfl, rfl, rfl, rfl, rfl⟩ (.cons rfl (.nil _)) (fun p hp => plain_of_findsOnlyAB (honly p hp))
    (injOn_of_findsOnlyAB honly) (Prod.ext (by decide +kernel) rfl) rfl (by decide +kernel)
  refine hconverge.mpr fun p hp _ _ => ⟨fileAB, ⟨[fileAB], rfl, List.mem_singleton_self _⟩, ?_⟩
  have hall : ∀ p ∈ cutWorld.points.rows, fileAB.asPosix = p.filePath := by decide +kernel
  exact hall p hp

/-- The next pass does not find the file: its point stays. -/
theorem vectors_diverge_when_gone :
    ¬ ∀ (h : Hashing) (history : List Pass) (pass : Pass) (w₀ w w' : World)
      (stats : IndexStats), w₀.Fresh → (indexing h).Run w₀ history w →
      (∀ p ∈ history ++ [pass], p.Plain) →
      Set.InjOn h.uuid5 (identities h (history ++ [pass])) → pass.run h w = (.ok stats, w') →
      stats.errorCount = 0 → w'.deferrals = w.deferrals →
      w'.pointIds pass.repositoryId = w'.chunkIds pass.repositoryId := by
  intro hclaim
  have honly := findsOnlyAB_cut [] (by simp)
  have heq := hclaim indexHashing [cutPass] (nextPass []) sampleWorld cutWorld
    ((nextPass []).run indexHashing cutWorld).2 {} ⟨rfl, rfl, rfl, rfl, rfl⟩
    (.cons rfl (.nil _)) (fun p hp => plain_of_findsOnlyAB (honly p hp))
    (injOn_of_findsOnlyAB honly) (Prod.ext (by decide +kernel) rfl) rfl (by decide +kernel)
  have hchunks : ((nextPass []).run indexHashing cutWorld).2.db.chunks.rows = [] := by
    decide +kernel
  have hpoint : (⟨"45805225-fafc-5e8f-aaf0-7e3933529c57", by decide⟩ : Uuid) ∈
      ((nextPass []).run indexHashing cutWorld).2.pointIds (nextPass []).repositoryId :=
    ⟨⟨_, sampleId, "a/b", "[0.0]"⟩, by decide +kernel, rfl, rfl⟩
  rw [heq] at hpoint
  obtain ⟨c, hc, -⟩ := hpoint
  exact absurd hc (by simp [hchunks])

end RepoMesh
