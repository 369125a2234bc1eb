import RepoMesh.Convergence

/-!
# An incremental pass equals a full pass

From one world, whatever history led to it, a clean incremental pass and a clean full
pass over one tree leave the same rows and the same points. What the incremental pass
skips was stored from the content the tree still has, and moving it to the new commit
gives the rows that the full pass cuts and embeds anew.
-/

namespace RepoMesh

variable {h : Hashing} {history : List Pass} {pass : Pass} {k : FileKey} {w w' : World}
  {e e' : Entry}

/-- All contents that the passes of a history took hashes of. -/
def contents (history : List Pass) : Set ByteArray :=
  {bytes | ∃ pass ∈ history, ∃ q, pass.Finds q ∧ pass.tree.hashed q = some bytes}

/-- The pass in another mode, with other fates. -/
def Pass.inMode (mode : Mode) (fates : List Fate) (pass : Pass) : Pass :=
  { pass with mode := mode, fates := fates }

/-! ## One file -/

/-- What a full pass leaves of a file is determined by its tree. -/
theorem Leaves.unique (hmode : pass.mode = .full) (hl : Leaves h pass w k e)
    (hl' : Leaves h pass w k e') : e = e' := by
  cases hl with
  | skipped path bytes r hfinds hpath hinc => exact absurd (hmode.symm.trans hinc) (by decide)
  | stored path bytes content vectors v hfinds hpath hhashed hread hsha hcommit hitems hpoints =>
      cases hl' with
      | skipped path' bytes' r _ _ hinc => exact absurd (hmode.symm.trans hinc) (by decide)
      | stored path' bytes' content' vectors' v' _ hpath' hhashed' hread' hsha' hcommit' hitems'
          hpoints' =>
          obtain rfl := RelPath.asPosix_injective (hpath.trans hpath'.symm)
          obtain rfl := Option.some.inj (hhashed.symm.trans hhashed')
          obtain rfl := Option.some.inj (hread.symm.trans hread')
          obtain ⟨hchunks, rfl⟩ := Prod.mk.inj (Except.ok.inj (hitems.symm.trans hitems'))
          have hv : v = v' := Version.ext (hsha.trans hsha'.symm)
            (hcommit.trans hcommit'.symm) hchunks (by rw [hpoints, hpoints', hchunks])
          rw [hv]
      | removed hno => exact absurd hpath (hno path hfinds)
      | untouched hno => exact absurd hpath (hno path hfinds)
  | removed hno hrecorded =>
      cases hl' with
      | skipped path' _ _ hfinds hpath => exact absurd hpath (hno path' hfinds)
      | stored path' _ _ _ _ hfinds hpath => exact absurd hpath (hno path' hfinds)
      | removed => rfl
      | untouched _ hun => exact absurd hun hrecorded
  | untouched hno hun =>
      cases hl' with
      | skipped path' _ _ hfinds hpath => exact absurd hpath (hno path' hfinds)
      | stored path' _ _ _ _ hfinds hpath => exact absurd hpath (hno path' hfinds)
      | removed _ hrecorded => exact absurd hun hrecorded
      | untouched => rfl

/-- The entries agree in all that the two stores hold. -/
structure Entry.Same (e e' : Entry) : Prop where
  row : e.row = e'.row
  chunks : e.chunks = e'.chunks
  points : e.points = e'.points

/-- The version a skipped file was stored as, moved to the commit of the pass. -/
theorem exists_version_of_skipped (commitSha : String) {ix : Indexer} {bytes : ByteArray}
    {r : FileRow}
    (hok : (w.entry k).Ok (ownIds h history k) (Stores h history k))
    (hix : ∀ p ∈ history, p.indexer = ix) (hsteady : ∀ p ∈ history, p.Steady)
    (hinj : Set.InjOn h.sha256 (contents history)) (hbytes : bytes ∈ contents history)
    (hrow : (w.entry k).row = some r) (hsha : r.sha256 = h.sha256 bytes)
    (hsync : (w.entry k).Synced) :
    ∃ vectors, ∃ v : Version k, v.sha256 = h.sha256 bytes ∧ v.commitSha = commitSha ∧
      ix.fileItems h k commitSha (ix.readText bytes) = .ok (v.chunks, vectors) ∧
      v.points = List.zipWith CodeChunk.toPoint v.chunks vectors ∧
      ((w.entry k).updateCommit commitSha).Same v.entry := by
  obtain ⟨v, hstores, hversion, hchunks, hpoints⟩ := hok.row_version r hrow
  obtain ⟨pass, hpass, -, path, hfinds, -, bytes', content, vectors, hhashed, hread, hsha',
    hitems, hitempoints⟩ := hstores
  have hvsha : v.sha256 = r.sha256 := by rw [hversion]; rfl
  have hsame : bytes' = bytes := by
    refine hinj ⟨pass, hpass, path, hfinds, hhashed⟩ hbytes ?_
    rw [← hsha', hvsha, hsha]
  have hcontent : content = bytes := by
    rw [hsteady pass hpass path hfinds, hread] at hhashed
    exact (Option.some.inj hhashed).trans hsame
  rw [hix pass hpass, hcontent] at hitems
  refine ⟨vectors, v.atCommit commitSha, hvsha.trans hsha, rfl,
    fileItems_atCommit commitSha hitems, ?_, ?_, ?_, ?_⟩
  · exact hitempoints.trans (zipWith_toPoint_atCommit commitSha v.chunks vectors).symm
  · obtain ⟨⟨r', hr', hsynced⟩, -⟩ := hsync
    obtain rfl := Option.some.inj (hrow.symm.trans hr')
    rw [Entry.updateCommit, hrow, hversion, hsynced]
    simp [Version.entry, Version.row, Version.atCommit, FileRow.atCommit]
  · rw [Entry.updateCommit, hchunks]
    rfl
  · exact hpoints hsync

/-- What a clean pass leaves of a file, it leaves in full mode too. -/
theorem Leaves.full (hl : Leaves h pass w k e) (fates : List Fate)
    (hok : (w.entry k).Ok (ownIds h history k) (Stores h history k))
    (hix : ∀ p ∈ history, p.indexer = pass.indexer) (hsteady : ∀ p ∈ history, p.Steady)
    (hinj : Set.InjOn h.sha256 (contents history)) (hpass : pass ∈ history) :
    ∃ e', Leaves h (pass.inMode .full fates) w k e' ∧ e.Same e' := by
  cases hl with
  | skipped path bytes r hfinds hpath hmode hhashed hrow hsha hsync =>
      have hread : pass.tree.read path = some bytes :=
        hsteady pass hpass path hfinds ▸ hhashed
      obtain ⟨vectors, v, hvsha, hcommit, hitems, hpoints, hsame⟩ :=
        exists_version_of_skipped pass.tree.commitSha hok hix hsteady hinj
          ⟨pass, hpass, path, hfinds, hhashed⟩ hrow hsha hsync
      exact ⟨v.entry, .stored path bytes bytes vectors v hfinds hpath hhashed hread hvsha hcommit
        hitems hpoints, hsame⟩
  | stored path bytes content vectors v hfinds hpath hhashed hread hsha hcommit hitems hpoints =>
      exact ⟨v.entry, .stored path bytes content vectors v hfinds hpath hhashed hread hsha hcommit
        hitems hpoints, ⟨rfl, rfl, rfl⟩⟩
  | removed hno hrecorded => exact ⟨_, .removed hno hrecorded, ⟨rfl, rfl, rfl⟩⟩
  | untouched hno hun => exact ⟨_, .untouched hno hun, ⟨rfl, rfl, rfl⟩⟩

/-! ## The whole repository -/

/-- `Database.chunks`. -/
def World.chunksOf (repositoryId : Uuid) (w : World) : List CodeChunk :=
  w.db.chunks.rows.filter (·.repositoryId = repositoryId)

/-- The points that a search in the repository ranges over. -/
def World.pointsOf (repositoryId : Uuid) (w : World) : List Point :=
  w.points.rows.filter (·.repositoryId = repositoryId)

/-- Rows that are the same key by key are the same up to their order. -/
theorem perm_filter_of_mem {κ α : Type*} {key : α → κ} {t t' : Table key} {q : α → Bool}
    (hmem : ∀ r, q r = true → (r ∈ t.rows ↔ r ∈ t'.rows)) :
    (t.rows.filter q).Perm (t'.rows.filter q) := by
  rw [List.perm_ext_iff_of_nodup ((t.nodup.of_map key).filter q) ((t'.nodup.of_map key).filter q)]
  intro r
  rw [List.mem_filter, List.mem_filter]
  exact and_congr_left (hmem r)

section

variable {repositoryId : Uuid}
  (hsame : ∀ k, k.repositoryId = repositoryId → (w.entry k).Same (w'.entry k))

include hsame

theorem fileManifest_perm :
    (w.db.fileManifest repositoryId).Perm (w'.db.fileManifest repositoryId) := by
  refine perm_filter_of_mem fun r hr => ?_
  have hrow := (hsame r.key (of_decide_eq_true hr)).row
  rw [World.entry, World.entry] at hrow
  constructor
  · intro hmem
    exact Table.mem_of_get? (hrow.symm.trans (Table.get?_of_mem hmem))
  · intro hmem
    exact Table.mem_of_get? (hrow.trans (Table.get?_of_mem hmem))

theorem chunksOf_perm : (w.chunksOf repositoryId).Perm (w'.chunksOf repositoryId) := by
  refine perm_filter_of_mem fun c hc => ?_
  have hchunks := (hsame c.key (of_decide_eq_true hc)).chunks
  have hmem : c ∈ (w.entry c.key).chunks ↔ c ∈ (w'.entry c.key).chunks := by rw [hchunks]
  simpa using hmem

theorem pointsOf_perm : (w.pointsOf repositoryId).Perm (w'.pointsOf repositoryId) := by
  refine perm_filter_of_mem fun p hp => ?_
  have hpoints := (hsame p.key (of_decide_eq_true hp)).points
  have hmem : p ∈ (w.entry p.key).points ↔ p ∈ (w'.entry p.key).points := by rw [hpoints]
  simpa using hmem

end

theorem pendingDeletions_eq_nil {repositoryId : Uuid}
    (hpending : ∀ k, k.repositoryId = repositoryId → (w.entry k).pending = false) :
    w.db.pendingDeletions repositoryId = [] := by
  rw [List.eq_nil_iff_forall_not_mem]
  intro path hpath
  rw [mem_pendingDeletions, hpending _ rfl] at hpath
  exact absurd hpath (by decide)

/-- What a history with a pass in two modes names and reads, the history with the pass
names and reads. -/
theorem identities_modes (m m' : Mode) (fates fates' : List Fate) :
    identities h (history ++ [pass.inMode m fates, pass.inMode m' fates']) ⊆
      identities h (history ++ [pass]) := by
  rintro name ⟨p, hp, hname⟩
  simp only [List.mem_append, List.mem_cons, List.not_mem_nil, or_false] at hp
  rcases hp with hp | rfl | rfl
  · exact ⟨p, List.mem_append_left _ hp, hname⟩
  · exact ⟨pass, by simp, hname⟩
  · exact ⟨pass, by simp, hname⟩

theorem contents_modes (m m' : Mode) (fates fates' : List Fate) :
    contents (history ++ [pass.inMode m fates, pass.inMode m' fates']) ⊆
      contents (history ++ [pass]) := by
  rintro bytes ⟨p, hp, hbytes⟩
  simp only [List.mem_append, List.mem_cons, List.not_mem_nil, or_false] at hp
  rcases hp with hp | rfl | rfl
  · exact ⟨p, List.mem_append_left _ hp, hbytes⟩
  · exact ⟨pass, by simp, hbytes⟩
  · exact ⟨pass, by simp, hbytes⟩

theorem forall_modes {P : Pass → Prop} (m m' : Mode) (fates fates' : List Fate)
    (hall : ∀ p ∈ history ++ [pass], P p) (hm : ∀ m fates, P pass → P (pass.inMode m fates)) :
    ∀ p ∈ history ++ [pass.inMode m fates, pass.inMode m' fates'], P p := by
  have hlast := hall pass (by simp)
  intro p hp
  simp only [List.mem_append, List.mem_cons, List.not_mem_nil, or_false] at hp
  rcases hp with hp | rfl | rfl
  · exact hall p (List.mem_append_left _ hp)
  · exact hm m fates hlast
  · exact hm m' fates' hlast

/-- From a world that any history of passes with the same collaborators led to, a clean
incremental pass and a clean full pass over the same tree leave the same rows of `files`
and `chunks`, no tombstones, and the same points. -/
theorem incremental_equals_full (h : Hashing) (history : List Pass) (pass : Pass)
    (fates fates' : List Fate) (w₀ w wi wf : World) (si sf : IndexStats)
    (hfresh : w₀.Fresh) (hrun : (indexing h).Run w₀ history w)
    (hix : ∀ p ∈ history, p.indexer = pass.indexer)
    (hplain : ∀ p ∈ history ++ [pass], p.Plain) (hsteady : ∀ p ∈ history ++ [pass], p.Steady)
    (hsha : Set.InjOn h.sha256 (contents (history ++ [pass])))
    (huuid : Set.InjOn h.uuid5 (identities h (history ++ [pass])))
    (hi : (pass.inMode .incremental fates).run h w = (.ok si, wi))
    (hf : (pass.inMode .full fates').run h w = (.ok sf, wf))
    (hierror : si.errorCount = 0) (hferror : sf.errorCount = 0)
    (hideferred : wi.deferrals = w.deferrals) (hfdeferred : wf.deferrals = w.deferrals) :
    (wi.db.fileManifest pass.repositoryId).Perm (wf.db.fileManifest pass.repositoryId) ∧
      (wi.chunksOf pass.repositoryId).Perm (wf.chunksOf pass.repositoryId) ∧
      wi.db.pendingDeletions pass.repositoryId = [] ∧
      wf.db.pendingDeletions pass.repositoryId = [] ∧
      (wi.pointsOf pass.repositoryId).Perm (wf.pointsOf pass.repositoryId) := by
  let inc := pass.inMode .incremental fates
  let full := pass.inMode .full fates'
  let passes := history ++ [inc, full]
  have hplain : ∀ p ∈ passes, p.Plain := forall_modes _ _ _ _ hplain fun _ _ => id
  have hsteady : ∀ p ∈ passes, p.Steady := forall_modes _ _ _ _ hsteady fun _ _ => id
  have hix : ∀ p ∈ passes, p.indexer = inc.indexer := by
    refine forall_modes _ _ _ _ (fun p hp => ?_) fun _ _ => id
    rcases List.mem_append.mp hp with hp | hp
    · exact hix p hp
    · rw [List.mem_singleton.mp hp]
      rfl
  have hsha := hsha.mono (contents_modes .incremental .full fates fates')
  have huuid := huuid.mono (identities_modes .incremental .full fates fates')
  have htame : ∀ k, ∀ p ∈ passes, Tame h passes p k := fun k p hp =>
    tame_of_plain hp (hplain p hp) huuid
  have hinc : inc ∈ passes := by simp [passes]
  have hfull : full ∈ passes := by simp [passes]
  have hok : ∀ k, (w.entry k).Ok (ownIds h passes k) (Stores h passes k) := fun k =>
    entry_ok hfresh hrun fun p hp => htame k p (List.mem_append_left _ hp)
  have hileaves : ∀ k, k.repositoryId = pass.repositoryId → Leaves h inc w k (wi.entry k) :=
    fun k hk => leaves_of_target hk
      (pass_target (htame k inc hinc) (hok k) hi hierror hideferred)
  have hfleaves : ∀ k, k.repositoryId = pass.repositoryId → Leaves h full w k (wf.entry k) :=
    fun k hk => leaves_of_target hk
      (pass_target (htame k full hfull) (hok k) hf hferror hfdeferred)
  have hsame : ∀ k, k.repositoryId = pass.repositoryId → (wi.entry k).Same (wf.entry k) := by
    intro k hk
    obtain ⟨e, he, hsame⟩ :=
      (hileaves k hk).full fates' (hok k) hix hsteady hsha hinc
    rwa [Leaves.unique rfl (hfleaves k hk) he]
  exact ⟨fileManifest_perm hsame, chunksOf_perm hsame,
    pendingDeletions_eq_nil fun k hk => (hileaves k hk).pending,
    pendingDeletions_eq_nil fun k hk => (hfleaves k hk).pending, pointsOf_perm hsame⟩

/-- One file, skipped by the incremental pass and stored anew by the full one. -/
theorem incremental_equals_full_after_skip :
    let w := ((samplePass .full "c1" [fileAB] []).run indexHashing sampleWorld).2
    let wi := (((nextPass [fileAB]).inMode .incremental []).run indexHashing w).2
    let wf := (((nextPass [fileAB]).inMode .full []).run indexHashing w).2
    (wi.db.fileManifest sampleId).Perm (wf.db.fileManifest sampleId) ∧
      (wi.chunksOf sampleId).Perm (wf.chunksOf sampleId) ∧
      wi.db.pendingDeletions sampleId = [] ∧ wf.db.pendingDeletions sampleId = [] ∧
      (wi.pointsOf sampleId).Perm (wf.pointsOf sampleId) := by
  have honly : ∀ pass ∈ [samplePass .full "c1" [fileAB] []] ++ [nextPass [fileAB]],
      FindsOnlyAB pass := by
    intro pass hpass
    rcases List.mem_pair.mp hpass with rfl | rfl
    · exact findsOnlyAB_samplePass (by simp)
    · exact findsOnlyAB_samplePass (by simp)
  have hcontent : ∀ bytes ∈ contents ([samplePass .full "c1" [fileAB] []] ++ [nextPass [fileAB]]),
      bytes = "one\n".toUTF8 := by
    rintro bytes ⟨pass, hpass, q, hq, hbytes⟩
    obtain rfl := eq_of_findsOnlyAB (honly pass hpass) hq
    obtain ⟨mode, commitSha, files, fates, rfl, -⟩ := honly pass hpass
    exact (Option.some.inj hbytes).symm
  refine incremental_equals_full indexHashing [samplePass .full "c1" [fileAB] []]
    (nextPass [fileAB]) [] [] sampleWorld _ _ _ { totalFiles := 1, skippedFiles := 1 }
    { totalFiles := 1, indexedFiles := 1, indexedChunks := 1 } ⟨rfl, rfl, rfl, rfl, rfl⟩
    (.cons rfl (.nil _)) (fun p hp => ?_) (fun p hp => plain_of_findsOnlyAB (honly p hp))
    (fun p hp => ?_) (fun a ha b hb _ => ?_) (injOn_of_findsOnlyAB honly)
    (Prod.ext (by decide +kernel) rfl) (Prod.ext (by decide +kernel) rfl) rfl rfl
    (by decide +kernel) (by decide +kernel)
  · rw [List.mem_singleton.mp hp]
    rfl
  · obtain ⟨mode, commitSha, files, fates, rfl, -⟩ := honly p hp
    exact fun _ _ => rfl
  · rw [hcontent a ha, hcontent b hb]

end RepoMesh
