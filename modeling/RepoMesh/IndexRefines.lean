import RepoMesh.IndexCalls

/-!
# A pass moves its files by the sync protocol

For one file `k`: every pass, however it ends, takes the entry of `k` along moves of
the protocol (`pass_moves`), so that its invariant holds after every history
(`entry_ok`); and a pass that ends without an error and without a deferral leaves the
entry that its tree calls for (`pass_target`).
-/

namespace RepoMesh

section

variable {k : FileKey} {W : Version k → Prop} {e₀ e₁ : Entry} {n₀ n₁ : Nat}

/-! ## Accounting over a loop -/

/-- The entry was moved by the protocol, every trouble is counted, and `T` holds if
there was none. -/
def Accounted (W : Version k → Prop) (e₀ : Entry) (n₀ : Nat) (stats : IndexStats)
    (T : Entry → Prop) (e : Entry) (n : Nat) : Prop :=
  FileMoves k W e₀ e ∧ n₀ ≤ stats.errorCount + n ∧ (stats.errorCount + n = n₀ → T e)

theorem Accounted.counted {stats stats' : IndexStats} {T T₁ T' : Entry → Prop} {e : Entry}
    {n : Nat} (h₁ : Accounted W e₀ n₀ stats T e₁ n₁)
    (h : Counted stats stats' (Reaches W e₁ n₁ T₁) (Moved W e₁ n₁) e n)
    (hT : T e₁ → T₁ e → T' e) : Accounted W e₀ n₀ stats' T' e n := by
  obtain ⟨hmoves, hle, htarget⟩ := h₁
  rcases h with ⟨hstats, hmoves', hle', htarget'⟩ | ⟨hstats, hmoves', hle'⟩
  · refine ⟨hmoves.trans hmoves', by omega, fun heq => ?_⟩
    exact hT (htarget (by omega)) (htarget' (by omega))
  · exact ⟨hmoves.trans hmoves', by omega, fun heq => by omega⟩

theorem counted_of_kept {stats stats' : IndexStats} {e : Entry} {n : Nat}
    (h : Counted stats stats' (Kept e₀ n₀) (Kept e₀ n₀) e n) :
    Counted stats stats' (Reaches W e₀ n₀ (· = e₀)) (Moved W e₀ n₀) e n := by
  have hmoves : Kept e₀ n₀ e n → FileMoves k W e₀ e := fun h => h.1 ▸ .refl
  exact h.imp (fun h => ⟨h.1, hmoves h.2, h.2.2, fun _ => h.2.1⟩)
    fun h => ⟨h.1, hmoves h.2, h.2.2⟩

/-- Only that the entry was moved. -/
def MovedFrom (W : Version k → Prop) (e₀ : Entry) (e : Entry) (_ : Nat) : Prop :=
  FileMoves k W e₀ e

theorem movedFrom_of_accounted {stats : IndexStats} {T : Entry → Prop} (e : Entry) (n : Nat)
    (h : Accounted W e₀ n₀ stats T e n) : MovedFrom W e₀ e n :=
  h.1

/-- A turn of the deletion loop. -/
theorem deleteOne_accounted (repositoryId : Uuid) (path : String) (stats : IndexStats)
    {T : Entry → Prop} :
    Triple (On k (Accounted W e₀ n₀ stats T)) (deleteOne repositoryId stats path)
      (fun stats' => On k (Accounted W e₀ n₀ stats' fun e =>
        if (⟨repositoryId, path⟩ : FileKey) = k then e = Entry.absent else T e))
      fun _ => On k (MovedFrom W e₀) := by
  refine Triple.of_forall fun w hw => ?_
  have hpre : ∀ w', w' = w → On k (Exactly (w.entry k) w.deferrals) w' := by
    rintro w' rfl
    exact ⟨rfl, rfl⟩
  by_cases hkey : (⟨repositoryId, path⟩ : FileKey) = k
  · refine (deleteOne_spec (G := Reaches W (w.entry k) w.deferrals (· = Entry.absent))
      (H := Moved W (w.entry k) w.deferrals) stats (deleteCalls_own hkey)).conseq hpre ?_ ?_
    · intro stats' w' hw'
      exact hw.counted hw' fun _ habsent => by rwa [if_pos hkey]
    · exact fun _ w' hw' => hw.1.trans hw'.1
  · refine (deleteOne_spec stats (deleteCalls_other hkey)).conseq hpre ?_ ?_
    · intro stats' w' hw'
      refine hw.counted (counted_of_kept hw') fun hT heq => ?_
      rw [if_neg hkey, heq]
      exact hT
    · rintro _ w' ⟨heq, -⟩
      rw [On, MovedFrom, heq]
      exact hw.1

/-- The entry after the deletion loop went well. -/
def afterDeletes (repositoryId : Uuid) (deleted : List String) (k : FileKey) (e : Entry) :
    Entry :=
  if k.repositoryId = repositoryId ∧ k.path ∈ deleted then Entry.absent else e

theorem deletes_accounted (repositoryId : Uuid) (deleted : List String) (stats : IndexStats)
    (hstats : stats.errorCount = 0) :
    Triple (On k (Exactly e₀ n₀)) (deleted.foldlM (deleteOne repositoryId) stats)
      (fun stats' => On k (Accounted W e₀ n₀ stats' (· = afterDeletes repositoryId deleted k e₀)))
      fun _ => On k (MovedFrom W e₀) := by
  have hloop := Triple.foldlM deleted (f := deleteOne repositoryId)
    (I := fun done stats' => On k (Accounted W e₀ n₀ stats'
      (· = afterDeletes repositoryId done k e₀))) (E := fun _ => On k (MovedFrom W e₀))
    (fun done path rest stats' _ => ?_) stats
  · refine hloop.pre ?_
    rintro w ⟨he, hn⟩
    rw [On, he, hn]
    exact ⟨.refl, by omega, fun _ => by simp [afterDeletes]⟩
  · refine (deleteOne_accounted repositoryId path stats').conseq (fun _ => id) ?_
      fun _ _ => id
    rintro stats'' w ⟨hmoves, hle, htarget⟩
    refine ⟨hmoves, hle, fun heq => ?_⟩
    have htarget : if (⟨repositoryId, path⟩ : FileKey) = k then w.entry k = Entry.absent
      else w.entry k = afterDeletes repositoryId done k e₀ := htarget heq
    by_cases hkey : (⟨repositoryId, path⟩ : FileKey) = k
    · rw [if_pos hkey] at htarget
      subst hkey
      show w.entry _ = _
      rw [htarget, afterDeletes, if_pos (by simp)]
    · rw [if_neg hkey] at htarget
      show w.entry k = _
      rw [htarget, afterDeletes, afterDeletes]
      have hpath : k.repositoryId = repositoryId → k.path ≠ path := by
        rintro rfl rfl
        exact hkey rfl
      refine if_congr ?_ rfl rfl
      constructor
      · exact fun h => ⟨h.1, List.mem_append_left _ h.2⟩
      · rintro ⟨hrepo, hmem⟩
        refine ⟨hrepo, (List.mem_append.mp hmem).resolve_right fun h => ?_⟩
        exact hpath hrepo (List.mem_singleton.mp h)

end

/-! ## The indexing loop -/

/-- What the indexing loop makes of an entry `e₁` when all goes well: a skipped file
gets the commit, another the version that was cut from its content. -/
def Indexed (h : Hashing) (ix : Indexer) (mode : Mode) (tree : Tree) (manifest : List FileRow)
    (deleted : List String) (k : FileKey) (path : RelPath) (e₁ e : Entry) : Prop :=
  ∃ bytes, tree.hashed path = some bytes ∧
    if unchanged mode manifest deleted k.path (h.sha256 bytes) = true then
      e = e₁.updateCommit tree.commitSha
    else ∃ content vectors, ∃ v : Version k, tree.read path = some content ∧
      v.sha256 = h.sha256 bytes ∧ v.commitSha = tree.commitSha ∧
      ix.fileItems h k tree.commitSha (ix.readText content) = .ok (v.chunks, vectors) ∧
      v.points = List.zipWith CodeChunk.toPoint v.chunks vectors ∧ e = v.entry

section

variable {h : Hashing} {history : List Pass} {pass : Pass} {k : FileKey}
  {manifest : List FileRow} {deleted : List String} {path : RelPath} {e₀ e₁ : Entry}
  {n₀ n₁ : Nat}

theorem fileCalls_own (hpass : pass ∈ history) (hpath : pass.Finds path)
    (hk : '\\' ∉ k.path.toList) (hkey : (⟨pass.repositoryId, path.asPosix⟩ : FileKey) = k) :
    FileCalls k h pass.indexer pass.repositoryId pass.mode pass.tree manifest deleted path
      (Exactly e₁ n₁)
      (Reaches (Stores h history k) e₁ n₁
        (Indexed h pass.indexer pass.mode pass.tree manifest deleted k path e₁))
      (Moved (Stores h history k) e₁ n₁) := by
  have hrepo : pass.repositoryId = k.repositoryId := congrArg FileKey.repositoryId hkey
  have hposix : path.asPosix = k.path := congrArg FileKey.path hkey
  refine ⟨?_, ?_, moved_of_exactly .refl, moved_of_reaches⟩
  · rintro bytes hbytes hunchanged w ⟨he, hn⟩
    rw [On, hkey, hrepo, hposix, w.entry_updateFileCommit, he, World.deferrals_afterSql, hn]
    refine ⟨.single (.commit e₁ pass.tree.commitSha), le_refl _, fun _ => ?_⟩
    rw [hposix] at hunchanged
    exact ⟨bytes, hbytes, by rw [if_pos hunchanged]⟩
  · intro bytes content chunks vectors hbytes hchanged hread hitems
    rw [hkey] at hitems
    obtain ⟨v, hsha, hcommit, hchunks, hpoints⟩ :=
      exists_version hk (h.sha256 bytes) hitems
    subst hchunks
    have hv : Stores h history k v :=
      ⟨pass, hpass, hrepo, path, hpath, hposix, bytes, content, vectors, hbytes, hread, hsha,
        hcommit ▸ hitems, hpoints⟩
    have hT : Indexed h pass.indexer pass.mode pass.tree manifest deleted k path e₁ v.entry := by
      rw [hposix] at hchanged
      refine ⟨bytes, hbytes, ?_⟩
      rw [if_neg hchanged]
      exact ⟨content, vectors, v, hread, hsha, hcommit, hitems, hpoints, rfl⟩
    have hcalls := indexCalls_own e₁ n₁ hkey hv hpoints hT
    rw [hsha, hcommit] at hcalls
    exact ⟨_, _, _, _, _, hcalls⟩

theorem fileCalls_other (hinj : Set.InjOn h.uuid5 (identities h history)) (hpass : pass ∈ history)
    (hpath : pass.Finds path) (hno : pass.repositoryId = k.repositoryId → pass.NoTwin k.path)
    (hown : ∀ p ∈ e₁.points, p.id ∈ ownIds h history k)
    (hkey : (⟨pass.repositoryId, path.asPosix⟩ : FileKey) ≠ k) :
    FileCalls k h pass.indexer pass.repositoryId pass.mode pass.tree manifest deleted path
      (Exactly e₁ n₁) (Kept e₁ n₁) (Kept e₁ n₁) := by
  refine ⟨?_, ?_, kept_of_exactly, fun _ _ => id⟩
  · rintro bytes - - w ⟨he, hn⟩
    rw [On, w.entry_updateFileCommit_of_ne pass.tree.commitSha hkey, World.deferrals_afterSql]
    exact ⟨he, hn.ge⟩
  · intro bytes content chunks vectors hbytes hchanged hread hitems
    have hchunks := key_ne_of_mem_fileItems hno hpath hkey hitems
    have hitem : ∀ p ∈ List.zipWith CodeChunk.toPoint chunks vectors,
        ∃ c ∈ chunks, p.key = c.key ∧ p.id = c.id := by
      intro p hp
      rw [← List.map_uncurry_zip_eq_zipWith] at hp
      obtain ⟨⟨c, vector⟩, hpair, rfl⟩ := List.mem_map.mp hp
      exact ⟨c, (List.of_mem_zip hpair).1, rfl, rfl⟩
    refine ⟨_, _, _, _, _, indexCalls_other hkey hchunks ?_ ?_⟩
    · intro p hp
      obtain ⟨c, hc, hpkey, -⟩ := hitem p hp
      exact hpkey ▸ hchunks c hc
    · intro p hp x hx heq
      obtain ⟨c, hc, -, hid⟩ := hitem p hp
      have hcown := id_of_mem_fileItems (k := ⟨pass.repositoryId, path.asPosix⟩) hpass hpath
        rfl rfl hread hitems hc
      rw [← hid, ← heq] at hcown
      exact hkey (ownIds_disjoint hinj hcown (hown x hx))

/-- What is assumed of a pass of a history as far as the file `k` goes: ids do not
collide, and no other file is stored under the path of `k`. -/
structure Tame (h : Hashing) (history : List Pass) (pass : Pass) (k : FileKey) : Prop where
  mem : pass ∈ history
  uuid5 : Set.InjOn h.uuid5 (identities h history)
  plain : ∀ path, pass.Finds path → path.asPosix = k.path → '\\' ∉ k.path.toList
  noTwin : pass.repositoryId = k.repositoryId → pass.NoTwin k.path

/-- A turn of the indexing loop. -/
theorem indexOne_accounted (ht : Tame h history pass k) (hpath : pass.Finds path)
    (hok : e₀.Ok (ownIds h history k) (Stores h history k)) (stats : IndexStats)
    {T : Entry → Prop} :
    Triple (On k (Accounted (Stores h history k) e₀ n₀ stats T))
      (indexOne h pass.indexer pass.repositoryId pass.mode pass.tree manifest deleted stats path)
      (fun stats' => On k (Accounted (Stores h history k) e₀ n₀ stats' fun e =>
        if (⟨pass.repositoryId, path.asPosix⟩ : FileKey) = k then
          ∃ e₁, T e₁ ∧ Indexed h pass.indexer pass.mode pass.tree manifest deleted k path e₁ e
        else T e))
      fun _ => On k (MovedFrom (Stores h history k) e₀) := by
  refine Triple.of_forall fun w hw => ?_
  have hpre : ∀ w', w' = w → On k (Exactly (w.entry k) w.deferrals) w' := by
    rintro w' rfl
    exact ⟨rfl, rfl⟩
  by_cases hkey : (⟨pass.repositoryId, path.asPosix⟩ : FileKey) = k
  · have hplain := ht.plain path hpath (congrArg FileKey.path hkey)
    refine (indexOne_spec stats (fileCalls_own ht.mem hpath hplain hkey)).conseq hpre ?_ ?_
    · intro stats' w' hw'
      refine hw.counted hw' fun hT hindexed => ?_
      rw [if_pos hkey]
      exact ⟨_, hT, hindexed⟩
    · exact fun _ w' hw' => hw.1.trans hw'.1
  · have hown := (hok.moves (storable_stores h history k) hw.1).points_own
    refine (indexOne_spec stats (fileCalls_other ht.uuid5 ht.mem hpath ht.noTwin hown
      hkey)).conseq hpre ?_ ?_
    · intro stats' w' hw'
      refine hw.counted (counted_of_kept hw') fun hT heq => ?_
      rw [if_neg hkey, heq]
      exact hT
    · rintro _ w' ⟨heq, -⟩
      rw [On, MovedFrom, heq]
      exact hw.1

/-- What the indexing loop over `done` makes of an entry `e₁` when all goes well. -/
def IndexedAmong (h : Hashing) (pass : Pass) (manifest : List FileRow) (deleted : List String)
    (k : FileKey) (e₁ : Entry) (done : List RelPath) (e : Entry) : Prop :=
  (∃ path ∈ done, (⟨pass.repositoryId, path.asPosix⟩ : FileKey) = k ∧
      Indexed h pass.indexer pass.mode pass.tree manifest deleted k path e₁ e) ∨
    ((∀ path ∈ done, (⟨pass.repositoryId, path.asPosix⟩ : FileKey) ≠ k) ∧ e = e₁)

theorem indexedAmong_step {done : List RelPath} {e : Entry} (hnot : path ∉ done)
    (hstep : if (⟨pass.repositoryId, path.asPosix⟩ : FileKey) = k then
        ∃ e₂, IndexedAmong h pass manifest deleted k e₁ done e₂ ∧
          Indexed h pass.indexer pass.mode pass.tree manifest deleted k path e₂ e
      else IndexedAmong h pass manifest deleted k e₁ done e) :
    IndexedAmong h pass manifest deleted k e₁ (done ++ [path]) e := by
  by_cases hkey : (⟨pass.repositoryId, path.asPosix⟩ : FileKey) = k
  · rw [if_pos hkey] at hstep
    obtain ⟨e₂, hamong, hindexed⟩ := hstep
    rcases hamong with ⟨path', hpath', hkey', -⟩ | ⟨-, rfl⟩
    · have hposix := congrArg FileKey.path (hkey'.trans hkey.symm)
      exact absurd (RelPath.asPosix_injective hposix ▸ hpath') hnot
    · exact Or.inl ⟨path, by simp, hkey, hindexed⟩
  · rw [if_neg hkey] at hstep
    rcases hstep with ⟨path', hpath', hrest⟩ | ⟨hnone, heq⟩
    · exact Or.inl ⟨path', List.mem_append_left _ hpath', hrest⟩
    · refine Or.inr ⟨fun path' hpath' => ?_, heq⟩
      rcases List.mem_append.mp hpath' with hpath' | hpath'
      · exact hnone path' hpath'
      · rwa [List.mem_singleton.mp hpath']

theorem files_accounted (ht : Tame h history pass k) {files : List RelPath}
    (hfiles : ∀ path ∈ files, pass.Finds path) (hnodup : files.Nodup)
    (hok : e₀.Ok (ownIds h history k) (Stores h history k)) (stats : IndexStats) :
    Triple (On k (Accounted (Stores h history k) e₀ n₀ stats (· = e₁)))
      (files.foldlM
        (indexOne h pass.indexer pass.repositoryId pass.mode pass.tree manifest deleted) stats)
      (fun stats' => On k (Accounted (Stores h history k) e₀ n₀ stats'
        (IndexedAmong h pass manifest deleted k e₁ files)))
      fun _ => On k (MovedFrom (Stores h history k) e₀) := by
  have hloop := Triple.foldlM files
    (f := indexOne h pass.indexer pass.repositoryId pass.mode pass.tree manifest deleted)
    (I := fun done stats' => On k (Accounted (Stores h history k) e₀ n₀ stats'
      (IndexedAmong h pass manifest deleted k e₁ done)))
    (E := fun _ => On k (MovedFrom (Stores h history k) e₀))
    (fun done path rest stats' hsplit => ?_) stats
  · refine hloop.pre ?_
    rintro w ⟨hmoves, hle, htarget⟩
    exact ⟨hmoves, hle, fun heq => Or.inr ⟨by simp, htarget heq⟩⟩
  · have hpath : path ∈ files := by simp [hsplit]
    have hnot : path ∉ done := by
      rw [hsplit] at hnodup
      intro hmem
      exact (List.nodup_append.mp hnodup).2.2 path hmem path List.mem_cons_self rfl
    refine (indexOne_accounted ht (hfiles path hpath) hok stats').conseq (fun _ => id) ?_
      fun _ _ => id
    rintro stats'' w ⟨hmoves, hle, htarget⟩
    exact ⟨hmoves, hle, fun heq => indexedAmong_step hnot (htarget heq)⟩

/-! ## A whole pass -/

/-- The entry that a pass from `w` leaves when all goes well. -/
def Target (h : Hashing) (pass : Pass) (w : World) (k : FileKey) (e : Entry) : Prop :=
  ∃ files, pass.tree.found = .ok files ∧
    let manifest := w.db.fileManifest pass.repositoryId
    let deleted := deletedPaths manifest (w.db.pendingDeletions pass.repositoryId) files
    IndexedAmong h pass manifest deleted k
      (afterDeletes pass.repositoryId deleted k (w.entry k)) (relativeMap files) e

theorem markIndexed_spec {W : Version k → Prop} {T : Entry → Prop} {stats : IndexStats}
    (repositoryId : Uuid) (commitSha : String) :
    Triple (On k (Accounted W e₀ n₀ stats T)) (markIndexed repositoryId commitSha)
      (fun _ => On k (Accounted W e₀ n₀ stats T)) fun _ => On k (MovedFrom W e₀) := by
  have hcut : ∀ w, On k (Accounted W e₀ n₀ stats T) w → On k (MovedFrom W e₀) w :=
    On.mono movedFrom_of_accounted
  refine Triple.bind (check_spec.exc fun _ => hcut) fun _ => ?_
  refine Triple.bind (attempt_spec.exc fun _ => hcut) fun _ => Triple.modify fun w hw => ?_
  rw [On, World.entry_write_of_none _ rfl, World.deferrals_write _ rfl]
  exact hw

theorem index_spec (ht : Tame h history pass k) (w : World)
    (hok : (w.entry k).Ok (ownIds h history k) (Stores h history k)) :
    Triple (fun w' => w' = w)
      (index h pass.indexer pass.repositoryId pass.mode pass.tree)
      (fun stats => On k (Accounted (Stores h history k) (w.entry k) w.deferrals stats
        (Target h pass w k)))
      fun _ => On k (MovedFrom (Stores h history k) (w.entry k)) := by
  refine index_rule (fun _ => .refl) fun files hfound _ => ?_
  refine ⟨On k (Exactly (w.entry k) w.deferrals), _, _, fun stats => ?_,
    deletes_accounted pass.repositoryId _, files_accounted ht
      (fun path hpath => ⟨files, hfound, mem_relativeMap.mp hpath⟩) (nodup_relativeMap files) hok,
    fun stats => ?_⟩
  · refine (progress_spec stats none none).conseq ?_ (fun _ _ => id)
      fun _ => On.mono fun e n he => ?_
    · rintro w' rfl
      exact ⟨rfl, rfl⟩
    · rw [MovedFrom, he.1]
  · refine (withGuard_spec (markIndexed_spec pass.repositoryId pass.tree.commitSha)
      movedFrom_of_accounted movedFrom_of_accounted).conseq (fun _ => id) (fun _ w' hw' => ?_)
      fun _ _ => id
    obtain ⟨hmoves, hle, htarget⟩ := hw'
    exact ⟨hmoves, hle, fun heq => ⟨files, hfound, htarget heq⟩⟩

end

/-! ## Passes and entries -/

variable {h : Hashing} {history : List Pass} {pass : Pass} {k : FileKey} {w w' : World}

/-- However a pass ends, it moved the entry by the protocol. -/
theorem pass_moves (ht : Tame h history pass k)
    (hok : (w.entry k).Ok (ownIds h history k) (Stores h history k)) :
    FileMoves k (Stores h history k) (w.entry k) ((pass.run h w).2.entry k) := by
  have hpost := index_spec ht w hok w pass.fates rfl
  rw [Pass.run]
  revert hpost
  rcases (index h pass.indexer pass.repositoryId pass.mode pass.tree w pass.fates).1 with
    ⟨r, w'⟩
  cases r with
  | ok stats => exact And.left
  | error e => exact id

/-- A pass without errors and deferrals leaves the entry its tree calls for. -/
theorem pass_target (ht : Tame h history pass k)
    (hok : (w.entry k).Ok (ownIds h history k) (Stores h history k)) {stats : IndexStats}
    (hrun : pass.run h w = (.ok stats, w')) (herror : stats.errorCount = 0)
    (hdeferred : w'.deferrals = w.deferrals) : Target h pass w k (w'.entry k) := by
  have hpost := index_spec ht w hok w pass.fates rfl
  rw [Pass.run] at hrun
  rw [hrun] at hpost
  exact hpost.2.2 (by rw [herror, hdeferred, Nat.zero_add])

theorem entry_of_fresh (hw : w.Fresh) : w.entry k = Entry.absent := by
  obtain ⟨hfiles, hchunks, hpending, hpoints, hlog⟩ := hw
  simp only [World.entry, Entry.absent, hfiles, hchunks, hpending, hpoints, hlog,
    Entry.mk.injEq]
  refine ⟨rfl, rfl, rfl, ?_, rfl⟩
  ext p
  simp [Table.empty]

/-- The invariant of every entry, along a run of tame passes. -/
theorem entry_ok_of_run {passes : List Pass} (hrun : (indexing h).Run w passes w')
    (ht : ∀ pass ∈ passes, Tame h history pass k)
    (hok : (w.entry k).Ok (ownIds h history k) (Stores h history k)) :
    (w'.entry k).Ok (ownIds h history k) (Stores h history k) := by
  induction hrun with
  | nil => exact hok
  | @cons w w₁ w' pass passes hstep _ ih =>
      have hpass := ht pass List.mem_cons_self
      have hmoves := pass_moves hpass hok
      rw [show (pass.run h w).2 = w₁ from hstep] at hmoves
      exact ih (fun p hp => ht p (List.mem_cons_of_mem _ hp))
        (hok.moves (storable_stores h history k) hmoves)

theorem entry_ok {passes : List Pass} {w₀ : World} (hfresh : w₀.Fresh)
    (hrun : (indexing h).Run w₀ passes w) (ht : ∀ pass ∈ passes, Tame h history pass k) :
    (w.entry k).Ok (ownIds h history k) (Stores h history k) := by
  refine entry_ok_of_run hrun ht ?_
  rw [entry_of_fresh hfresh]
  exact Entry.Ok.absent

end RepoMesh
