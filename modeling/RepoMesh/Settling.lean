import RepoMesh.AutoSubmit
import RepoMesh.Convergence
import RepoMesh.Fingerprint
import RepoMesh.IndexKeeps
import RepoMesh.Insertions
import RepoMesh.RecordedDigests

/-!
# When a watch comes to rest

Indexer and watcher meet in two digests: the watcher's of the working tree, and the one it
takes of the manifest that the indexer left. A pass without errors records just the tree that
it was over (`clean_pass_records`). So if no two files clash, every further scan of the same tree
reports equal digests and submits nothing, whatever else happens in the store; and if two
files clash, the scan after every completed job submits the next one.
-/

namespace RepoMesh

/-! ## The repository row -/

section

variable {P Q : World → Prop} {body : IndexM Unit}

/-- A guard whose body returns is left where the body ended. -/
theorem withGuard_returns (h : Triple P body (fun _ => Q) fun _ _ => True)
    (hP : ∀ w entry, P w → P (w.write entry)) (hQ : ∀ w entry, Q w → Q (w.write entry)) :
    Triple P (withGuard body) (fun _ => Q) fun _ _ => True := by
  have hattempt : ∀ {A : World → Prop}, Triple A attempt (fun _ => A) fun _ _ => True :=
    attempt_spec.exc fun _ _ _ => trivial
  refine Triple.bind hattempt fun _ => ?_
  refine Triple.bind (R := fun _ => P) (Triple.modify fun w hw => hP w .entered hw) fun _ => ?_
  refine Triple.bind (Triple.catching h fun e => Triple.ite ?_ ?_) fun _ => ?_
  · exact fun _ => Triple.raise fun _ => id
  · intro _
    refine Triple.bind hattempt fun _ => ?_
    exact Triple.bind (R := fun _ _ => True) (Triple.modify fun _ _ => trivial)
      fun _ => Triple.raise fun _ => id
  · exact Triple.bind hattempt fun _ => Triple.modify fun w hw => hQ w .left hw

end

section

variable {h : Hashing} {ix : Indexer} {repositoryId : Uuid} {tree : Tree}
  {t : Table RepositoryRow.id}

/-- Of the storage calls of a pass only the last one writes a repository row. -/
theorem storage_keeps_repositories :
    StorageKeeps h ix repositoryId tree (fun _ => True)
      (fun path => ∃ files, tree.found = .ok files ∧ path ∈ files)
      (fun w => w.db.repositories = t) where
  aside := fun _ _ _ _ hw => hw
  delete := fun _ _ _ hw => hw
  finish := fun _ _ hw => hw
  dirty := fun _ _ _ hw => hw
  commit := fun _ _ _ hw => hw
  replace := by
    intro w path bytes content chunks vectors vectorSynced db _ _ _ _ hw hdb
    unfold IndexDb.replaceFileChunks at hdb
    split at hdb
    · cases hdb
    · obtain rfl := Except.ok.inj hdb
      exact hw

/-- The repository rows after a pass that returns. -/
theorem index_repositories (pass : Pass) (w : World) :
    Triple (fun w' => w' = w) (index h pass.indexer pass.repositoryId pass.mode pass.tree)
      (fun _ w' => (w.db.repositories.get? pass.repositoryId).isSome = true ∧
        w'.db.repositories = w.db.repositories.update (·.id = pass.repositoryId)
          (RepositoryRow.updated pass.tree.commitSha "indexed")
          (RepositoryRow.updated_id pass.tree.commitSha "indexed"))
      fun _ _ => True := by
  have hkeeps : StorageKeeps h pass.indexer pass.repositoryId pass.tree (fun _ => True)
      (fun path => ∃ files, pass.tree.found = .ok files ∧ path ∈ files)
      (fun w' => w'.db.repositories = w.db.repositories) := storage_keeps_repositories
  have hall : ∀ {α : Type} {x : IndexM α},
      Keeps (fun w' => w'.db.repositories = w.db.repositories) x →
      Triple (fun w' => w'.db.repositories = w.db.repositories) x
        (fun _ w' => w'.db.repositories = w.db.repositories) fun _ _ => True :=
    fun hx => hx.exc fun _ _ _ => trivial
  refine index_rule (fun _ => trivial) fun files hfound hsome => ?_
  refine ⟨fun w' => w'.db.repositories = w.db.repositories,
    fun _ w' => w'.db.repositories = w.db.repositories,
    fun _ w' => w'.db.repositories = w.db.repositories, fun stats => ?_, fun stats _ => ?_,
    fun stats => ?_, fun stats => ?_⟩
  · refine (hall (hkeeps.progress _ _ _)).pre ?_
    rintro w' rfl
    rfl
  · exact hall (Keeps.foldlM _ (fun stats path _ => hkeeps.deleteOne trivial stats) _)
  · exact hall (Keeps.foldlM _ (fun stats path hpath =>
      hkeeps.indexOne ⟨files, hfound, mem_relativeMap.mp hpath⟩ stats) stats)
  · refine (withGuard_returns (Q := fun w' => w'.db.repositories = w.db.repositories.update
      (·.id = pass.repositoryId) (RepositoryRow.updated pass.tree.commitSha "indexed")
      (RepositoryRow.updated_id pass.tree.commitSha "indexed")) ?_ (fun _ _ => id)
      fun _ _ => id).conseq (fun _ => id) (fun _ _ hw => ⟨hsome, hw⟩) fun _ _ => id
    refine Triple.bind (hall hkeeps.check) fun _ => ?_
    refine Triple.bind (attempt_spec.exc fun _ _ _ => trivial) fun _ => ?_
    refine Triple.modify fun w' hw => ?_
    rw [← hw]
    rfl

end

/-! ## What a clean pass records -/

section

variable {h : Hashing} {pass : Pass} {w w' : World}

/-- A scan of readable files. -/
theorem scan_of_readable {co : Checkout} {files : List RelPath}
    (hread : ∀ q ∈ files, ∃ bytes, co.read q = some bytes) :
    ∃ scanned, files.mapM (co.scanFile h) = .ok scanned ∧
      ∀ x ∈ scanned, ∃ bytes, co.read x.1 = some bytes ∧ x.2 = h.sha256 bytes := by
  induction files with
  | nil => exact ⟨[], rfl, by simp⟩
  | cons q files ih =>
      obtain ⟨bytes, hbytes⟩ := hread q List.mem_cons_self
      obtain ⟨rest, hrest, hall⟩ := ih fun p hp => hread p (List.mem_cons_of_mem q hp)
      refine ⟨(q, h.sha256 bytes) :: rest, ?_, ?_⟩
      · rw [List.mapM_cons, hrest, Checkout.scanFile, Checkout.fileSha256, hbytes]
        rfl
      · intro x hx
        rcases List.mem_cons.mp hx with rfl | hx
        · exact ⟨bytes, hbytes, rfl⟩
        · exact hall x hx

theorem nodup_entries (db : IndexDb) (repositoryId : Uuid) : (db.entries repositoryId).Nodup := by
  have hfiles : (db.fileManifest repositoryId).Nodup :=
    (db.files.nodup.of_map FileRow.key).filter _
  refine hfiles.map_on fun r hr r' hr' heq => ?_
  have hrepo : r.repositoryId = repositoryId := of_decide_eq_true (List.mem_filter.mp hr).2
  have hrepo' : r'.repositoryId = repositoryId := of_decide_eq_true (List.mem_filter.mp hr').2
  exact Table.eq_of_key (List.mem_filter.mp hr).1 (List.mem_filter.mp hr').1
    (FileKey.ext (hrepo.trans hrepo'.symm) (Prod.mk.inj heq).1)

theorem mem_entries_iff {repositoryId : Uuid} {e : String × HexDigest} :
    e ∈ w.db.entries repositoryId ↔ (w.entry ⟨repositoryId, e.1⟩).digest = some e.2 := by
  constructor
  · intro he
    obtain ⟨r, hr, rfl⟩ := List.mem_map.mp he
    obtain ⟨rfl, hrow⟩ := mem_fileManifest.mp hr
    exact Option.map_eq_some_iff.mpr ⟨r, hrow, rfl⟩
  · intro he
    obtain ⟨r, hrow, hsha⟩ := Option.map_eq_some_iff.mp he
    have hkey : r.key = ⟨repositoryId, e.1⟩ := Table.key_of_get? hrow
    obtain ⟨hrepo, hpath⟩ := FileKey.mk.inj hkey
    exact List.mem_map.mpr ⟨r, mem_fileManifest.mpr ⟨hrepo, hkey ▸ hrow⟩, Prod.ext hpath hsha⟩

/-- After a pass over a checkout that counted no error the index records the checkout. -/
theorem clean_pass_records {stats : IndexStats} {co : Checkout} {maxBytes : Nat}
    (htree : pass.tree = co.tree maxBytes) (hpass : pass.run h w = (.ok stats, w'))
    (herror : stats.errorCount = 0)
    (hdistinct : ∀ files, co.discoverFiles maxBytes = .ok files → files.Nodup) :
    ∃ scanned row, co.scan h maxBytes = .ok scanned ∧ (scanned.map Prod.fst).Nodup ∧
      w'.db.repositories.get? pass.repositoryId = some row ∧ row.id = pass.repositoryId ∧
      Records w'.db row co scanned := by
  have hrecorded : ∀ path digest, (w'.entry ⟨pass.repositoryId, path⟩).digest = some digest ↔
      ∃ q bytes, pass.Finds q ∧ q.asPosix = path ∧ pass.tree.hashed q = some bytes ∧
        digest = h.sha256 bytes := fun path digest =>
    recorded_iff (k := ⟨pass.repositoryId, path⟩) hpass herror rfl
  obtain ⟨files, hfound, -⟩ := pass_digest (k := ⟨pass.repositoryId, ""⟩) hpass herror
  have hfinds : ∀ q, pass.Finds q ↔ q ∈ files := fun q =>
    ⟨fun ⟨files', hfound', hq⟩ => Except.ok.inj (hfound'.symm.trans hfound) ▸ hq,
      fun hq => ⟨files, hfound, hq⟩⟩
  have hhashed : ∀ q, pass.tree.hashed q = co.read q := by
    intro q
    rw [htree]
    rfl
  have hdiscover : co.discoverFiles maxBytes = .ok files := by
    rw [htree] at hfound
    exact hfound
  have hread : ∀ q ∈ files, ∃ bytes, co.read q = some bytes := by
    intro q hq
    obtain ⟨bytes, hbytes⟩ := hashed_of_clean hpass herror ((hfinds q).mpr hq)
    exact ⟨bytes, (hhashed q).symm.trans hbytes⟩
  obtain ⟨scanned, hscan, hsha⟩ := scan_of_readable (h := h) hread
  have hfst : scanned.map Prod.fst = files := map_fst_of_mapM hscan
  have hnodup : (scanned.map Prod.fst).Nodup := hfst ▸ hdistinct files hdiscover
  have hrepos := index_repositories (h := h) pass w w pass.fates rfl
  rw [show (index h pass.indexer pass.repositoryId pass.mode pass.tree w pass.fates).1 =
    (.ok stats, w') from hpass] at hrepos
  obtain ⟨hsome, hrepos⟩ := hrepos
  obtain ⟨old, hold⟩ := Option.isSome_iff_exists.mp hsome
  have hrow : w'.db.repositories.get? pass.repositoryId =
      some (old.updated co.currentCommit "indexed") := by
    have hkey : old.id = pass.repositoryId := Table.key_of_get? hold
    rw [hrepos, Table.get?_update, hold, Option.map_some,
      if_pos (decide_eq_true hkey), htree]
    rfl
  refine ⟨scanned, _, ?_, hnodup, hrow, Table.key_of_get? hrow, rfl, ?_⟩
  · rw [Checkout.scan, hdiscover]
    exact hscan
  have hid : (old.updated co.currentCommit "indexed").id = pass.repositoryId :=
    Table.key_of_get? hrow
  rw [hid]
  have hposix : (posixEntries scanned).Nodup :=
    List.Nodup.of_map Prod.fst (by
      have hpaths := hnodup.map RelPath.asPosix_injective
      rw [posixEntries, List.map_map]
      rwa [List.map_map] at hpaths)
  refine (List.perm_ext_iff_of_nodup (nodup_entries _ _) hposix).mpr fun e => ?_
  rw [mem_entries_iff, hrecorded]
  constructor
  · rintro ⟨q, bytes, hq, hpath, hbytes, hdigest⟩
    have hmem : q ∈ scanned.map Prod.fst := hfst ▸ (hfinds q).mp hq
    obtain ⟨x, hx, rfl⟩ := List.mem_map.mp hmem
    obtain ⟨bytes', hbytes', hxsha⟩ := hsha x hx
    obtain rfl : bytes = bytes' :=
      Option.some.inj (hbytes.symm.trans ((hhashed x.1).trans hbytes'))
    exact List.mem_map.mpr ⟨x, hx, Prod.ext hpath (hxsha.trans hdigest.symm)⟩
  · intro he
    obtain ⟨x, hx, rfl⟩ := List.mem_map.mp he
    obtain ⟨bytes, hbytes, hxsha⟩ := hsha x hx
    exact ⟨x.1, bytes, (hfinds x.1).mpr (hfst ▸ List.mem_map_of_mem hx), rfl,
      (hhashed x.1).trans hbytes, hxsha⟩

end

/-! ## A watch at rest -/

/-- Scans of one tree and one index: the watcher reports the same two digests for the
repository each time, and nobody enables the watch anew. -/
def Action.Reports (repositoryId fingerprint indexed : String) : Action → Prop
  | .observe _ r f i => r = repositoryId → f = fingerprint ∧ i = some indexed
  | .setEnabled r enabled => r = repositoryId → enabled = false
  | _ => True

section

variable {cfg : Settings} {now : Time} {l l' : Ledger} {repositoryId fingerprint uuid : String}
  {w : WatchRow} {x : Option WatchRow} {db db' : Db} {job : Option Job}

/-- What makes no history leaves the submission as it is. -/
theorem WatchTurn.submitted_of_quiet
    (h : WatchTurn cfg now l l' repositoryId [] (some w) x) :
    ∃ w', x = some w' ∧ w'.submittedFingerprint = w.submittedFingerprint := by
  generalize hevents : ([] : List WatchEvent) = events at h
  generalize hw : some w = old at h
  cases h with
  | absent => cases hw
  | ensured _ _ => cases hw
  | moved hmove =>
      obtain rfl := Option.some.inj hw
      refine ⟨_, rfl, ?_⟩
      cases hmove with
      | quiet hsame _ => exact hsame.submittedFingerprint
      | tracked _ _ => rfl
      | setEnabled enabled =>
          cases hre : (enabled && !w.enabled) with
          | true => simp [hre] at hevents
          | false => simp [enabledRow, hre]
      | recorded _ _ _ _ => simp at hevents
      | submitted _ _ _ _ _ => simp at hevents

/-- An observation of what was submitted and is indexed changes neither. -/
theorem Observes.settled
    (h : Observes cfg now uuid repositoryId fingerprint (some fingerprint) db job db')
    (hw : db.watches.get? repositoryId = some w)
    (hsub : w.submittedFingerprint = some fingerprint) :
    job = none ∧ ∃ w', db'.watches.get? repositoryId = some w' ∧
      w'.submittedFingerprint = some fingerprint := by
  have hrow : observationRow now db.toLedger fingerprint (some fingerprint) w =
      observedRow now fingerprint w := by
    rw [observationRow, reconciledRow, if_neg]
    simp
  cases h with
  | absent hget => exact absurd (hw.symm.trans hget) (by simp)
  | paused _ _ => exact ⟨rfl, w, hw, hsub⟩
  | @recorded w' hget _ _ =>
      obtain rfl : w = w' := Option.some.inj (hw.symm.trans hget)
      refine ⟨rfl, observedRow now fingerprint w, ?_, hsub⟩
      have hkey : w.repositoryId = repositoryId := Table.key_of_get? hget
      have hkey' : (observedRow now fingerprint w).repositoryId = repositoryId := hkey
      rw [hrow, get?_putWatch, if_pos hkey'.symm, hget, Option.map_some]
  | @submitted w' l hget _ hready _ =>
      obtain rfl : w = w' := Option.some.inj (hw.symm.trans hget)
      rw [hrow] at hready
      simp [watchReady, observedRow, hsub] at hready

end

namespace Coord

variable {cfg : Settings} {s t : Coord} {a : Action} {repositoryId fingerprint : String}
  {w : WatchRow}

theorem step_settled (hstep : (system cfg).step s a t)
    (hreports : a.Reports repositoryId fingerprint fingerprint)
    (hw : s.db.watches.get? repositoryId = some w)
    (hsub : w.submittedFingerprint = some fingerprint) :
    (∃ w', t.db.watches.get? repositoryId = some w' ∧
      w'.submittedFingerprint = some fingerprint) ∧
    ∀ f id, .submitted f id ∉ watchEvents cfg repositoryId s a := by
  have hquiet : watchEvents cfg repositoryId s a = [] →
      (∃ w', t.db.watches.get? repositoryId = some w' ∧
        w'.submittedFingerprint = some fingerprint) ∧
      ∀ f id, .submitted f id ∉ watchEvents cfg repositoryId s a := by
    intro hevents
    have hturn := step_watch hstep repositoryId
    rw [hevents, hw] at hturn
    obtain ⟨w', hw', hsame⟩ := hturn.submitted_of_quiet
    exact ⟨⟨w', hw', hsame.trans hsub⟩, by simp [hevents]⟩
  cases a with
  | observe uuid r f i =>
      by_cases hr : r = repositoryId
      · obtain ⟨rfl, rfl⟩ := hreports hr
        subst hr
        cases hans : s.answer cfg (.observe uuid r f (some f)) with
        | error e => exact hquiet (by simp [watchEvents, hans])
        | ok result =>
            obtain ⟨reply, db'⟩ := result
            obtain ⟨job, heq, rfl⟩ := replying_ok hans
            obtain ⟨rfl, w', hw', hsub'⟩ := (observe_cases heq).settled hw hsub
            rw [hstep.2, next_of_ok hans]
            refine ⟨⟨w', hw', hsub'⟩, fun g id hmem => ?_⟩
            simp only [watchEvents, hw, hans, Reply.ofJob?, Reply.jobs, divergence] at hmem
            split at hmem
            · simp at hmem
            · cases hmem
      · refine hquiet ?_
        simp only [watchEvents, hw]
        cases s.answer cfg (.observe uuid r f i) <;> simp [hr]
  | setEnabled r enabled =>
      by_cases hr : r = repositoryId
      · obtain rfl := hreports hr
        exact hquiet (by simp [watchEvents])
      · refine hquiet ?_
        cases enabled <;> simp [watchEvents, hw, hr]
  | _ => exact hquiet (by simp [watchEvents])

/-- While scans find the tree and the index to be what was submitted, the watch submits
nothing. -/
theorem run_settled (h : (system cfg).Reachable s) {as : List Action}
    (hrun : ((system cfg).restrict
      (Action.Reports repositoryId fingerprint fingerprint)).Run s as t)
    (hw : s.db.watches.get? repositoryId = some w)
    (hsub : w.submittedFingerprint = some fingerprint) :
    (∃ w', t.db.watches.get? repositoryId = some w' ∧
      w'.submittedFingerprint = some fingerprint) ∧
    ∀ id row, s.db.jobs.get? id = none → t.db.jobs.get? id = some row →
      row.repositoryId = repositoryId → row.trigger ≠ .watch := by
  induction hrun generalizing w with
  | nil s =>
      refine ⟨⟨w, hw, hsub⟩, fun id row hnone hrow => ?_⟩
      rw [hnone] at hrow
      cases hrow
  | @cons s u t a as hstep hrest ih =>
      obtain ⟨hstep, hreports⟩ := hstep
      obtain ⟨⟨w', hw', hsub'⟩, hnone'⟩ := step_settled hstep hreports hw hsub
      obtain ⟨hlast, hborn⟩ := ih (h.step hstep) hw' hsub'
      refine ⟨hlast, fun id row hnone hrow hrepo htrig => ?_⟩
      cases hu : u.db.jobs.get? id with
      | none => exact hborn id row hu hrow hrepo htrig
      | some r =>
          obtain ⟨r', hr', hkept, -⟩ := run_job_kept (h.step hstep) hrest.of_restrict hu
          obtain rfl : row = r' := Option.some.inj (hrow.symm.trans hr')
          obtain ⟨uuid, r₀, f, i, rfl, rfl, -, hmem⟩ := step_watch_born h hstep hnone hu
            (hkept.trigger ▸ htrig)
          have hr₀ : r₀ = repositoryId := hkept.repositoryId.symm.trans hrepo
          exact hnone' f id (hr₀ ▸ hmem)

end Coord

namespace Watched

/-- Every state of the store has a history. -/
theorem exists_of_coord {cfg : Settings} {s : Coord} (repositoryId : String)
    (h : (Coord.system cfg).Reachable s) :
    ∃ p, (system cfg repositoryId).Reachable p ∧ p.coord = s := by
  refine h.induct (I := fun s => ∃ p, (system cfg repositoryId).Reachable p ∧ p.coord = s) ?_ ?_
  · exact fun s₀ hinit => ⟨⟨s₀, []⟩, .init ⟨hinit, rfl⟩, rfl⟩
  · rintro _ a t - ⟨p, hp, rfl⟩ hstep
    exact ⟨⟨t, watchEvents cfg repositoryId p.coord a ++ p.history⟩, hp.step ⟨hstep, rfl⟩, rfl⟩

end Watched

theorem HexDigest.text_injective : Function.Injective HexDigest.text := by
  rintro ⟨x, _⟩ ⟨y, _⟩ rfl
  rfl

/-- A scan that finds the index to differ, after work that succeeded, submits again. -/
theorem Coord.observe_resubmits {cfg : Settings} {s : Coord} (h : (system cfg).Reachable s)
    {repositoryId fingerprint indexed uuid : String} {w : WatchRow} {since : Time}
    (hw : s.db.watches.get? repositoryId = some w) (hen : w.enabled = true)
    (hobs : w.observedFingerprint = some fingerprint)
    (hsub : w.submittedFingerprint = some fingerprint) (hsince : w.stableSince = some since)
    (hle : since ≤ s.now - cfg.watchDebounceSeconds)
    (hlast : lastJobCompleted s.db.toLedger w = true)
    (hidle : busy s.db.toLedger repositoryId = false) (hne : indexed ≠ fingerprint)
    (huuid : s.db.jobs.get? uuid = none) :
    ∃ db, s.answer cfg (.observe uuid repositoryId fingerprint (some indexed)) =
      .ok (.job (watchJobRow cfg s.now uuid repositoryId), db) := by
  obtain ⟨p, hp, rfl⟩ := Watched.exists_of_coord repositoryId h
  have hkey : w.repositoryId = repositoryId := Table.key_of_get? hw
  refine Watched.observe_of_ready (Watched.reachable_ok hp) hw hen huuid ?_
  have hrow : reconciledRow p.coord.db.toLedger fingerprint (some indexed) w =
      { w with submittedFingerprint := none } := by
    rw [reconciledRow, if_pos]
    exact ⟨by simp [hne], hsub, hlast, by simp [hkey, hidle]⟩
  simp [observationRow, hrow, observedRow, watchReady, hobs, hsince, hle, hkey, hidle]

/-- After a pass over a checkout that counted no error, the index and the checkout have one
fingerprint if no two files clash, and scans of the two submit nothing more once it is the
fingerprint submitted; if two files clash the fingerprints differ, and the scan after a job
that completed submits the next job. -/
theorem clean_pass_settles_watch {h : Hashing} {pass : Pass} {w w' : World} {stats : IndexStats}
    {co : Checkout} {maxBytes : Nat} (htree : pass.tree = co.tree maxBytes)
    (hpass : pass.run h w = (.ok stats, w')) (herror : stats.errorCount = 0)
    (hdistinct : ∀ files, co.discoverFiles maxBytes = .ok files → files.Nodup)
    (hcommit : nul ∉ co.currentCommit.toList) :
    ∃ scanned row fp, co.scan h maxBytes = .ok scanned ∧
      w'.db.repositories.get? pass.repositoryId = some row ∧
      repositoryFingerprint h co maxBytes = .ok fp ∧
      ((∀ x ∈ scanned, ∀ y ∈ scanned, ¬ RelPath.Clash x.1 y.1) →
        indexedFingerprint h w'.db row = fp ∧
        ∀ cfg s t as watch, (Coord.system cfg).Reachable s →
          s.db.watches.get? pass.repositoryId.text = some watch →
          watch.submittedFingerprint = some fp.text →
          ((Coord.system cfg).restrict (Action.Reports pass.repositoryId.text fp.text
            (indexedFingerprint h w'.db row).text)).Run s as t →
          ∀ id job, s.db.jobs.get? id = none → t.db.jobs.get? id = some job →
            job.repositoryId = pass.repositoryId.text → job.trigger ≠ .watch) ∧
      ((∃ x ∈ scanned, ∃ y ∈ scanned, RelPath.Clash x.1 y.1) →
        (h.sha256 (co.treeInput (sortBy (fun f => f.1.asPosix) scanned)) =
            h.sha256 (co.treeInput scanned) →
          co.treeInput (sortBy (fun f => f.1.asPosix) scanned) = co.treeInput scanned) →
        indexedFingerprint h w'.db row ≠ fp ∧
        ∀ cfg s watch since uuid, (Coord.system cfg).Reachable s →
          s.db.watches.get? pass.repositoryId.text = some watch → watch.enabled = true →
          watch.observedFingerprint = some fp.text →
          watch.submittedFingerprint = some fp.text → watch.stableSince = some since →
          since ≤ s.now - cfg.watchDebounceSeconds →
          lastJobCompleted s.db.toLedger watch = true →
          busy s.db.toLedger pass.repositoryId.text = false → s.db.jobs.get? uuid = none →
          ∃ db, s.answer cfg (.observe uuid pass.repositoryId.text fp.text
              (some (indexedFingerprint h w'.db row).text)) =
            .ok (.job (watchJobRow cfg s.now uuid pass.repositoryId.text), db)) := by
  obtain ⟨scanned, row, hscan, hnodup, hrow, hid, hrecords⟩ :=
    clean_pass_records htree hpass herror hdistinct
  have hsorts := sortBy_asPosix_eq_iff (sorted_of_scan hscan) hnodup
  have hindexed : indexedFingerprint h w'.db row =
      h.sha256 (co.treeInput (sortBy (fun f => f.1.asPosix) scanned)) := by
    rw [indexedFingerprint, indexedInput_eq hnodup hrecords]
  refine ⟨scanned, row, h.sha256 (co.treeInput scanned), hscan, hrow, ?_, ?_, ?_⟩
  · rw [repositoryFingerprint, hscan]
    rfl
  · intro hno
    rw [hindexed, hsorts.mpr hno]
    refine ⟨rfl, fun cfg s t as watch hs hwatch hsub hrun => ?_⟩
    exact (Coord.run_settled hs hrun hwatch hsub).2
  · rintro ⟨x, hx, y, hy, hclash⟩ hcoll
    have hne : indexedFingerprint h w'.db row ≠ h.sha256 (co.treeInput scanned) := by
      intro heq
      rw [hindexed] at heq
      have hpaths : ∀ l : List (RelPath × HexDigest), ∀ e ∈ posixEntries l,
          nul ∉ e.1.toList := by
        intro l e he
        obtain ⟨f, -, rfl⟩ := List.mem_map.mp he
        exact f.1.nul_not_mem_asPosix
      have hentries :=
        (digestInput_injective hcommit (hpaths _) hcommit (hpaths _) (hcoll heq)).2
      exact hsorts.mp (posixEntries_injective hentries) x hx y hy hclash
    refine ⟨hne, fun cfg s watch since uuid hs hwatch hen hobs hsub hsince hle hlast hidle
      hfree => ?_⟩
    exact Coord.observe_resubmits hs hwatch hen hobs hsub hsince hle hlast hidle
      (fun heq => hne (HexDigest.text_injective heq)) hfree

/-- A checkout without commits whose one file is `a/b`. -/
def checkoutAB : Checkout where
  head := none
  lsFiles := .ok [fileAB.encode]
  resolve := some
  read path := some (if path = fileAB then "one\n" else "two\n").toUTF8

/-- The one file is indexed; no scan after that submits anything. -/
theorem clean_pass_settles_watch_one :
    let w' := ((samplePass .full "UNCOMMITTED" [fileAB] []).run indexHashing sampleWorld).2
    ∃ row fp, w'.db.repositories.get? sampleId = some row ∧
      repositoryFingerprint indexHashing checkoutAB 1000 = .ok fp ∧
      indexedFingerprint indexHashing w'.db row = fp ∧
      ∀ cfg s t as watch, (Coord.system cfg).Reachable s →
        s.db.watches.get? sampleId.text = some watch →
        watch.submittedFingerprint = some fp.text →
        ((Coord.system cfg).restrict (Action.Reports sampleId.text fp.text
          (indexedFingerprint indexHashing w'.db row).text)).Run s as t →
        ∀ id job, s.db.jobs.get? id = none → t.db.jobs.get? id = some job →
          job.repositoryId = sampleId.text → job.trigger ≠ .watch := by
  have hdiscover : checkoutAB.discoverFiles 1000 = .ok [fileAB] := by decide +kernel
  have htree : (samplePass .full "UNCOMMITTED" [fileAB] []).tree = checkoutAB.tree 1000 := by
    show sampleTree "UNCOMMITTED" [fileAB] = checkoutAB.tree 1000
    rw [Checkout.tree, hdiscover]
    rfl
  have hpass : (samplePass .full "UNCOMMITTED" [fileAB] []).run indexHashing sampleWorld =
      (.ok { totalFiles := 1, indexedFiles := 1, indexedChunks := 1 }, _) :=
    Prod.ext (by decide +kernel) rfl
  obtain ⟨scanned, row, fp, hscan, hrow, hfp, hsettles, -⟩ :=
    clean_pass_settles_watch htree hpass rfl
      (fun files hfiles => by
        obtain rfl := Except.ok.inj (hdiscover.symm.trans hfiles)
        exact List.nodup_singleton _)
      (by decide)
  have hone : scanned.map Prod.fst = [fileAB] := by
    rw [Checkout.scan, hdiscover] at hscan
    exact map_fst_of_mapM hscan
  have hno : ∀ x ∈ scanned, ∀ y ∈ scanned, ¬ RelPath.Clash x.1 y.1 := by
    intro x hx y hy hclash
    have hmem : ∀ z ∈ scanned, z.1 = fileAB := fun z hz => by
      have hz' : z.1 ∈ scanned.map Prod.fst := List.mem_map_of_mem hz
      rw [hone] at hz'
      exact List.mem_singleton.mp hz'
    rw [hmem x hx, hmem y hy] at hclash
    exact absurd (RepoMesh.Clash.lt hclash) (lt_irrefl _)
  obtain ⟨heq, hsettled⟩ := hsettles hno
  exact ⟨row, fp, hrow, hfp, heq, hsettled⟩

end RepoMesh
