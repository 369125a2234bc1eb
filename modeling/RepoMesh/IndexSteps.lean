import RepoMesh.FileEntry

/-!
# What a pass does to one entry

Specifications of the parts of `index` as seen from one file `k`. An assertion is
about the entry of `k` and the number of vector calls given up so far (`On`); one
lemma for each part gives its normal and its exceptional postcondition from what the
storage calls in it do to the assertion. The parts are then instantiated twice: for
the file's own path and for the paths of other files.
-/

namespace RepoMesh

/-- An assertion about the entry of `k` and the number of deferrals. -/
def On (k : FileKey) (F : Entry → Nat → Prop) (w : World) : Prop :=
  F (w.entry k) w.deferrals

section

variable {k : FileKey} {F G H : Entry → Nat → Prop}

theorem On.mono (h : ∀ e n, F e n → G e n) (w : World) (hw : On k F w) : On k G w :=
  h _ _ hw

/-! ## Calls -/

theorem attempt_spec {P : World → Prop} :
    Triple P attempt (fun _ => P) fun _ => P := by
  refine Triple.bind (Triple.ask fun _ _ => id) fun fate => ?_
  cases fate with
  | goes => exact Triple.pure fun _ => id
  | raises e done => exact Triple.raise fun _ => id

theorem attempt_cut (hcut : ∀ e n, F e n → H e n) :
    Triple (On k F) attempt (fun _ => On k F) fun _ => On k H :=
  attempt_spec.exc fun _ => On.mono hcut

theorem On.write {entry : LogEntry} (hwindow : entry.window k = none)
    (hdeferred : entry.isDeferred = false) (w : World) (h : On k F w) :
    On k F (w.write entry) := by
  rw [On, w.entry_write_of_none hwindow, w.deferrals_write hdeferred]
  exact h

theorem note_spec {entry : LogEntry} {E : Exc → World → Prop} (hwindow : entry.window k = none)
    (hdeferred : entry.isDeferred = false) :
    Triple (On k F) (note entry) (fun _ => On k F) E :=
  Triple.modify (On.write hwindow hdeferred)

theorem check_spec : Triple (On k F) check (fun _ => On k F) fun _ => On k F :=
  Triple.bind attempt_spec fun _ => note_spec rfl rfl

/-- A check that raises where only `H` is asked for. -/
theorem check_cut (hcut : ∀ e n, F e n → H e n) :
    Triple (On k F) check (fun _ => On k F) fun _ => On k H :=
  check_spec.exc fun _ => On.mono hcut

theorem progress_spec (stats : IndexStats) (path error : Option String) :
    Triple (On k F) (progress stats path error) (fun _ => On k F) fun _ => On k F :=
  Triple.bind attempt_spec fun _ => note_spec rfl rfl

/-- Entering and leaving a guard do not touch the entry; they can raise. -/
theorem withGuard_spec {body : IndexM Unit}
    (h : Triple (On k F) body (fun _ => On k G) fun _ => On k H)
    (hF : ∀ e n, F e n → H e n) (hG : ∀ e n, G e n → H e n) :
    Triple (On k F) (withGuard body) (fun _ => On k G) fun _ => On k H := by
  refine Triple.bind (attempt_cut hF) fun _ => ?_
  refine Triple.bind (note_spec rfl rfl) fun _ => ?_
  refine Triple.bind (Triple.catching h fun e => Triple.ite ?_ ?_) fun _ => ?_
  · exact fun _ => Triple.raise fun _ => id
  · intro _
    refine Triple.bind attempt_spec fun _ => ?_
    exact Triple.bind (note_spec rfl rfl) fun _ => Triple.raise fun _ => id
  · exact Triple.bind (attempt_cut hG) fun _ => note_spec rfl rfl

theorem sql_spec {m : Mutation} {key : FileKey} {f : IndexDb → IndexDb}
    (h : ∀ w, On k F w → On k G (w.afterSql m key f)) :
    Triple (On k F) (sql m key f) (fun _ => On k G) fun _ => On k F :=
  Triple.bind attempt_spec fun _ => Triple.modify h

theorem vectorCall_spec {m : Mutation} {key : FileKey}
    {f : Option (List Uuid) → Table Point.id → Table Point.id}
    (hall : ∀ w, On k F w → On k G (w.afterVector m key none (f none)))
    (hpart : ∀ w done, On k F w → On k H (w.afterVector m key (some done) (f (some done)))) :
    Triple (On k F) (vectorCall m key f) (fun _ => On k G) fun _ => On k H := by
  refine Triple.bind (Triple.ask fun _ _ => id) fun fate => ?_
  cases fate with
  | goes => exact Triple.modify hall
  | raises e done =>
      exact Triple.bind (Triple.modify fun w => hpart w done) fun _ => Triple.raise fun _ => id

theorem replaceFileChunks_spec {key : FileKey} {sha256 : HexDigest} {commitSha : String}
    {chunks : List CodeChunk} {vectorSynced : Bool}
    (h : ∀ w db, On k F w → w.db.replaceFileChunks key.repositoryId key.path sha256 commitSha
        chunks vectorSynced = .ok db →
      On k G ({ w with db := db }.write (.mutated .replaceFileChunks key))) :
    Triple (On k F) (replaceFileChunks key sha256 commitSha chunks vectorSynced)
      (fun _ => On k G) fun _ => On k F := by
  refine Triple.bind attempt_spec fun _ => ?_
  refine Triple.bind (Triple.get (Q := fun w w' => w' = w ∧ On k F w)
    fun w hw => ⟨rfl, hw⟩) fun w => ?_
  cases hdb : w.db.replaceFileChunks key.repositoryId key.path sha256 commitSha chunks
      vectorSynced with
  | error text =>
      refine Triple.raise ?_
      rintro w' ⟨rfl, hw⟩
      exact hw
  | ok db =>
      refine Triple.modify ?_
      rintro w' ⟨rfl, hw⟩
      exact h _ db hw hdb

theorem deferring_spec {α : Type} {message : String} {key : FileKey} {value : α}
    (h : ∀ e n, H e n → G e (n + 1)) (e : Exc) :
    Triple (On k H) (deferring message key value e) (fun a w => a = value ∧ On k G w)
      fun _ => On k H := by
  cases e with
  | providerUnavailable text =>
      refine Triple.bind (Triple.modify (Q := fun _ w => On k G w) fun w hw => ?_)
        fun _ => Triple.pure fun _ hw => ⟨rfl, hw⟩
      have hcount : (w.write (.deferred message key text)).deferrals = w.deferrals + 1 :=
        List.countP_cons_of_pos rfl
      rw [On, w.entry_write_of_none rfl, hcount]
      exact h _ _ hw
  | crash => exact Triple.raise fun _ => id
  | leaseLost => exact Triple.raise fun _ => id
  | indexCancelled => exact Triple.raise fun _ => id
  | other text => exact Triple.raise fun _ => id

/-! ## The two guarded bodies -/

/-- What the calls of the deletion loop on `key` do to an assertion: `F` becomes
`F₁` with the deleted rows, `F₂` with the deleted points and `G` in the end; `D` holds
wherever the vector calls are cut off, and `G` after a deferral. -/
structure DeleteCalls (k key : FileKey) (F F₁ F₂ D G H : Entry → Nat → Prop) : Prop where
  rows : ∀ w, On k F w →
    On k F₁ (w.afterSql .deleteFile key (·.deleteFile key.repositoryId key.path))
  points : ∀ w, On k F₁ w → On k F₂ (w.afterVector .vectorDelete key none
    (·.delete fun p => p.key = key && reached none p.id))
  part : ∀ w done, On k F₁ w → On k D (w.afterVector .vectorDelete key (some done)
    (·.delete fun p => p.key = key && reached (some done) p.id))
  tombstone : ∀ w, On k F₂ w → On k G (w.afterSql .finishVectorDeletion key
    (·.finishVectorDeletion key.repositoryId key.path))
  deferred : ∀ e n, D e n → G e (n + 1)
  start_cut : ∀ e n, F e n → H e n
  rows_cut : ∀ e n, F₁ e n → D e n
  points_cut : ∀ e n, F₂ e n → D e n
  deferred_cut : ∀ e n, D e n → H e n
  end_cut : ∀ e n, G e n → H e n

theorem deleteGuarded_spec {key : FileKey} {F₁ F₂ D : Entry → Nat → Prop}
    (h : DeleteCalls k key F F₁ F₂ D G H) :
    Triple (On k F) (deleteGuarded key) (fun _ => On k G) fun _ => On k H := by
  refine Triple.bind (check_cut h.start_cut) fun _ => ?_
  refine Triple.bind ((sql_spec h.rows).exc fun _ => On.mono h.start_cut) fun _ => ?_
  refine Triple.catching (F := fun _ => On k D) ?_ fun e =>
    (deferring_spec h.deferred e).conseq (fun _ => id) (fun _ _ hw => hw.2)
      fun _ => On.mono h.deferred_cut
  refine Triple.bind (check_cut h.rows_cut) fun _ => ?_
  refine Triple.bind (vectorCall_spec h.points h.part) fun _ => ?_
  refine Triple.bind (check_cut h.points_cut) fun _ => ?_
  exact (sql_spec h.tombstone).exc fun _ => On.mono h.points_cut

/-- What the calls on a file that is indexed do to an assertion: `F` becomes `F₁`
with the dirty row, `F₂` without points, `F₃` with the new points, `F₄` with the
row that says so and `G` in the end; `D` holds after a deferral. -/
structure IndexCalls (k key : FileKey) (digest : HexDigest) (commitSha : String)
    (chunks : List CodeChunk) (vectors : List String)
    (F F₁ F₂ F₃ F₄ D G H : Entry → Nat → Prop) : Prop where
  dirty : ∀ w, On k F w →
    On k F₁ (w.afterSql .markVectorDirty key (·.markVectorDirty key.repositoryId key.path))
  unpoint : ∀ w, On k F₁ w → On k F₂ (w.afterVector .vectorDelete key none
    (·.delete fun p => p.key = key && reached none p.id))
  unpoint_part : ∀ w done, On k F₁ w → On k H (w.afterVector .vectorDelete key (some done)
    (·.delete fun p => p.key = key && reached (some done) p.id))
  upsert : ∀ w, On k F₂ w → On k F₃ (w.afterVector .vectorUpsert key none
    (((List.zipWith CodeChunk.toPoint chunks vectors).filter fun p =>
      reached none p.id).foldl Table.upsert ·))
  upsert_part : ∀ w done, On k F₂ w → On k H (w.afterVector .vectorUpsert key (some done)
    (((List.zipWith CodeChunk.toPoint chunks vectors).filter fun p =>
      reached (some done) p.id).foldl Table.upsert ·))
  deferred : ∀ e n, H e n → D e (n + 1)
  synced : ∀ w db, On k F₃ w → w.db.replaceFileChunks key.repositoryId key.path digest
      commitSha chunks true = .ok db →
    On k F₄ ({ w with db := db }.write (.mutated .replaceFileChunks key))
  unsynced : ∀ w db, On k D w → w.db.replaceFileChunks key.repositoryId key.path digest
      commitSha chunks false = .ok db →
    On k G ({ w with db := db }.write (.mutated .replaceFileChunks key))
  tombstone : ∀ w, On k F₄ w → On k G (w.afterSql .finishVectorDeletion key
    (·.finishVectorDeletion key.repositoryId key.path))
  start_cut : ∀ e n, F e n → H e n
  dirty_cut : ∀ e n, F₁ e n → H e n
  unpoint_cut : ∀ e n, F₂ e n → H e n
  upsert_cut : ∀ e n, F₃ e n → H e n
  synced_cut : ∀ e n, F₄ e n → H e n
  deferred_cut : ∀ e n, D e n → H e n
  end_cut : ∀ e n, G e n → H e n

theorem indexGuarded_spec {key : FileKey} {digest : HexDigest} {commitSha : String}
    {chunks : List CodeChunk} {vectors : List String} {F₁ F₂ F₃ F₄ D : Entry → Nat → Prop}
    (h : IndexCalls k key digest commitSha chunks vectors F F₁ F₂ F₃ F₄ D G H) :
    Triple (On k F) (indexGuarded key digest commitSha chunks vectors) (fun _ => On k G)
      fun _ => On k H := by
  refine Triple.bind (check_cut h.start_cut) fun _ => ?_
  refine Triple.bind ((sql_spec h.dirty).exc fun _ => On.mono h.start_cut) fun _ => ?_
  have hsync : Triple (On k F₁)
      ((syncVectors key (List.zipWith CodeChunk.toPoint chunks vectors)).catching
        (deferring "vector sync deferred" key false))
      (fun synced w => (synced = true ∧ On k F₃ w) ∨ (synced = false ∧ On k D w))
      fun _ => On k H := by
    refine Triple.catching (F := fun _ => On k H) ?_ fun e =>
      (deferring_spec h.deferred e).conseq (fun _ => id) (fun _ _ => Or.inr) fun _ _ => id
    refine Triple.bind (check_cut h.dirty_cut) fun _ => ?_
    refine Triple.bind (vectorCall_spec h.unpoint h.unpoint_part) fun _ => ?_
    refine Triple.bind (check_cut h.unpoint_cut) fun _ => ?_
    refine Triple.bind (vectorCall_spec h.upsert h.upsert_part) fun _ => ?_
    exact Triple.pure fun _ hw => Or.inl ⟨rfl, hw⟩
  refine Triple.bind hsync fun vectorSynced => ?_
  cases vectorSynced with
  | true =>
      refine Triple.pre (P := On k F₃) ?_ (by simp)
      refine Triple.bind (check_cut h.upsert_cut) fun _ => ?_
      refine Triple.bind ((replaceFileChunks_spec h.synced).exc
        fun _ => On.mono h.upsert_cut) fun _ => ?_
      refine Triple.bind (check_cut h.synced_cut) fun _ => ?_
      exact (sql_spec h.tombstone).exc fun _ => On.mono h.synced_cut
  | false =>
      refine Triple.pre (P := On k D) ?_ (by simp)
      refine Triple.bind (check_cut h.deferred_cut) fun _ => ?_
      refine Triple.bind ((replaceFileChunks_spec h.unsynced).exc
        fun _ => On.mono h.deferred_cut) fun _ => ?_
      exact Triple.pure fun _ => id

/-! ## One turn of each loop -/

/-- The turn went well and `G` holds, or one more error was counted and `H` holds. -/
def Counted (stats stats' : IndexStats) (G H : Entry → Nat → Prop) (e : Entry) (n : Nat) :
    Prop :=
  (stats'.errorCount = stats.errorCount ∧ G e n) ∨
    (stats'.errorCount = stats.errorCount + 1 ∧ H e n)

theorem countError_spec (stats : IndexStats) (e : Exc) :
    Triple (On k H) (countError stats e) (fun r => On k (Counted stats r.1 G H))
      fun _ => On k H := by
  cases e with
  | providerUnavailable text => exact Triple.pure fun _ hw => Or.inr ⟨rfl, hw⟩
  | other text => exact Triple.pure fun _ hw => Or.inr ⟨rfl, hw⟩
  | crash => exact Triple.raise fun _ => id
  | leaseLost => exact Triple.raise fun _ => id
  | indexCancelled => exact Triple.raise fun _ => id

theorem Counted.cut {stats stats' : IndexStats} (hG : ∀ e n, G e n → H e n) (e : Entry) (n : Nat)
    (h : Counted stats stats' G H e n) : H e n :=
  h.elim (fun h => hG e n h.2) And.right

theorem deleteOne_spec {repositoryId : Uuid} {path : String} {F₁ F₂ D : Entry → Nat → Prop}
    (stats : IndexStats) (h : DeleteCalls k ⟨repositoryId, path⟩ F F₁ F₂ D G H) :
    Triple (On k F) (deleteOne repositoryId stats path)
      (fun stats' => On k (Counted stats stats' G H)) fun _ => On k H := by
  refine Triple.bind (attempt_cut h.start_cut) fun _ => ?_
  refine Triple.bind (R := fun r => On k (Counted stats r.1 G H))
    (Triple.catching (F := fun _ => On k H) ?_ (countError_spec stats)) ?_
  · exact Triple.bind (withGuard_spec (deleteGuarded_spec h) h.start_cut h.end_cut)
      fun _ => Triple.pure fun _ hw => Or.inl ⟨rfl, hw⟩
  · rintro ⟨stats', error⟩
    refine Triple.bind ((progress_spec stats' (some path) error).exc
      fun _ => On.mono (Counted.cut h.end_cut)) fun _ => ?_
    exact Triple.pure fun _ => id

theorem readFile_spec {P : World → Prop} (bytes : Option ByteArray) :
    Triple P (readFile bytes) (fun b w => bytes = some b ∧ P w) fun _ => P := by
  refine Triple.bind attempt_spec fun _ => ?_
  cases bytes with
  | none => exact Triple.raise fun _ => id
  | some b => exact Triple.pure fun _ hw => ⟨rfl, hw⟩

theorem embedFile_spec {P : World → Prop} (h : Hashing) (ix : Indexer) (key : FileKey)
    (commitSha content : String) :
    Triple P (embedFile h ix key commitSha content)
      (fun items w => ix.fileItems h key commitSha content = .ok items ∧ P w)
      fun _ => P := by
  refine Triple.bind attempt_spec fun _ => ?_
  refine Triple.bind (R := fun _ => P)
    (Triple.ite (fun _ => Triple.pure fun _ => id) fun _ => attempt_spec) fun _ => ?_
  cases hitems : ix.fileItems h key commitSha content with
  | error text => exact Triple.raise fun _ => id
  | ok items => exact Triple.pure fun _ hw => ⟨rfl, hw⟩

/-- What the second loop does to an assertion at one path: the skip of an unchanged
file takes `F` to `G`, and so does indexing it. -/
structure FileCalls (k : FileKey) (h : Hashing) (ix : Indexer) (repositoryId : Uuid)
    (mode : Mode) (tree : Tree) (manifest : List FileRow) (deleted : List String)
    (path : RelPath) (F G H : Entry → Nat → Prop) : Prop where
  skip : ∀ bytes, tree.hashed path = some bytes →
    unchanged mode manifest deleted path.asPosix (h.sha256 bytes) = true →
    ∀ w, On k F w → On k G (w.afterSql .updateFileCommit ⟨repositoryId, path.asPosix⟩
      (·.updateFileCommit repositoryId path.asPosix tree.commitSha))
  index : ∀ bytes content chunks vectors, tree.hashed path = some bytes →
    ¬ unchanged mode manifest deleted path.asPosix (h.sha256 bytes) = true →
    tree.read path = some content →
    ix.fileItems h ⟨repositoryId, path.asPosix⟩ tree.commitSha (ix.readText content) =
      .ok (chunks, vectors) →
    ∃ F₁ F₂ F₃ F₄ D, IndexCalls k ⟨repositoryId, path.asPosix⟩ (h.sha256 bytes)
      tree.commitSha chunks vectors F F₁ F₂ F₃ F₄ D G H
  start_cut : ∀ e n, F e n → H e n
  end_cut : ∀ e n, G e n → H e n

variable {h : Hashing} {ix : Indexer} {repositoryId : Uuid} {mode : Mode} {tree : Tree}
  {manifest : List FileRow} {deleted : List String} {path : RelPath}

theorem indexFile_spec (stats : IndexStats)
    (hcalls : FileCalls k h ix repositoryId mode tree manifest deleted path F G H) :
    Triple (On k F) (indexFile h ix repositoryId mode tree manifest deleted stats path)
      (fun stats' w => stats'.errorCount = stats.errorCount ∧ On k G w) fun _ => On k H := by
  have hcut : ∀ w, On k F w → On k H w := On.mono hcalls.start_cut
  refine Triple.bind ((readFile_spec (P := On k F) (tree.hashed path)).exc
    fun _ => hcut) fun bytes => Triple.ite ?_ ?_
  · intro hunchanged
    refine Triple.bind (withGuard_spec (F := fun e n => tree.hashed path = some bytes ∧ F e n)
      (G := G) ?_ (fun e n hw => hcalls.start_cut e n hw.2) hcalls.end_cut)
      fun _ => Triple.pure fun _ hw => ⟨rfl, hw⟩
    refine Triple.bind (check_spec.exc
      fun _ => On.mono fun e n hw => hcalls.start_cut e n hw.2) fun _ => ?_
    refine (sql_spec fun w hw => ?_).exc fun _ => On.mono fun e n hw => hcalls.start_cut e n hw.2
    exact hcalls.skip bytes hw.1 hunchanged w hw.2
  · intro hchanged
    refine Triple.bind ((readFile_spec
      (P := fun w => tree.hashed path = some bytes ∧ On k F w) (tree.read path)).conseq
      (fun _ => id) (fun _ _ => id) fun _ w hw => hcut w hw.2) fun content => ?_
    refine Triple.bind ((embedFile_spec h ix ⟨repositoryId, path.asPosix⟩ tree.commitSha
      (ix.readText content)).exc fun _ w hw => hcut w hw.2.2) ?_
    rintro ⟨chunks, vectors⟩
    refine Triple.of_forall fun w hw => ?_
    obtain ⟨hitems, hread, hhashed, hF⟩ := hw
    obtain ⟨F₁, F₂, F₃, F₄, D, hindex⟩ :=
      hcalls.index bytes content chunks vectors hhashed hchanged hread hitems
    refine Triple.pre (P := On k F) ?_ (fun _ hw => hw ▸ hF)
    exact Triple.bind (withGuard_spec (indexGuarded_spec hindex) hcalls.start_cut
      hcalls.end_cut) fun _ => Triple.pure fun _ hw => ⟨rfl, hw⟩

theorem indexOne_spec (stats : IndexStats)
    (hcalls : FileCalls k h ix repositoryId mode tree manifest deleted path F G H) :
    Triple (On k F) (indexOne h ix repositoryId mode tree manifest deleted stats path)
      (fun stats' => On k (Counted stats stats' G H)) fun _ => On k H := by
  refine Triple.bind (attempt_cut hcalls.start_cut) fun _ => ?_
  refine Triple.bind (R := fun r => On k (Counted stats r.1 G H))
    (Triple.catching (F := fun _ => On k H) ?_ (countError_spec stats)) ?_
  · exact Triple.bind (indexFile_spec stats hcalls)
      fun _ => Triple.pure fun _ hw => Or.inl hw
  · rintro ⟨stats', error⟩
    refine Triple.bind ((progress_spec stats' (some path.asPosix) error).exc
      fun _ => On.mono (Counted.cut hcalls.end_cut)) fun _ => ?_
    exact Triple.pure fun _ => id

end

/-! ## The whole pass -/

/-- A pass from `w`: the first report, the deletion loop, the indexing loop and the mark at the
end, with what holds between them once the files are found. -/
theorem index_rule {h : Hashing} {ix : Indexer} {repositoryId : Uuid} {mode : Mode} {tree : Tree}
    {w : World} {Q : IndexStats → World → Prop} {E : Exc → World → Prop} (hstart : ∀ e, E e w)
    (hparts : ∀ files, tree.found = .ok files →
      (w.db.repositories.get? repositoryId).isSome = true →
      let manifest := w.db.fileManifest repositoryId
      let deleted := deletedPaths manifest (w.db.pendingDeletions repositoryId) files
      ∃ (P : World → Prop) (D I : IndexStats → World → Prop),
        (∀ stats, Triple (fun w' => w' = w) (progress stats none none) (fun _ => P) E) ∧
        (∀ stats, stats.errorCount = 0 →
          Triple P (deleted.foldlM (deleteOne repositoryId) stats) D E) ∧
        (∀ stats, Triple (D stats) ((relativeMap files).foldlM
          (indexOne h ix repositoryId mode tree manifest deleted) stats) I E) ∧
        ∀ stats, Triple (I stats) (withGuard (markIndexed repositoryId tree.commitSha))
          (fun _ => Q stats) E) :
    Triple (fun w' => w' = w) (index h ix repositoryId mode tree) Q E := by
  have hcut : ∀ e w', w' = w → E e w' := by
    rintro e w' rfl
    exact hstart e
  refine Triple.bind (attempt_spec.exc hcut) fun _ => ?_
  refine Triple.bind (Triple.get (Q := fun a w' => a = w ∧ w' = w) ?_) fun a => ?_
  · rintro w' rfl
    exact ⟨rfl, rfl⟩
  refine Triple.of_forall fun w' hw' => ?_
  obtain ⟨rfl, rfl⟩ := hw'
  refine Triple.ite (fun _ => Triple.raise (hcut _)) fun hregistered => ?_
  refine Triple.bind (attempt_spec.exc hcut) fun _ => ?_
  cases hfound : tree.found with
  | error e => exact Triple.raise (hcut _)
  | ok files =>
      obtain ⟨P, D, I, hprogress, hdeletes, hfiles, hmark⟩ := hparts files hfound
        (by simpa [Option.isSome_iff_ne_none] using hregistered)
      refine Triple.bind (hprogress _) fun _ => Triple.bind (hdeletes _ rfl) fun stats => ?_
      refine Triple.bind (hfiles stats) fun stats' => ?_
      exact Triple.bind (hmark stats') fun _ => Triple.pure fun _ => id

end RepoMesh
