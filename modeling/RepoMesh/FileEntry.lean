import RepoMesh.SyncProtocol

/-!
# The entry of a file

`World.entry` reads off the index, the vector store and the log what the sync
protocol speaks of. Each storage call does to the entry of its own file the
protocol's step and leaves every other entry alone; the calls that store chunks under
a normalised path leave alone the entries that are foreign to both paths.
-/

namespace RepoMesh

/-! ## Rows of one key -/

namespace Table

variable {κ α : Type*} {key : α → κ}

theorem filter_delete_self (t : Table key) (q : α → Bool) : (t.delete q).rows.filter q = [] := by
  rw [List.filter_eq_nil_iff]
  intro r hr
  simp [(mem_delete.mp hr).2]

theorem filter_delete_of_disjoint (t : Table key) {p q : α → Bool}
    (h : ∀ r, q r = true → p r = false) : (t.delete p).rows.filter q = t.rows.filter q := by
  rw [delete, List.filter_filter]
  refine List.filter_congr fun r _ => ?_
  cases hq : q r with
  | false => simp
  | true => simp [h r hq]

theorem filter_update (t : Table key) {p q : α → Bool} {f : α → α} (hf : ∀ r, key (f r) = key r)
    (hq : ∀ r, q (f r) = q r) :
    (t.update p f hf).rows.filter q = (t.rows.filter q).map fun r => if p r then f r else r := by
  rw [update, List.filter_map]
  congr 1
  refine List.filter_congr fun r _ => ?_
  simp only [Function.comp]
  split
  · exact hq r
  · rfl

end Table

/-! ## Reading an entry -/

/-- What a log entry says about the window of `k`. -/
def LogEntry.window (k : FileKey) : LogEntry → Option Bool
  | .mutated .vectorUpsert key | .interrupted .vectorUpsert key =>
      if key = k then some true else none
  | .mutated .vectorDelete key | .mutated .replaceFileChunks key =>
      if key = k then some false else none
  | _ => none

/-- An upsert for `k` is the newest word of the log on its window. -/
def windowOpen (k : FileKey) (log : List LogEntry) : Bool :=
  (log.findSome? (·.window k)).getD false

def LogEntry.isDeferred : LogEntry → Bool
  | .deferred _ _ _ => true
  | _ => false

namespace World

def entry (k : FileKey) (w : World) : Entry where
  row := w.db.files.get? k
  pending := (w.db.pending.get? k).isSome
  chunks := w.db.chunks.rows.filter (·.key = k)
  points := {p | p ∈ w.points.rows ∧ p.key = k}
  windowOpen := RepoMesh.windowOpen k w.log

/-- The vector calls that were given up, counted by their warnings. -/
def deferrals (w : World) : Nat := w.log.countP LogEntry.isDeferred

variable {k key : FileKey} (w : World)

@[simp] theorem mem_entry_chunks {w : World} {c : CodeChunk} :
    c ∈ (w.entry k).chunks ↔ c ∈ w.db.chunks.rows ∧ c.key = k := by
  simp [World.entry]

@[simp] theorem mem_entry_points {w : World} {p : Point} :
    p ∈ (w.entry k).points ↔ p ∈ w.points.rows ∧ p.key = k := Iff.rfl

theorem entry_write (entry : LogEntry) :
    (w.write entry).entry k =
      { w.entry k with windowOpen := (entry.window k).getD (w.entry k).windowOpen } := by
  simp only [World.entry, write, RepoMesh.windowOpen, List.findSome?_cons]
  cases entry.window k <;> rfl

theorem entry_write_of_none {entry : LogEntry} (h : entry.window k = none) :
    (w.write entry).entry k = w.entry k := by
  rw [entry_write, h]
  rfl

theorem deferrals_write {entry : LogEntry} (h : entry.isDeferred = false) :
    (w.write entry).deferrals = w.deferrals := by
  simp [deferrals, write, h]

/-! ## The index -/

/-- The world after a transaction on the index. -/
def afterSql (m : Mutation) (key : FileKey) (f : IndexDb → IndexDb) : World :=
  { w with db := f w.db }.write (.mutated m key)

theorem entry_deleteFile :
    (w.afterSql .deleteFile key (·.deleteFile key.repositoryId key.path)).entry key =
      (w.entry key).deleteFile := by
  rw [afterSql, entry_write_of_none _ rfl]
  simp only [World.entry, IndexDb.deleteFile, Entry.deleteFile, Entry.mk.injEq, and_true]
  refine ⟨?_, ?_, Table.filter_delete_self _ _⟩
  · rw [Table.get?_delete]
    cases h : w.db.files.get? key with
    | none => rfl
    | some r => simp [Option.filter, Table.key_of_get? h]
  · have hget := Table.get?_insertNew w.db.pending key key
    rw [show (⟨key.repositoryId, key.path⟩ : FileKey) = key from rfl, hget]
    simp

theorem entry_deleteFile_of_ne (h : key ≠ k) :
    (w.afterSql .deleteFile key (·.deleteFile key.repositoryId key.path)).entry k =
      w.entry k := by
  rw [afterSql, entry_write_of_none _ rfl]
  simp only [World.entry, IndexDb.deleteFile, Entry.mk.injEq, and_true]
  refine ⟨?_, ?_, ?_⟩
  · rw [Table.get?_delete]
    cases hr : w.db.files.get? k with
    | none => rfl
    | some r => simp [Option.filter, Table.key_of_get? hr, Ne.symm h]
  · rw [Table.get?_insertNew_of_ne h]
  · refine Table.filter_delete_of_disjoint _ fun r hr => ?_
    simp only [decide_eq_true_eq] at hr
    simp [hr, Ne.symm h]

theorem entry_markVectorDirty :
    (w.afterSql .markVectorDirty key (·.markVectorDirty key.repositoryId key.path)).entry key =
      (w.entry key).markDirty := by
  rw [afterSql, entry_write_of_none _ rfl]
  simp only [World.entry, IndexDb.markVectorDirty, Entry.markDirty, Entry.mk.injEq, and_true,
    Table.get?_update]
  cases h : w.db.files.get? key with
  | none => rfl
  | some r => simp [Table.key_of_get? h]

theorem entry_markVectorDirty_of_ne (h : key ≠ k) :
    (w.afterSql .markVectorDirty key (·.markVectorDirty key.repositoryId key.path)).entry k =
      w.entry k := by
  rw [afterSql, entry_write_of_none _ rfl]
  simp only [World.entry, IndexDb.markVectorDirty, Entry.mk.injEq, and_true, Table.get?_update]
  cases hr : w.db.files.get? k with
  | none => rfl
  | some r => simp [Table.key_of_get? hr, Ne.symm h]

theorem entry_finishVectorDeletion :
    (w.afterSql .finishVectorDeletion key
      (·.finishVectorDeletion key.repositoryId key.path)).entry key = (w.entry key).finish := by
  rw [afterSql, entry_write_of_none _ rfl]
  simp only [World.entry, IndexDb.finishVectorDeletion, Entry.finish, Entry.mk.injEq, and_true,
    true_and, Table.get?_delete]
  cases h : w.db.pending.get? key with
  | none => rfl
  | some r =>
      have hr : r = key := Table.key_of_get? h
      simp [Option.filter, hr]

theorem entry_finishVectorDeletion_of_ne (h : key ≠ k) :
    (w.afterSql .finishVectorDeletion key
      (·.finishVectorDeletion key.repositoryId key.path)).entry k = w.entry k := by
  rw [afterSql, entry_write_of_none _ rfl]
  simp only [World.entry, IndexDb.finishVectorDeletion, Entry.mk.injEq, and_true, true_and,
    Table.get?_delete]
  cases hr : w.db.pending.get? k with
  | none => rfl
  | some r =>
      have hk : r = k := Table.key_of_get? hr
      simp [Option.filter, hk, Ne.symm h]

theorem entry_updateFileCommit (commitSha : String) :
    (w.afterSql .updateFileCommit key
      (·.updateFileCommit key.repositoryId key.path commitSha)).entry key =
      (w.entry key).updateCommit commitSha := by
  rw [afterSql, entry_write_of_none _ rfl]
  simp only [World.entry, IndexDb.updateFileCommit, Entry.updateCommit, Entry.mk.injEq,
    and_true, true_and, Table.get?_update]
  constructor
  · cases h : w.db.files.get? key with
    | none => rfl
    | some r => simp [Table.key_of_get? h]
  · rw [Table.filter_update (f := CodeChunk.atCommit commitSha) _ _ fun _ => rfl]
    exact List.map_congr_left fun c hc => if_pos (List.mem_filter.mp hc).2

theorem entry_updateFileCommit_of_ne (commitSha : String) (h : key ≠ k) :
    (w.afterSql .updateFileCommit key
      (·.updateFileCommit key.repositoryId key.path commitSha)).entry k = w.entry k := by
  rw [afterSql, entry_write_of_none _ rfl]
  simp only [World.entry, IndexDb.updateFileCommit, Entry.mk.injEq, and_true, true_and,
    Table.get?_update]
  constructor
  · cases hr : w.db.files.get? k with
    | none => rfl
    | some r => simp [Table.key_of_get? hr, Ne.symm h]
  · rw [Table.filter_update (f := CodeChunk.atCommit commitSha) _ _ fun _ => rfl]
    conv_rhs => rw [← List.map_id (w.db.chunks.rows.filter _)]
    refine List.map_congr_left fun c hc => if_neg ?_
    have hkey : c.key = k := by simpa using (List.mem_filter.mp hc).2
    simp [hkey, Ne.symm h]

theorem insertChunks_rows {t t' : Table CodeChunk.id} {chunks : List CodeChunk}
    (h : IndexDb.insertChunks t chunks = some t') : t'.rows = t.rows ++ chunks := by
  induction chunks generalizing t with
  | nil =>
      obtain rfl := Option.some.inj h
      rw [List.append_nil]
  | cons c chunks ih =>
      obtain ⟨t₁, hinsert, hrest⟩ := Option.bind_eq_some_iff.mp h
      rw [ih hrest, Table.insert?_rows hinsert, List.append_assoc, List.singleton_append]

theorem replaceFileChunks_ok {db db' : IndexDb} {sha256 : HexDigest} {commitSha : String}
    {chunks : List CodeChunk} {vectorSynced : Bool}
    (h : db.replaceFileChunks key.repositoryId key.path sha256 commitSha chunks vectorSynced =
      .ok db') :
    db'.pending = db.pending ∧
      db'.chunks.rows = (db.chunks.delete (·.key = key)).rows ++ chunks ∧
      db'.files = db.files.upsert
        ⟨key.repositoryId, key.path, sha256, commitSha, chunks.length, vectorSynced⟩ := by
  rw [IndexDb.replaceFileChunks] at h
  split at h
  · cases h
  · rename_i inserted hinsert
    obtain rfl := Except.ok.inj h
    exact ⟨rfl, insertChunks_rows hinsert, rfl⟩

theorem entry_replaceFileChunks {db : IndexDb} (v : Version key) {vectorSynced : Bool}
    (h : w.db.replaceFileChunks key.repositoryId key.path v.sha256 v.commitSha v.chunks
      vectorSynced = .ok db) :
    ({ w with db := db }.write (.mutated .replaceFileChunks key)).entry key =
      (w.entry key).replace v vectorSynced := by
  obtain ⟨hpending, hchunks, hfiles⟩ := replaceFileChunks_ok h
  rw [entry_write]
  simp only [World.entry, Entry.replace, LogEntry.window, if_true, Option.getD_some,
    Entry.mk.injEq, and_true]
  refine ⟨?_, by rw [hpending], ?_⟩
  · rw [hfiles, Table.get?_upsert]
    exact if_pos rfl
  · rw [hchunks, List.filter_append, Table.filter_delete_self, List.nil_append,
      List.filter_eq_self]
    simpa using v.chunks_key

theorem entry_replaceFileChunks_of_ne {db : IndexDb} {sha256 : HexDigest} {commitSha : String}
    {chunks : List CodeChunk} {vectorSynced : Bool} (hne : key ≠ k)
    (hchunks : ∀ c ∈ chunks, c.key ≠ k)
    (h : w.db.replaceFileChunks key.repositoryId key.path sha256 commitSha chunks
      vectorSynced = .ok db) :
    ({ w with db := db }.write (.mutated .replaceFileChunks key)).entry k = w.entry k := by
  obtain ⟨hpending, hrows, hfiles⟩ := replaceFileChunks_ok h
  rw [entry_write_of_none _ (by simp [LogEntry.window, hne])]
  simp only [World.entry, Entry.mk.injEq, and_true]
  refine ⟨?_, by rw [hpending], ?_⟩
  · rw [hfiles, Table.get?_upsert]
    exact if_neg hne
  · have hnone : chunks.filter (fun c => decide (c.key = k)) = [] := by
      simpa using hchunks
    rw [hrows, List.filter_append, hnone, List.append_nil]
    refine Table.filter_delete_of_disjoint _ fun c hc => ?_
    simp only [decide_eq_true_eq] at hc
    simp [hc, Ne.symm hne]

/-! ## The vector store -/

/-- The world after a vector call; `done` as for `vectorCall`. -/
def afterVector (m : Mutation) (key : FileKey) (done : Option (List Uuid))
    (f : Table Point.id → Table Point.id) : World :=
  { w with points := f w.points }.write
    (if done.isNone then .mutated m key else .interrupted m key)

theorem entry_vectorDelete (done : Option (List Uuid)) :
    (w.afterVector .vectorDelete key done
      (·.delete fun p => p.key = key && reached done p.id)).entry key =
      (w.entry key).unpoint done := by
  rw [afterVector, entry_write]
  have hpoints : {p | p ∈ (w.points.delete fun p => p.key = key && reached done p.id).rows ∧
      p.key = key} = {p | (p ∈ w.points.rows ∧ p.key = key) ∧ reached done p.id = false} := by
    ext p
    simp only [Table.mem_delete, Set.mem_ofPred_eq, Bool.and_eq_false_iff,
      decide_eq_false_iff_not]
    tauto
  simp only [World.entry, Entry.unpoint, Entry.mk.injEq, true_and]
  refine ⟨hpoints, ?_⟩
  cases done <;> simp [LogEntry.window]

theorem entry_vectorDelete_of_ne (done : Option (List Uuid)) (h : key ≠ k) :
    (w.afterVector .vectorDelete key done
      (·.delete fun p => p.key = key && reached done p.id)).entry k = w.entry k := by
  have hwindow : (if done.isNone then LogEntry.mutated .vectorDelete key
      else .interrupted .vectorDelete key).window k = none := by
    cases done <;> simp [LogEntry.window, h]
  rw [afterVector, entry_write_of_none _ hwindow]
  simp only [World.entry, Entry.mk.injEq, and_true, true_and]
  ext p
  simp only [Table.mem_delete, Set.mem_ofPred_eq, Bool.and_eq_false_iff,
    decide_eq_false_iff_not]
  refine ⟨fun hp => ⟨hp.1.1, hp.2⟩, fun hp => ⟨⟨hp.1, Or.inl ?_⟩, hp.2⟩⟩
  rw [hp.2]
  exact Ne.symm h

theorem foldl_upsert (t : Table Point.id) (items : List Point) :
    {x | x ∈ (items.foldl Table.upsert t).rows} = upsertAll {x | x ∈ t.rows} items := by
  induction items generalizing t with
  | nil => rfl
  | cons p items ih =>
      have hset : {x | x ∈ (t.upsert p).rows} = upsertOne {x | x ∈ t.rows} p := by
        ext x
        exact Table.mem_upsert
      rw [List.foldl_cons, ih, hset]
      rfl

/-- Upserting points of `k`, seen among the points of `k`. -/
theorem upsertAll_own {points : Set Point} {items : List Point} (h : ∀ p ∈ items, p.key = k) :
    {x | x ∈ upsertAll points items ∧ x.key = k} =
      upsertAll {x | x ∈ points ∧ x.key = k} items := by
  induction items generalizing points with
  | nil => rfl
  | cons p items ih =>
      have hp := h p List.mem_cons_self
      have hset : {x | x ∈ upsertOne points p ∧ x.key = k} =
          upsertOne {x | x ∈ points ∧ x.key = k} p := by
        ext x
        constructor
        · rintro ⟨rfl | ⟨hx, hid⟩, hk⟩
          · exact Or.inl rfl
          · exact Or.inr ⟨⟨hx, hk⟩, hid⟩
        · rintro (rfl | ⟨⟨hx, hk⟩, hid⟩)
          · exact ⟨Or.inl rfl, hp⟩
          · exact ⟨Or.inr ⟨hx, hid⟩, hk⟩
      have hstep : {x | x ∈ upsertAll (upsertOne points p) items ∧ x.key = k} =
          upsertAll {x | x ∈ upsertOne points p ∧ x.key = k} items :=
        ih fun q hq => h q (List.mem_cons_of_mem _ hq)
      rw [hset] at hstep
      exact hstep

/-- Upserting points of other keys with other ids leaves the points of `k` alone. -/
theorem upsertAll_foreign {points : Set Point} {items : List Point}
    (hkey : ∀ p ∈ items, p.key ≠ k)
    (hid : ∀ p ∈ items, ∀ x ∈ points, x.key = k → x.id ≠ p.id) :
    {x | x ∈ upsertAll points items ∧ x.key = k} = {x | x ∈ points ∧ x.key = k} := by
  induction items generalizing points with
  | nil => rfl
  | cons p items ih =>
      have hset : {x | x ∈ upsertOne points p ∧ x.key = k} = {x | x ∈ points ∧ x.key = k} := by
        ext x
        constructor
        · rintro ⟨rfl | ⟨hx, -⟩, hk⟩
          · exact absurd hk (hkey _ List.mem_cons_self)
          · exact ⟨hx, hk⟩
        · rintro ⟨hx, hk⟩
          exact ⟨Or.inr ⟨hx, hid p List.mem_cons_self x hx hk⟩, hk⟩
      have hstep : {x | x ∈ upsertAll (upsertOne points p) items ∧ x.key = k} =
          {x | x ∈ upsertOne points p ∧ x.key = k} := by
        refine ih (fun q hq => hkey q (List.mem_cons_of_mem _ hq)) ?_
        intro q hq x hx hk
        have hmem : x ∈ points := by
          rcases hx with rfl | ⟨hx, -⟩
          · exact absurd hk (hkey _ List.mem_cons_self)
          · exact hx
        exact hid q (List.mem_cons_of_mem _ hq) x hmem hk
      exact hstep.trans hset

theorem entry_vectorUpsert (done : Option (List Uuid)) {items : List Point}
    (h : ∀ p ∈ items, p.key = key) :
    (w.afterVector .vectorUpsert key done
      ((items.filter fun p => reached done p.id).foldl Table.upsert ·)).entry key =
      (w.entry key).upsert done items := by
  have hwindow : (if done.isNone then LogEntry.mutated .vectorUpsert key
      else .interrupted .vectorUpsert key).window key = some true := by
    cases done <;> simp [LogEntry.window]
  rw [afterVector, entry_write, hwindow]
  simp only [World.entry, Entry.upsert, Option.getD_some, Entry.mk.injEq, true_and, and_true]
  have hpoints := foldl_upsert w.points (items.filter fun p => reached done p.id)
  have hmem : ∀ x, x ∈ ((items.filter fun p => reached done p.id).foldl Table.upsert
      w.points).rows ↔ x ∈ upsertAll {x | x ∈ w.points.rows}
        (items.filter fun p => reached done p.id) := fun x => by
    rw [← hpoints]
    rfl
  simp only [hmem]
  exact upsertAll_own fun p hp => h p (List.mem_of_mem_filter hp)

theorem entry_vectorUpsert_of_ne (done : Option (List Uuid)) {items : List Point}
    (hne : key ≠ k) (hkey : ∀ p ∈ items, p.key ≠ k)
    (hid : ∀ p ∈ items, ∀ x ∈ (w.entry k).points, x.id ≠ p.id) :
    (w.afterVector .vectorUpsert key done
      ((items.filter fun p => reached done p.id).foldl Table.upsert ·)).entry k =
      w.entry k := by
  have hwindow : (if done.isNone then LogEntry.mutated .vectorUpsert key
      else .interrupted .vectorUpsert key).window k = none := by
    cases done <;> simp [LogEntry.window, hne]
  rw [afterVector, entry_write_of_none _ hwindow]
  simp only [World.entry, Entry.mk.injEq, true_and, and_true]
  have hpoints := foldl_upsert w.points (items.filter fun p => reached done p.id)
  have hmem : ∀ x, x ∈ ((items.filter fun p => reached done p.id).foldl Table.upsert
      w.points).rows ↔ x ∈ upsertAll {x | x ∈ w.points.rows}
        (items.filter fun p => reached done p.id) := fun x => by
    rw [← hpoints]
    rfl
  simp only [hmem]
  exact upsertAll_foreign (fun p hp => hkey p (List.mem_of_mem_filter hp))
    fun p hp x hx hk => hid p (List.mem_of_mem_filter hp) x ⟨hx, hk⟩

end World

end RepoMesh
