import RepoMesh.IndexHistory

/-!
# What each storage call does to an entry

Instances of the specifications of `IndexSteps` for one file `k`: the calls on `k`
itself take its entry along moves of the sync protocol, and a deletion or an indexing
without trouble ends in the entry it should; the calls on other files keep the entry,
as long as they store no chunk under the path of `k` and no point with an id that the
entry has.
-/

namespace RepoMesh

/-! ## Counting deferrals -/

theorem World.deferrals_afterSql (w : World) (m : Mutation) (key : FileKey)
    (f : IndexDb → IndexDb) : (w.afterSql m key f).deferrals = w.deferrals :=
  World.deferrals_write { w with db := f w.db } rfl

theorem World.deferrals_afterVector (w : World) (m : Mutation) (key : FileKey)
    (done : Option (List Uuid)) (f : Table Point.id → Table Point.id) :
    (w.afterVector m key done f).deferrals = w.deferrals := by
  cases done with
  | none => exact World.deferrals_write { w with points := f w.points } rfl
  | some ids => exact World.deferrals_write { w with points := f w.points } rfl

theorem World.deferrals_replaced (w : World) (db : IndexDb) (key : FileKey) :
    ({ w with db := db }.write (.mutated .replaceFileChunks key)).deferrals = w.deferrals :=
  World.deferrals_write { w with db := db } rfl

/-! ## Assertions -/

section

variable {k : FileKey} {W : Version k → Prop} {e₀ e₁ : Entry} {n₀ n₁ : Nat}

def Exactly (e₀ : Entry) (n₀ : Nat) (e : Entry) (n : Nat) : Prop := e = e₀ ∧ n = n₀

/-- The entry is as it was; vector calls may have been given up. -/
def Kept (e₀ : Entry) (n₀ : Nat) (e : Entry) (n : Nat) : Prop := e = e₀ ∧ n₀ ≤ n

/-- The entry was moved by the protocol. -/
def Moved (W : Version k → Prop) (e₀ : Entry) (n₀ : Nat) (e : Entry) (n : Nat) : Prop :=
  FileMoves k W e₀ e ∧ n₀ ≤ n

/-- Moved, and to `T` unless a vector call was given up. -/
def Reaches (W : Version k → Prop) (e₀ : Entry) (n₀ : Nat) (T : Entry → Prop) (e : Entry)
    (n : Nat) : Prop :=
  FileMoves k W e₀ e ∧ n₀ ≤ n ∧ (n = n₀ → T e)

theorem moved_of_exactly (h : FileMoves k W e₀ e₁) (e : Entry) (n : Nat)
    (he : Exactly e₁ n₀ e n) : Moved W e₀ n₀ e n :=
  ⟨he.1 ▸ h, he.2.ge⟩

theorem moved_of_reaches {T : Entry → Prop} (e : Entry) (n : Nat)
    (h : Reaches W e₀ n₀ T e n) : Moved W e₀ n₀ e n :=
  ⟨h.1, h.2.1⟩

/-! ## The calls on the file itself -/

theorem unsynced_deleteFile (e : Entry) : e.deleteFile.Unsynced := fun _ hr =>
  absurd hr (by simp [Entry.deleteFile])

theorem unsynced_markDirty (e : Entry) : e.markDirty.Unsynced := by
  intro r hr
  obtain ⟨r', -, rfl⟩ := Option.map_eq_some_iff.mp hr
  rfl

theorem unpoint_none_points (e : Entry) : (e.unpoint none).points = ∅ := by
  ext p
  simp [Entry.unpoint, reached]

theorem upsert_none_points {e : Entry} (h : e.points = ∅) (v : Version k) :
    (e.upsert none v.points).points = v.pointSet := by
  have hall : v.points.filter (fun p => reached none p.id) = v.points :=
    List.filter_eq_self.mpr fun _ _ => rfl
  rw [Entry.upsert, hall, h, Version.pointSet]

theorem finish_deleted (e : Entry) : (e.deleteFile.unpoint none).finish = Entry.absent := by
  have hpoints := unpoint_none_points e.deleteFile
  simp only [Entry.finish, Entry.unpoint, Entry.deleteFile, Entry.absent] at hpoints ⊢
  rw [hpoints]
  rfl

/-- The entry of a file whose version is stored and in step. -/
def Version.entry (v : Version k) : Entry :=
  ⟨some (v.row true), false, v.chunks, v.pointSet, false⟩

theorem deleteCalls_own {key : FileKey} (hkey : key = k) :
    DeleteCalls k key (Exactly e₀ n₀) (Exactly e₀.deleteFile n₀)
      (Exactly (e₀.deleteFile.unpoint none) n₀) (Moved W e₀ n₀)
      (Reaches W e₀ n₀ (· = Entry.absent)) (Moved W e₀ n₀) := by
  subst hkey
  have hrows : FileMoves key W e₀ e₀.deleteFile := .single (.delete e₀)
  have hpoints : FileMoves key W e₀ (e₀.deleteFile.unpoint none) :=
    hrows.tail (.unpoint _ none (unsynced_deleteFile e₀))
  refine
    { rows := ?_, points := ?_, part := ?_, tombstone := ?_
      deferred := fun e n h => ⟨h.1, Nat.le_succ_of_le h.2, fun hn => absurd h.2 (by omega)⟩
      start_cut := moved_of_exactly .refl
      rows_cut := moved_of_exactly hrows
      points_cut := moved_of_exactly hpoints
      deferred_cut := fun _ _ => id
      end_cut := moved_of_reaches }
  · rintro w ⟨he, hn⟩
    exact ⟨by rw [w.entry_deleteFile, he], by rw [w.deferrals_afterSql, hn]⟩
  · rintro w ⟨he, hn⟩
    exact ⟨by rw [w.entry_vectorDelete, he], by rw [w.deferrals_afterVector, hn]⟩
  · rintro w done ⟨he, hn⟩
    refine ⟨?_, by rw [w.deferrals_afterVector, hn]⟩
    rw [w.entry_vectorDelete, he]
    exact hrows.tail (.unpoint _ (some done) (unsynced_deleteFile e₀))
  · rintro w ⟨he, hn⟩
    rw [On, w.entry_finishVectorDeletion, he, w.deferrals_afterSql, hn]
    refine ⟨?_, le_refl _, fun _ => finish_deleted e₀⟩
    exact hpoints.tail (.finishDelete _ rfl (unpoint_none_points _))

variable (e₀ n₀) in
theorem indexCalls_own {key : FileKey} (hkey : key = k) {v : Version k} (hv : W v)
    {vectors : List String}
    (hpoints : v.points = List.zipWith CodeChunk.toPoint v.chunks vectors)
    {T : Entry → Prop} (hT : T v.entry) :
    IndexCalls k key v.sha256 v.commitSha v.chunks vectors (Exactly e₀ n₀)
      (Exactly e₀.markDirty n₀) (Exactly (e₀.markDirty.unpoint none) n₀)
      (Exactly ((e₀.markDirty.unpoint none).upsert none v.points) n₀)
      (Exactly (((e₀.markDirty.unpoint none).upsert none v.points).replace v true) n₀)
      (fun e n => FileMoves k W e₀ e ∧ n₀ < n) (Reaches W e₀ n₀ T)
      (Moved W e₀ n₀) := by
  subst hkey
  have hdirty : FileMoves key W e₀ e₀.markDirty := .single (.dirty e₀)
  have hunpoint : FileMoves key W e₀ (e₀.markDirty.unpoint none) :=
    hdirty.tail (.unpoint _ none (unsynced_markDirty e₀))
  have hupsert : FileMoves key W e₀ ((e₀.markDirty.unpoint none).upsert none v.points) :=
    hunpoint.tail (.upsert _ v none (unsynced_markDirty e₀) hv)
  have hset : ((e₀.markDirty.unpoint none).upsert none v.points).points = v.pointSet :=
    upsert_none_points (unpoint_none_points _) v
  have hreplace := hupsert.tail (.replace _ v true hv fun _ => hset)
  have hkeys : ∀ p ∈ List.zipWith CodeChunk.toPoint v.chunks vectors, p.key = key :=
    hpoints ▸ v.points_key
  refine
    { dirty := ?_, unpoint := ?_, unpoint_part := ?_, upsert := ?_, upsert_part := ?_
      deferred := fun e n h => ⟨h.1, Nat.lt_succ_of_le h.2⟩
      synced := ?_, unsynced := ?_, tombstone := ?_
      start_cut := moved_of_exactly .refl
      dirty_cut := moved_of_exactly hdirty
      unpoint_cut := moved_of_exactly hunpoint
      upsert_cut := moved_of_exactly hupsert
      synced_cut := moved_of_exactly hreplace
      deferred_cut := fun e n h => ⟨h.1, le_of_lt h.2⟩
      end_cut := moved_of_reaches }
  · rintro w ⟨he, hn⟩
    exact ⟨by rw [w.entry_markVectorDirty, he], by rw [w.deferrals_afterSql, hn]⟩
  · rintro w ⟨he, hn⟩
    exact ⟨by rw [w.entry_vectorDelete, he], by rw [w.deferrals_afterVector, hn]⟩
  · rintro w done ⟨he, hn⟩
    refine ⟨?_, by rw [w.deferrals_afterVector, hn]⟩
    rw [w.entry_vectorDelete, he]
    exact hdirty.tail (.unpoint _ (some done) (unsynced_markDirty e₀))
  · rintro w ⟨he, hn⟩
    exact ⟨by rw [w.entry_vectorUpsert none hkeys, he, hpoints],
      by rw [w.deferrals_afterVector, hn]⟩
  · rintro w done ⟨he, hn⟩
    refine ⟨?_, by rw [w.deferrals_afterVector, hn]⟩
    rw [w.entry_vectorUpsert (some done) hkeys, he, ← hpoints]
    exact hunpoint.tail (.upsert _ v (some done) (unsynced_markDirty e₀) hv)
  · rintro w db ⟨he, hn⟩ hdb
    exact ⟨by rw [w.entry_replaceFileChunks v hdb, he], by rw [w.deferrals_replaced, hn]⟩
  · rintro w db ⟨hmoves, hn⟩ hdb
    rw [On, w.entry_replaceFileChunks v hdb, w.deferrals_replaced]
    refine ⟨hmoves.tail (.replace _ v false hv fun h => absurd h (by decide)), le_of_lt hn, ?_⟩
    intro heq
    omega
  · rintro w ⟨he, hn⟩
    rw [On, w.entry_finishVectorDeletion, he, w.deferrals_afterSql, hn]
    refine ⟨hreplace.tail (.finishReplace _ v hv rfl rfl hset), le_refl _, fun _ => ?_⟩
    have hentry : (((e₀.markDirty.unpoint none).upsert none v.points).replace v true).finish =
        v.entry := by
      simp only [Entry.finish, Entry.replace, Version.entry, Entry.mk.injEq, true_and, and_true]
      exact hset
    rwa [hentry]

/-! ## The calls on other files -/

theorem kept_of_exactly (e : Entry) (n : Nat) (h : Exactly e₀ n₀ e n) : Kept e₀ n₀ e n :=
  ⟨h.1, h.2.ge⟩

theorem deleteCalls_other {key : FileKey} (hne : key ≠ k) :
    DeleteCalls k key (Exactly e₀ n₀) (Exactly e₀ n₀) (Exactly e₀ n₀) (Kept e₀ n₀)
      (Kept e₀ n₀) (Kept e₀ n₀) := by
  refine
    { rows := ?_, points := ?_, part := ?_, tombstone := ?_
      deferred := fun e n h => ⟨h.1, Nat.le_succ_of_le h.2⟩
      start_cut := kept_of_exactly
      rows_cut := kept_of_exactly
      points_cut := kept_of_exactly
      deferred_cut := fun _ _ => id
      end_cut := fun _ _ => id }
  · rintro w ⟨he, hn⟩
    exact ⟨by rw [w.entry_deleteFile_of_ne hne, he], by rw [w.deferrals_afterSql, hn]⟩
  · rintro w ⟨he, hn⟩
    exact ⟨by rw [w.entry_vectorDelete_of_ne none hne, he],
      by rw [w.deferrals_afterVector, hn]⟩
  · rintro w done ⟨he, hn⟩
    exact ⟨by rw [w.entry_vectorDelete_of_ne (some done) hne, he],
      by rw [w.deferrals_afterVector, hn]⟩
  · rintro w ⟨he, hn⟩
    exact ⟨by rw [w.entry_finishVectorDeletion_of_ne hne, he],
      by rw [w.deferrals_afterSql, hn]⟩

theorem indexCalls_other {key : FileKey} (hne : key ≠ k) {digest : HexDigest}
    {commitSha : String} {chunks : List CodeChunk} {vectors : List String}
    (hchunks : ∀ c ∈ chunks, c.key ≠ k)
    (hkeys : ∀ p ∈ List.zipWith CodeChunk.toPoint chunks vectors, p.key ≠ k)
    (hids : ∀ p ∈ List.zipWith CodeChunk.toPoint chunks vectors, ∀ x ∈ e₀.points,
      x.id ≠ p.id) :
    IndexCalls k key digest commitSha chunks vectors (Exactly e₀ n₀) (Exactly e₀ n₀)
      (Exactly e₀ n₀) (Exactly e₀ n₀) (Exactly e₀ n₀) (Kept e₀ n₀) (Kept e₀ n₀)
      (Kept e₀ n₀) := by
  have hdelete : ∀ (w : World) (done : Option (List Uuid)), Exactly e₀ n₀ (w.entry k) w.deferrals →
      Exactly e₀ n₀ ((w.afterVector .vectorDelete key done
        (·.delete fun p => p.key = key && reached done p.id)).entry k)
        (w.afterVector .vectorDelete key done
          (·.delete fun p => p.key = key && reached done p.id)).deferrals := by
    rintro w done ⟨he, hn⟩
    exact ⟨by rw [w.entry_vectorDelete_of_ne done hne, he],
      by rw [w.deferrals_afterVector, hn]⟩
  have hupsert : ∀ (w : World) (done : Option (List Uuid)), Exactly e₀ n₀ (w.entry k) w.deferrals →
      Exactly e₀ n₀ ((w.afterVector .vectorUpsert key done
        (((List.zipWith CodeChunk.toPoint chunks vectors).filter fun p =>
          reached done p.id).foldl Table.upsert ·)).entry k)
        (w.afterVector .vectorUpsert key done
          (((List.zipWith CodeChunk.toPoint chunks vectors).filter fun p =>
            reached done p.id).foldl Table.upsert ·)).deferrals := by
    rintro w done ⟨he, hn⟩
    exact ⟨by rw [w.entry_vectorUpsert_of_ne done hne hkeys (by rw [he]; exact hids), he],
      by rw [w.deferrals_afterVector, hn]⟩
  refine
    { dirty := ?_
      unpoint := fun w => hdelete w none
      unpoint_part := fun w done hw => kept_of_exactly _ _ (hdelete w (some done) hw)
      upsert := fun w => hupsert w none
      upsert_part := fun w done hw => kept_of_exactly _ _ (hupsert w (some done) hw)
      deferred := fun e n h => ⟨h.1, Nat.le_succ_of_le h.2⟩
      synced := ?_, unsynced := ?_, tombstone := ?_
      start_cut := kept_of_exactly
      dirty_cut := kept_of_exactly
      unpoint_cut := kept_of_exactly
      upsert_cut := kept_of_exactly
      synced_cut := kept_of_exactly
      deferred_cut := fun _ _ => id
      end_cut := fun _ _ => id }
  · rintro w ⟨he, hn⟩
    exact ⟨by rw [w.entry_markVectorDirty_of_ne hne, he], by rw [w.deferrals_afterSql, hn]⟩
  · rintro w db ⟨he, hn⟩ hdb
    exact ⟨by rw [w.entry_replaceFileChunks_of_ne hne hchunks hdb, he],
      by rw [w.deferrals_replaced, hn]⟩
  · rintro w db ⟨he, hn⟩ hdb
    rw [On, w.entry_replaceFileChunks_of_ne hne hchunks hdb, w.deferrals_replaced]
    exact ⟨he, hn⟩
  · rintro w ⟨he, hn⟩
    exact ⟨by rw [w.entry_finishVectorDeletion_of_ne hne, he],
      by rw [w.deferrals_afterSql, hn]⟩

end

end RepoMesh
