import RepoMesh.Convergence
import RepoMesh.Deployment

/-!
# An index for several repositories

The index that a list of executions has led to. A pass writes rows of its own repository
only, so what the last pass over a repository left of it is what the index holds of it,
whatever passes over other repositories came after.
-/

namespace RepoMesh

/-- The executions, newest first, and registrations in between have led to the world. -/
inductive Leads (h : Hashing) : List ExecutedPass → World → Prop where
  | fresh {w : World} : w.Fresh → Leads h [] w
  | addRepository {es : List ExecutedPass} {w : World} (row : RepositoryRow) :
      Leads h es w → Leads h es (w.addRepository row)
  | index {es : List ExecutedPass} (e : ExecutedPass) :
      Leads h es e.before → Leads h (e :: es) (e.after h)

/-- `w'` has the file rows of the repository that `w` has, and its row. -/
structure Agrees (repositoryId : Uuid) (w w' : World) : Prop where
  files : ∀ k : FileKey, k.repositoryId = repositoryId →
    w'.db.files.get? k = w.db.files.get? k
  repository : ∀ row, w.db.repositories.get? repositoryId = some row →
    w'.db.repositories.get? repositoryId = some row

section

variable {h : Hashing} {repositoryId : Uuid} {w w' w'' : World}

theorem Agrees.refl (w : World) : Agrees repositoryId w w :=
  ⟨fun _ _ => rfl, fun _ => id⟩

theorem Agrees.trans (h : Agrees repositoryId w w') (h' : Agrees repositoryId w' w'') :
    Agrees repositoryId w w'' :=
  ⟨fun k hk => (h'.files k hk).trans (h.files k hk),
    fun row hrow => h'.repository row (h.repository row hrow)⟩

theorem addRepository_agrees (row : RepositoryRow) :
    Agrees repositoryId w (w.addRepository row) :=
  ⟨fun _ _ => rfl, fun _ hrow => Table.get?_insertNew_of_some hrow⟩

/-! ## Passes over other repositories -/

/-- The storage calls of a pass over another repository. -/
theorem storage_keeps_agrees {ix : Indexer} {other : Uuid} {tree : Tree}
    (hne : other ≠ repositoryId) :
    StorageKeeps h ix other tree (fun _ => True)
      (fun path => ∃ files, tree.found = .ok files ∧ path ∈ files) (Agrees repositoryId w) := by
  have hkey : ∀ {path : String} {k : FileKey}, k.repositoryId = repositoryId →
      (⟨other, path⟩ : FileKey) ≠ k := by
    rintro path k hk rfl
    exact hne hk
  have hwhere : ∀ {path : String} {k : FileKey}, k.repositoryId = repositoryId →
      ∀ r : FileRow, r.key = k → decide (r.key = ⟨other, path⟩) = false := by
    rintro path k hk r rfl
    exact decide_eq_false fun heq => hkey hk heq.symm
  refine ⟨?_, ?_, ?_, ?_, ?_, ?_⟩
  · exact fun _ _ _ _ hw => ⟨hw.files, hw.repository⟩
  · exact fun w' path _ hw => ⟨fun k hk =>
      (Table.get?_delete_of_not (hwhere hk)).trans (hw.files k hk), hw.repository⟩
  · exact fun _ _ hw => ⟨hw.files, hw.repository⟩
  · exact fun w' path _ hw => ⟨fun k hk =>
      (Table.get?_update_of_not FileRow.dirty FileRow.dirty_key (hwhere hk)).trans
        (hw.files k hk), hw.repository⟩
  · exact fun w' path _ hw => ⟨fun k hk =>
      (Table.get?_update_of_not (FileRow.atCommit tree.commitSha)
        (FileRow.atCommit_key tree.commitSha) (hwhere hk)).trans (hw.files k hk), hw.repository⟩
  · intro w' path bytes content chunks vectors vectorSynced db _ _ _ _ hw hdb
    unfold IndexDb.replaceFileChunks at hdb
    split at hdb
    · cases hdb
    · obtain rfl := Except.ok.inj hdb
      refine ⟨fun k hk => ?_, hw.repository⟩
      exact (Table.get?_upsert w'.db.files _ k).trans
        ((if_neg (show _ ≠ k from hkey hk)).trans (hw.files k hk))

/-- A pass over another repository. -/
theorem pass_agrees {pass : Pass} (hne : pass.repositoryId ≠ repositoryId) (w : World) :
    Agrees repositoryId w (pass.run h w).2 := by
  have hkeeps : Keeps (Agrees repositoryId w)
      (index h pass.indexer pass.repositoryId pass.mode pass.tree) := by
    refine index_keeps pass.mode (fun w' hw => ⟨hw.files, fun row hrow => ?_⟩)
      (storage_keeps_agrees hne)
    refine (Table.get?_update_of_not (RepositoryRow.updated pass.tree.commitSha "indexed")
      (RepositoryRow.updated_id pass.tree.commitSha "indexed") fun r hr => ?_).trans
        (hw.repository row hrow)
    exact decide_eq_false fun heq => hne (heq.symm.trans hr)
  have hrun := hkeeps w pass.fates (.refl w)
  rw [Pass.run]
  revert hrun
  rcases (index h pass.indexer pass.repositoryId pass.mode pass.tree w pass.fates).1 with ⟨r, w'⟩
  cases r with
  | ok stats => exact id
  | error e => exact id

/-! ## What an index records of a repository -/

theorem Records.agrees {row : RepositoryRow} {co : Checkout}
    {scanned : List (RelPath × HexDigest)} (hrecords : Records w.db row co scanned)
    (hagrees : Agrees row.id w w') : Records w'.db row co scanned := by
  refine ⟨hrecords.1, List.Perm.trans ?_ hrecords.2⟩
  refine (List.perm_ext_iff_of_nodup (nodup_entries _ _) (nodup_entries _ _)).mpr fun e => ?_
  rw [mem_entries_iff, mem_entries_iff, Entry.digest, Entry.digest,
    show (w'.entry _).row = (w.entry _).row from hagrees.files _ rfl]

/-! ## Histories -/

/-- Where no later pass was over its repository, the index holds what an execution left of
it. -/
theorem Leads.agrees {es newer older : List ExecutedPass} {e : ExecutedPass} (hl : Leads h es w)
    (hes : es = newer ++ e :: older)
    (hno : ∀ e' ∈ newer, e'.pass.repositoryId ≠ e.pass.repositoryId) :
    Agrees e.pass.repositoryId (e.after h) w := by
  induction hl generalizing newer with
  | fresh _ => exact absurd hes (by simp)
  | addRepository row _ ih => exact (ih hes hno).trans (addRepository_agrees row)
  | @index es e₁ _ ih =>
      cases newer with
      | nil =>
          obtain ⟨rfl, -⟩ := List.cons.inj hes
          exact .refl _
      | cons e₂ newer =>
          obtain ⟨rfl, hrest⟩ := List.cons.inj hes
          have hagrees := ih hrest fun e' he' => hno e' (List.mem_cons_of_mem _ he')
          exact hagrees.trans (pass_agrees (hno e₁ List.mem_cons_self) _)

end

end RepoMesh
