import RepoMesh.StateMachine

/-!
# Columns under a unique index

`idempotency_key` and `parent_job_id`: an insertion tests the index, no later statement
writes the column. So no two jobs of a reachable store share a value (`reachable_unique`),
and a value once there stays with its job (`run_column`).
-/

namespace RepoMesh

/-- No two rows hold the same value. -/
def UniqueOn (col : Job → Option String) (jobs : Table Job.id) : Prop :=
  ∀ {id id' : String} {row row' : Job}, jobs.get? id = some row → jobs.get? id' = some row' →
    (col row).isSome = true → col row = col row' → id = id'

/-- A column that is tested at insertion and written never. -/
structure UniqueColumn (col : Job → Option String) : Prop where
  tested : ∀ {l : Ledger} {row : Job}, l.conflicts row = [] → (col row).isSome = true →
    ∀ other ∈ l.jobs.rows, col other ≠ col row
  kept : ∀ {cfg : Settings} {now : Time} {row row' : Job}, JobStep cfg now row row' →
    col row' = col row

/-- The columns that a submission names. -/
def Job.request (row : Job) : String × Mode × Int × Option String :=
  (row.repositoryId, row.mode, row.priority, row.idempotencyKey)

theorem JobStep.request_eq {cfg : Settings} {now : Time} {row row' : Job}
    (h : JobStep cfg now row row') : row'.request = row.request := by
  cases h <;> rfl

theorem JobStep.parentJobId_eq {cfg : Settings} {now : Time} {row row' : Job}
    (h : JobStep cfg now row row') : row'.parentJobId = row.parentJobId := by
  cases h <;> rfl

theorem uniqueColumn_idempotencyKey : UniqueColumn Job.idempotencyKey where
  tested := by
    intro l row hconf hsome other hother heq
    have hany : l.jobs.rows.any (·.idempotencyKey = row.idempotencyKey) = true :=
      List.any_eq_true.mpr ⟨other, hother, by simpa using heq⟩
    simp [Ledger.conflicts, hsome, hany] at hconf
  kept h := congrArg (fun request => request.2.2.2) h.request_eq

theorem uniqueColumn_parentJobId : UniqueColumn Job.parentJobId where
  tested := by
    intro l row hconf hsome other hother heq
    have hany : l.jobs.rows.any (·.parentJobId = row.parentJobId) = true :=
      List.any_eq_true.mpr ⟨other, hother, by simpa using heq⟩
    simp [Ledger.conflicts, hsome, hany] at hconf
  kept := JobStep.parentJobId_eq

section

variable {R : Rights} {cfg : Settings} {now : Time} {l l' : Ledger} {col : Job → Option String}

/-- The row that holds a value is the one that a search for the value finds. -/
theorem UniqueOn.find {jobs : Table Job.id} (hu : UniqueOn col jobs) {v : Option String}
    (hv : v.isSome = true) {p : Job → Bool} (hp : ∀ j, p j = true → col j = v) {id : String}
    {row : Job} (hrow : jobs.get? id = some row) (hheld : p row = true) :
    jobs.rows.find? p = some row := by
  obtain ⟨old, hold⟩ : ∃ old, jobs.rows.find? p = some old := by
    rw [← Option.isSome_iff_exists, List.find?_isSome]
    exact ⟨row, Table.mem_of_get? hrow, hheld⟩
  have hget := Table.get?_of_mem (List.mem_of_find?_eq_some hold)
  have hcol : col old = v := hp old (List.find?_some hold)
  have hid := hu hget hrow (hcol ▸ hv) (hcol.trans (hp row hheld).symm)
  rw [hid, hrow] at hget
  rw [hold, Option.some.inj hget]

/-- An insertion does nothing where an arbiter constraint holds a row. -/
theorem insertJob_held {row : Job} {arbiter : Constraint → Bool} {c : Constraint}
    (hfresh : row.Fresh) (hc : c ∈ l.conflicts row) (harb : arbiter c = true) :
    l.insertJob row arbiter = .ok none := by
  have hany : (l.conflicts row).any arbiter = true := List.any_eq_true.mpr ⟨c, hc, harb⟩
  rw [Ledger.insertJob, hfresh.check_eq_none]
  simp only [hany, if_true]

/-- What every effect keeps, a committed transaction keeps. -/
theorem Commit.keeps {P : Ledger → Prop}
    (heff : ∀ {l l' : Ledger}, Effect R cfg now l l' → P l → P l') (h : Commit R cfg now l l')
    (hP : P l) : P l' := by
  obtain ⟨m, hm, hlast⟩ := h
  have hmid : P m := by
    clear hlast
    induction hm with
    | refl => exact hP
    | tail _ hstep ih => exact heff (.prelude hstep) ih
  rcases hlast with rfl | ⟨-, hlast⟩
  · exact hmid
  · exact heff hlast hmid

theorem Effect.unique (hcol : UniqueColumn col) (h : Effect R cfg now l l')
    (hu : UniqueOn col l.jobs) : UniqueOn col l'.jobs := by
  rcases h.jobs_cases with heq | ⟨new, -, -, hconf, heq⟩ | ⟨r, r', hr, hstep, heq⟩
  · rw [heq]
    exact hu
  · have hnone := conflicts_id hconf
    have hget : ∀ {id : String} {row : Job}, (l.jobs.insertNew new).get? id = some row →
        (id = new.id ∧ row = new) ∨ l.jobs.get? id = some row := by
      intro id row hrow
      rw [Table.get?_insertNew] at hrow
      split at hrow
      · rename_i hid
        rw [← hid, hnone] at hrow
        exact Or.inl ⟨hid.symm, (Option.some.inj hrow).symm⟩
      · exact Or.inr hrow
    have hnew := hcol.tested hconf
    rw [heq]
    intro id id' row row' hrow hrow' hsome hsame
    rcases hget hrow with ⟨rfl, rfl⟩ | hold
    · rcases hget hrow' with ⟨rfl, rfl⟩ | hold'
      · rfl
      · exact absurd hsame.symm (hnew hsome row' (Table.mem_of_get? hold'))
    · rcases hget hrow' with ⟨rfl, rfl⟩ | hold'
      · exact absurd hsame (hnew (hsame ▸ hsome) row (Table.mem_of_get? hold))
      · exact hu hold hold' hsome hsame
  · have hget : ∀ {id : String} {row : Job}, (l.setJob r').jobs.get? id = some row →
        ∃ old, l.jobs.get? id = some old ∧ col row = col old := by
      intro id row hrow
      rw [get?_setJob_of_get? r' hr hstep.id_eq] at hrow
      split at hrow
      · rename_i hid
        obtain rfl := Option.some.inj hrow
        exact ⟨r, hid ▸ hr, hcol.kept hstep⟩
      · exact ⟨row, hrow, rfl⟩
    rw [heq]
    intro id id' row row' hrow hrow' hsome hsame
    obtain ⟨old, hold, hrow⟩ := hget hrow
    obtain ⟨old', hold', hrow'⟩ := hget hrow'
    exact hu hold hold' (hrow ▸ hsome) (hrow.symm.trans (hsame.trans hrow'))

end

namespace Coord

variable {cfg : Settings} {s t : Coord} {col : Job → Option String}

theorem reachable_unique (hcol : UniqueColumn col) (h : (system cfg).Reachable s) :
    UniqueOn col s.db.jobs := by
  refine h.induct (I := fun s => UniqueOn col s.db.jobs) ?_ ?_
  · intro s₀ hinit id id' row row' hrow
    rw [hinit.1] at hrow
    cases hrow
  · intro u a v hu hunique hstep
    obtain ⟨-, jobs, -, hserves⟩ := step_serves (reachable_ok hu) hstep
    exact hserves.commit.keeps (P := fun l => UniqueOn col l.jobs) (fun heff => heff.unique hcol)
      hunique

/-- What no step of a job changes stays along a run. -/
theorem run_column {γ : Type*} {col : Job → γ}
    (hkept : ∀ {now : Time} {row row' : Job}, JobStep cfg now row row' → col row' = col row)
    (h : (system cfg).Reachable s) {as : List Action} (hrun : (system cfg).Run s as t)
    {id : String} {row : Job} (hrow : s.db.jobs.get? id = some row) :
    ∃ row', t.db.jobs.get? id = some row' ∧ col row' = col row := by
  refine hrun.stable (P := fun u => ∃ row', u.db.jobs.get? id = some row' ∧ col row' = col row)
    ?_ h ⟨row, hrow, rfl⟩
  intro u a v hu hget hstep
  obtain ⟨row₁, hrow₁, hcol⟩ := hget
  obtain ⟨row₂, hrow₂, rfl | hjob⟩ := step_job hu hstep hrow₁
  · exact ⟨row₂, hrow₂, hcol⟩
  · exact ⟨row₂, hrow₂, (hkept hjob).trans hcol⟩

end Coord

end RepoMesh
