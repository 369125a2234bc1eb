import RepoMesh.Coord
import RepoMesh.Reservation

/-!
# The operations refine the ledger effects

One lemma for each operation: what its transaction does to the ledger, as a
`Commit`, when the ledger is well formed and the handle came from the store.
`answer_commit` collects them, and with it the invariant `Coord.Ok` holds in
every reachable state. The other half, `answer_integrity`, says which
constraints can still abort a transaction: a fresh id that is not fresh, or a
legacy row that no job table would accept.
-/

namespace RepoMesh

/-! ## Handles -/

/-- `row` is the row that `job` is a snapshot of, at the same or a later
generation. -/
structure Job.Follows (job row : Job) : Prop where
  id_eq : row.id = job.id
  repositoryId_eq : row.repositoryId = job.repositoryId
  maxAttempts_eq : row.maxAttempts = job.maxAttempts
  generation : job.leaseGeneration < row.leaseGeneration ∨
    job.leaseGeneration = row.leaseGeneration ∧ job.attempt = row.attempt

theorem Job.Follows.refl (job : Job) : job.Follows job :=
  ⟨rfl, rfl, rfl, Or.inr ⟨rfl, rfl⟩⟩

theorem Job.Follows.step {cfg : Settings} {now : Time} {job row row' : Job}
    (h : job.Follows row) (hstep : JobStep cfg now row row') : job.Follows row' where
  id_eq := hstep.id_eq.trans h.id_eq
  repositoryId_eq := hstep.repositoryId_eq.trans h.repositoryId_eq
  maxAttempts_eq := hstep.maxAttempts_eq.trans h.maxAttempts_eq
  generation := by
    rcases hstep.generation with ⟨hg, ha⟩ | ⟨hg, -⟩
    · rw [hg, ha]
      exact h.generation
    · rcases h.generation with hlt | ⟨heq, -⟩
      · exact Or.inl (by omega)
      · exact Or.inl (by omega)

/-! ## Ownership -/

section

variable {now : Time} {l : Ledger} {job row : Job}

theorem ownedRow_eq_some :
    ownedRow now l job = some row ↔ l.jobs.get? job.id = some row ∧ owned now job row = true := by
  rw [ownedRow, Option.filter_eq_some_iff]

theorem owned_iff :
    owned now job row = true ↔ row.id = job.id ∧ job.workerId.isSome = true ∧
      row.workerId = job.workerId ∧ row.leaseGeneration = job.leaseGeneration ∧ Live now row := by
  simp only [owned, Live, Bool.and_eq_true, decide_eq_true_eq, and_assoc]
  refine and_congr_right fun _ => and_congr_right fun _ => and_congr_right fun _ =>
    and_congr_right fun _ => and_congr_right fun _ => ?_
  cases row.leaseExpiresAt <;> simp

theorem ownedRow_live (h : ownedRow now l job = some row) : Live now row :=
  (owned_iff.mp (ownedRow_eq_some.mp h).2).2.2.2.2

theorem ownedRow_get? (h : ownedRow now l job = some row) : l.jobs.get? row.id = some row := by
  obtain ⟨hget, howned⟩ := ownedRow_eq_some.mp h
  rw [(owned_iff.mp howned).1, hget]

theorem ownedRow_id (h : ownedRow now l job = some row) : row.id = job.id :=
  (owned_iff.mp (ownedRow_eq_some.mp h).2).1

theorem ownedRow_generation (h : ownedRow now l job = some row) :
    row.leaseGeneration = job.leaseGeneration :=
  (owned_iff.mp (ownedRow_eq_some.mp h).2).2.2.2.1

end

/-! ## Writes to `jobs` -/

section

variable {l m : Ledger} {row : Job}

theorem Job.Ok.check_eq_none (h : row.Ok) : row.check = none := by
  have hmax : row.maxAttempts ≠ 0 := by
    have := h.max_pos
    omega
  by_cases hrun : row.status = .running
  · simp [Job.check, hmax, hrun, h.worker.mpr hrun, h.lease.mpr hrun]
  · have hworker : row.workerId = none := by
      simpa using mt h.worker.mp hrun
    have hlease : row.leaseExpiresAt = none := by
      simpa using mt h.lease.mp hrun
    simp [Job.check, hmax, hrun, hworker, hlease]

/-- Nobody else runs in the repository of a job that holds its reservation, or
whose repository is free. -/
theorem otherRunning_eq_false (h : l.Ok) (hjobs : m.jobs = l.jobs) {e : Execution}
    (he : l.execution.get? row.repositoryId = some e)
    (hfree : e.activeJobId = none ∨ e.activeJobId = some row.id) :
    m.otherRunning row = false := by
  rw [Ledger.otherRunning, hjobs, List.any_eq_false]
  rintro j hj hother
  simp only [Bool.and_eq_true, decide_eq_true_eq] at hother
  obtain ⟨⟨hid, hrun⟩, hrepo⟩ := hother
  have hactive := h.running (Table.get?_of_mem hj) hrun
  rw [hrepo, he] at hactive
  obtain rfl := Option.some.inj hactive
  rcases hfree with hfree | hfree
  · cases hfree
  · exact hid (Option.some.inj hfree)

theorem putJob_eq_of_not_running (hok : row.Ok) (hrun : row.status ≠ .running) :
    m.putJob row = .ok (m.setJob row) := by
  simp [Ledger.putJob, hok.check_eq_none, hrun]

theorem putJob_eq (h : l.Ok) (hjobs : m.jobs = l.jobs) (hok : row.Ok) {e : Execution}
    (he : l.execution.get? row.repositoryId = some e)
    (hfree : e.activeJobId = none ∨ e.activeJobId = some row.id) :
    m.putJob row = .ok (m.setJob row) := by
  simp [Ledger.putJob, hok.check_eq_none, otherRunning_eq_false h hjobs he hfree]

theorem putJob_eq_of_running (h : l.Ok) {row row' : Job} (hrow : l.jobs.get? row.id = some row)
    (hrun : row.status = .running) (hok : row'.Ok) (hid : row'.id = row.id)
    (hrepo : row'.repositoryId = row.repositoryId) : l.putJob row' = .ok (l.setJob row') := by
  have hexec := h.running hrow hrun
  refine putJob_eq h rfl hok (hrepo ▸ hexec) (Or.inr ?_)
  rw [hid]

theorem insertJob_some {l' : Ledger} {arbiter : Constraint → Bool}
    (h : l.insertJob row arbiter = .ok (some l')) :
    l.conflicts row = [] ∧ (l.execution.get? row.repositoryId).isSome = true ∧
      l' = { l with jobs := l.jobs.insertNew row } := by
  unfold Ledger.insertJob at h
  split at h
  · cases h
  split at h
  · cases h
  split at h
  · cases h
  split at h
  · cases h
  · rename_i hc hrepo
    refine ⟨hc, Option.isSome_iff_ne_none.mpr (by simpa using hrepo), ?_⟩
    simpa using h.symm

/-- The only constraints that abort the insertion of a fresh row: a unique one
that is not the arbiter, or the reference to the repository row. -/
theorem insertJob_error (hfresh : row.Fresh) {arbiter : Constraint → Bool} {e : Error}
    (h : l.insertJob row arbiter = .error e) :
    (∃ c ∈ l.conflicts row, arbiter c = false ∧ e = .integrityError c) ∨
      e = .integrityError .jobsRepositoryId := by
  unfold Ledger.insertJob at h
  rw [hfresh.check_eq_none] at h
  simp only at h
  split at h
  · cases h
  rename_i harb
  split at h
  · rename_i c cs hc
    refine Or.inl ⟨c, by rw [hc]; exact List.mem_cons_self, ?_, by simpa using h.symm⟩
    rw [hc] at harb
    simp only [List.any_cons, Bool.or_eq_true, not_or] at harb
    simpa using harb.1
  · split at h
    · exact Or.inr (Except.error.inj h).symm
    · cases h

theorem mem_conflicts {c : Constraint} (h : c ∈ l.conflicts row) :
    c = .jobsPkey ∨ c = .jobsIdempotencyKey ∧ row.idempotencyKey.isSome = true ∨
      c = .jobsParentJobId ∧ row.parentJobId.isSome = true ∨
      c = .oneRunningJobPerRepository ∧ row.status = .running := by
  simp only [Ledger.conflicts, List.mem_append] at h
  rcases h with ((h | h) | h) | h
  · split at h
    · exact Or.inl (List.mem_singleton.mp h)
    · cases h
  · split at h
    · rename_i hc
      exact Or.inr (Or.inl ⟨List.mem_singleton.mp h, (Bool.and_eq_true_iff.mp hc).1⟩)
    · cases h
  · split at h
    · rename_i hc
      exact Or.inr (Or.inr (Or.inl
        ⟨List.mem_singleton.mp h, (Bool.and_eq_true_iff.mp hc).1⟩))
    · cases h
  · split at h
    · rename_i hc
      refine Or.inr (Or.inr (Or.inr ⟨List.mem_singleton.mp h, ?_⟩))
      simpa using (Bool.and_eq_true_iff.mp hc).1
    · cases h

end

/-! ## Commits -/

section

variable {R : Rights} {cfg : Settings} {now : Time}

theorem Commit.refl (l : Ledger) : Commit R cfg now l l :=
  ⟨l, .refl, Or.inl rfl⟩

theorem Commit.effect {l l' : Ledger} (h : Effect R cfg now l l') : Commit R cfg now l l' :=
  ⟨l, .refl, Or.inr ⟨fun _ hnone => hnone, h⟩⟩

theorem Commit.preludes {l l' : Ledger} (h : Relation.ReflTransGen (Prelude R now) l l') :
    Commit R cfg now l l' :=
  ⟨l', h, Or.inl rfl⟩

/-- A prelude leaves a job that exists alone, or finalises it. -/
theorem Prelude.job (cfg : Settings) {l l' : Ledger} (h : Prelude R now l l') {id : String} {row : Job}
    (hrow : l.jobs.get? id = some row) :
    ∃ row', l'.jobs.get? id = some row' ∧
      (row' = row ∨ JobStep cfg now row row' ∧ row'.status.terminal = true) := by
  cases h with
  | reserve r => exact ⟨row, hrow, Or.inl rfl⟩
  | insert _ _ _ _ => exact ⟨row, Table.get?_insertNew_of_some hrow, Or.inl rfl⟩
  | @exhaust r hr hexp hex =>
      rw [exhaustLedger_jobs]
      by_cases hid : id = r.id
      · subst hid
        obtain rfl : row = r := Option.some.inj (hrow.symm.trans hr)
        exact ⟨_, by rw [get?_setJob_of_get? (exhaustedRow now row) hr rfl, if_pos rfl],
          Or.inr ⟨.exhaust hexp hex, exhaustedStatus_terminal row⟩⟩
      · exact ⟨row, by rw [get?_setJob_of_get? (exhaustedRow now r) hr rfl, if_neg hid, hrow],
          Or.inl rfl⟩

theorem prelude_run_job (cfg : Settings) {l l' : Ledger} (h : Relation.ReflTransGen (Prelude R now) l l')
    {id : String} {row : Job} (hrow : l.jobs.get? id = some row) :
    ∃ row', l'.jobs.get? id = some row' ∧
      (row' = row ∨ JobStep cfg now row row' ∧ row'.status.terminal = true) := by
  induction h with
  | refl => exact ⟨row, hrow, Or.inl rfl⟩
  | tail _ hstep ih =>
      obtain ⟨r, hr, hcase⟩ := ih
      obtain ⟨r', hr', hcase'⟩ := hstep.job cfg hr
      refine ⟨r', hr', ?_⟩
      rcases hcase with rfl | ⟨hj, hterm⟩
      · exact hcase'
      · rcases hcase' with rfl | ⟨hj', -⟩
        · exact Or.inr ⟨hj, hterm⟩
        · rw [hj'.not_terminal] at hterm
          cases hterm

/-- A committed transaction moves each job that exists by at most one step. -/
theorem Commit.job {l l' : Ledger} (h : Commit R cfg now l l') {id : String} {row : Job}
    (hrow : l.jobs.get? id = some row) :
    ∃ row', l'.jobs.get? id = some row' ∧ (row' = row ∨ JobStep cfg now row row') := by
  obtain ⟨m, hm, hlast⟩ := h
  obtain ⟨r, hr, hcase⟩ := prelude_run_job cfg hm hrow
  rcases hlast with rfl | ⟨-, heff⟩
  · exact ⟨r, hr, hcase.imp_right And.left⟩
  · obtain ⟨r', hr', hcase'⟩ := heff.job hr
    refine ⟨r', hr', ?_⟩
    rcases hcase with rfl | ⟨hj, hterm⟩
    · exact hcase'
    · rcases hcase' with rfl | hj'
      · exact Or.inr hj
      · rw [hj'.not_terminal] at hterm
        cases hterm

/-- A prelude leaves alone what an earlier one inserted. -/
theorem prelude_run_born {l l' : Ledger} (h : Relation.ReflTransGen (Prelude R now) l l')
    {id : String} (hnone : l.jobs.get? id = none) {row' : Job}
    (hrow' : l'.jobs.get? id = some row') : row'.Fresh ∧ R.inserts row' := by
  induction h generalizing row' with
  | refl =>
      rw [hnone] at hrow'
      cases hrow'
  | @tail m n _ hstep ih =>
      cases hstep with
      | reserve r => exact ih hrow'
      | @insert r hfresh hnew hconf _ =>
          rw [Table.get?_insertNew] at hrow'
          split at hrow'
          · rename_i hid
            rw [← hid, conflicts_id hconf] at hrow'
            obtain rfl := Option.some.inj hrow'
            exact ⟨hfresh, hnew⟩
          · exact ih hrow'
      | @exhaust r hr hexp _ =>
          rw [get?_jobs_exhaustLedger hr] at hrow'
          split at hrow'
          · rename_i hid
            exact absurd hexp.1 (ih (hid ▸ hr)).1.not_running
          · exact ih hrow'

/-- What a transaction inserts is fresh in the state it commits. -/
theorem Commit.born {l l' : Ledger} (h : Commit R cfg now l l') {id : String}
    (hnone : l.jobs.get? id = none) {row' : Job} (hrow' : l'.jobs.get? id = some row') :
    row'.Fresh ∧ R.inserts row' := by
  obtain ⟨m, hm, rfl | ⟨hkeys, heff⟩⟩ := h
  · exact prelude_run_born hm hnone hrow'
  · rcases heff.job_origin hrow' with ⟨row, hrow, -⟩ | ⟨-, hborn⟩
    · rw [hkeys id hnone] at hrow
      cases hrow
    · exact hborn

/-- The transaction from `db` commits `db'` and hands out `jobs`, each the
row of its id in `db'`. -/
structure Serves (R : Rights) (cfg : Settings) (now : Time) (db : Db) (jobs : List Job) (db' : Db) :
    Prop where
  commit : Commit R cfg now db.toLedger db'.toLedger
  current : ∀ j ∈ jobs, db'.jobs.get? j.id = some j

theorem Serves.of_ledger {db db' : Db} (h : db'.toLedger = db.toLedger) :
    Serves R cfg now db [] db' :=
  ⟨h ▸ .refl _, by simp⟩

/-! ## Insertions -/

theorem Job.Fresh.of_new {row : Job} (hstatus : row.status = .queued)
    (hworker : row.workerId = none) (hlease : row.leaseExpiresAt = none)
    (hcompleted : row.completedAt = none) (hcancel : row.cancelRequested = false)
    (hgen : row.leaseGeneration = 0) (hbudget : row.attempt < row.maxAttempts) :
    row.Fresh where
  max_pos := by omega
  worker := by simp [hstatus, hworker]
  lease := by simp [hstatus, hlease]
  completed := by simp [hstatus, hcompleted, JobStatus.terminal]
  budget := by omega
  waiting_budget := fun _ => hbudget
  waiting_cancel := fun _ => hcancel
  claimed := fun hrun => by rw [hstatus] at hrun; cases hrun
  generation := hgen
  not_running := by simp [hstatus]
  not_retrying := by simp [hstatus]

theorem submittedRow_fresh (uuid repositoryId : String) (mode : Mode) (key : Option String)
    (priority : Int) : (submittedRow cfg now uuid repositoryId mode key priority).Fresh :=
  .of_new rfl rfl rfl rfl rfl rfl cfg.retries_pos

theorem successorRow_fresh (uuid : String) (old : Job) :
    (successorRow cfg now uuid old).Fresh :=
  .of_new rfl rfl rfl rfl rfl rfl cfg.retries_pos

theorem watchJobRow_fresh (uuid repositoryId : String) :
    (watchJobRow cfg now uuid repositoryId).Fresh :=
  .of_new rfl rfl rfl rfl rfl rfl cfg.retries_pos

theorem submittedRow_untried {uuid repositoryId : String} {mode : Mode} {key : Option String}
    {priority : Int} : (submittedRow cfg now uuid repositoryId mode key priority).Untried := rfl

theorem successorRow_untried {uuid : String} {old : Job} :
    (successorRow cfg now uuid old).Untried := rfl

theorem watchJobRow_untried {uuid repositoryId : String} :
    (watchJobRow cfg now uuid repositoryId).Untried := rfl

/-- An imported row is queued with an attempt left, or terminal. -/
theorem toJob_fresh (old : LegacyRow) (mode : Mode) :
    (old.toJob cfg now mode).Fresh := by
  have hterm : ∀ s, old.terminalStatus = some s → s.terminal = true := fun s hs =>
    (Option.filter_eq_some_iff.mp hs).2
  have hattempt : (old.toJob cfg now mode).attempt = old.importAttempt.toNat := rfl
  have hmax : (old.toJob cfg now mode).maxAttempts =
    (max (max (cfg.jobMaxRetries : Int) (old.attempt + 1)) 2).toNat := rfl
  have hstatus : (old.toJob cfg now mode).status = old.importStatus := rfl
  have hcompleted : (old.toJob cfg now mode).completedAt =
    if old.terminalStatus.isSome ∨ old.cancelRequested then some old.updatedAt else none := rfl
  have hcancel : (old.toJob cfg now mode).cancelRequested = old.cancelRequested := rfl
  have hcases : (old.importStatus.terminal = true ∧
        (old.terminalStatus.isSome ∨ old.cancelRequested)) ∨
      old.importStatus = .queued ∧ old.terminalStatus = none ∧ old.cancelRequested = false := by
    unfold LegacyRow.importStatus
    cases hs : old.terminalStatus with
    | some s => exact Or.inl ⟨hterm s hs, Or.inl rfl⟩
    | none =>
        cases hc : old.cancelRequested
        · exact Or.inr ⟨rfl, rfl, rfl⟩
        · exact Or.inl ⟨rfl, Or.inr rfl⟩
  have hne : old.importStatus ≠ .running ∧ old.importStatus ≠ .retrying := by
    rcases hcases with ⟨ht, -⟩ | ⟨hq, -⟩
    · exact ⟨JobStatus.ne_running_of_terminal ht, by rintro heq; rw [heq] at ht; cases ht⟩
    · rw [hq]
      exact ⟨by simp, by simp⟩
  have hbudget : old.importAttempt ≤ max old.attempt 1 := by
    unfold LegacyRow.importAttempt
    split <;> omega
  refine ⟨⟨?_, ?_, ?_, ?_, ?_, ?_, ?_, fun h => absurd h (hstatus ▸ hne.1)⟩, rfl,
    hstatus ▸ hne.1, hstatus ▸ hne.2⟩
  · rw [hmax]
    omega
  · simpa [LegacyRow.toJob, Job.new] using hne.1
  · simpa [LegacyRow.toJob, Job.new] using hne.1
  · rw [hcompleted, hstatus]
    rcases hcases with ⟨ht, hor⟩ | ⟨hq, hnone, hc⟩
    · simp [ht, hor]
    · simp [hq, hnone, hc, JobStatus.terminal]
  · rw [hattempt, hmax]
    omega
  · intro _
    rw [hattempt, hmax]
    omega
  · intro hw
    rw [hstatus] at hw
    rw [hcancel]
    rcases hcases with ⟨ht, -⟩ | ⟨-, -, hc⟩
    · rw [JobStatus.not_terminal_of_waiting hw] at ht
      cases ht
    · exact hc

/-- An inserted row is a prelude and the current row of its id. -/
theorem insertJob_prelude (now : Time) {l l' : Ledger} {row : Job} {arbiter : Constraint → Bool}
    {P : Job → Prop} (hfresh : row.Fresh) (hnew : P row) (h : l.insertJob row arbiter = .ok (some l')) :
    Prelude (.insert P) now l l' ∧ l'.jobs.get? row.id = some row := by
  obtain ⟨hconf, hrepo, rfl⟩ := insertJob_some h
  exact ⟨.insert hfresh hnew hconf hrepo, Table.get?_insertNew_self (conflicts_id hconf)⟩

theorem submitJob_serves {uuid repositoryId mode : String} {key : Option String}
    {priority : Int} {P : Job → Prop} {db db' : Db} {job : Job}
    (hnew : ∀ m, P (submittedRow cfg now uuid repositoryId m key priority))
    (h : submitJob cfg now uuid repositoryId mode key priority db = .ok (job, db')) :
    Serves (.insert P) cfg now db [job] db' := by
  unfold submitJob at h
  split at h
  · cases h
  rename_i m _
  split at h
  · cases h
  simp only at h
  split at h
  · cases h
  · rename_i l' hins
    obtain ⟨rfl, rfl⟩ := Prod.mk.inj (Except.ok.inj h)
    obtain ⟨hprelude, hcur⟩ :=
      insertJob_prelude now (submittedRow_fresh _ _ _ _ _) (hnew m) hins
    exact ⟨.preludes (.head (.reserve _ _) (.single hprelude)), by simpa using hcur⟩
  · split at h
    · cases h
    rename_i old hfind
    split at h
    · cases h
    · obtain ⟨rfl, rfl⟩ := Prod.mk.inj (Except.ok.inj h)
      refine ⟨.preludes (.single (.reserve _ _)), ?_⟩
      simpa using Table.get?_of_mem (List.mem_of_find?_eq_some hfind)

theorem resubmitJob_serves {uuid jobId : String} {P : Job → Prop} {db db' : Db} {job : Job}
    (hnew : ∀ old, P (successorRow cfg now uuid old))
    (h : resubmitJob cfg now uuid jobId db = .ok (job, db')) :
    Serves (.insert P) cfg now db [job] db' := by
  unfold resubmitJob at h
  split at h
  · cases h
  rename_i old _
  split at h
  · cases h
  simp only at h
  split at h
  · cases h
  · rename_i l' hins
    obtain ⟨rfl, rfl⟩ := Prod.mk.inj (Except.ok.inj h)
    obtain ⟨hprelude, hcur⟩ := insertJob_prelude now (successorRow_fresh _ _) (hnew old) hins
    exact ⟨.preludes (.single hprelude), by simpa using hcur⟩
  · split at h
    · cases h
    · rename_i child hfind
      obtain ⟨rfl, rfl⟩ := Prod.mk.inj (Except.ok.inj h)
      refine ⟨.refl _, ?_⟩
      simpa using Table.get?_of_mem (List.mem_of_find?_eq_some hfind)

theorem observe_serves {uuid repositoryId fingerprint : String} {indexed : Option String}
    {db db' : Db} {job : Option Job}
    (h : observe cfg now uuid repositoryId fingerprint indexed db = .ok (job, db')) :
    Serves (.insert Job.Untried) cfg now db (Reply.ofJob? job).jobs db' := by
  unfold observe at h
  split at h
  · obtain ⟨rfl, rfl⟩ := Prod.mk.inj (Except.ok.inj h)
    exact .of_ledger rfl
  split at h
  · obtain ⟨rfl, rfl⟩ := Prod.mk.inj (Except.ok.inj h)
    exact .of_ledger rfl
  simp only at h
  split at h
  · obtain ⟨rfl, rfl⟩ := Prod.mk.inj (Except.ok.inj h)
    exact .of_ledger rfl
  split at h
  · cases h
  · cases h
  · rename_i l' hins
    obtain ⟨rfl, rfl⟩ := Prod.mk.inj (Except.ok.inj h)
    obtain ⟨hprelude, hcur⟩ := insertJob_prelude now (watchJobRow_fresh _ _) watchJobRow_untried hins
    exact ⟨.preludes (.single hprelude), by simpa [Reply.ofJob?, Reply.jobs] using hcur⟩

theorem importRow_preludes {old : LegacyRow} {P : Job → Prop} {l l' : Ledger}
    {b : Bool}
    (hnew : ∀ mode, 0 ≤ old.importAttempt → P (old.toJob cfg now mode))
    (h : importRow cfg now old l = .ok (b, l')) :
    Relation.ReflTransGen (Prelude (.insert P) now) l l' := by
  unfold importRow at h
  simp only at h
  split at h
  · cases h
  split at h
  · cases h
  split at h
  · cases h
  rename_i mode _ hattempt
  split at h
  · cases h
  · obtain ⟨-, rfl⟩ := Prod.mk.inj (Except.ok.inj h)
    exact .single (.reserve _ _)
  · rename_i m hins
    obtain ⟨-, rfl⟩ := Prod.mk.inj (Except.ok.inj h)
    have hfresh : (old.toJob cfg now mode).Fresh := toJob_fresh old mode
    have hrow := hnew mode (not_lt.mp hattempt)
    exact .head (.reserve _ _) (.single (insertJob_prelude now hfresh hrow hins).1)

/-- An import that goes through imported its first row and then the others. -/
theorem importRows_cons {old : LegacyRow} {rows : List LegacyRow} {n n' : Nat} {l l' : Ledger}
    (h : importRows cfg now (old :: rows) n l = .ok (n', l')) :
    ∃ b m, importRow cfg now old l = .ok (b, m) ∧
      importRows cfg now rows (n + if b then 1 else 0) m = .ok (n', l') := by
  rw [importRows] at h
  split at h
  · cases h
  · rename_i b m hrow
    exact ⟨b, m, hrow, h⟩

theorem importRows_preludes {rows : List LegacyRow} {P : Job → Prop} {n n' : Nat}
    {l l' : Ledger}
    (hnew : ∀ old ∈ rows, ∀ mode, 0 ≤ old.importAttempt → P (old.toJob cfg now mode))
    (h : importRows cfg now rows n l = .ok (n', l')) :
    Relation.ReflTransGen (Prelude (.insert P) now) l l' := by
  induction rows generalizing n l with
  | nil =>
      obtain ⟨-, rfl⟩ := Prod.mk.inj (Except.ok.inj h)
      exact .refl
  | cons old rows ih =>
      obtain ⟨b, m, hrow, hrest⟩ := importRows_cons h
      have hhead := importRow_preludes (hnew old List.mem_cons_self) hrow
      exact hhead.trans (ih (fun o ho => hnew o (List.mem_cons_of_mem _ ho)) hrest)

/-- The attempt number of a legacy row survives the import. -/
theorem toJob_importedFrom {rows : List LegacyRow} {old : LegacyRow} (hold : old ∈ rows)
    (mode : Mode) (h : 0 ≤ old.importAttempt) : ImportedFrom rows (old.toJob cfg now mode) :=
  ⟨old, hold, rfl, Int.toNat_of_nonneg h⟩

/-! ## The owner's operations

Each of them is `LeaseLost` when the handle owns nothing, and otherwise
commits one effect. -/

variable {db : Db} {job row : Job}

theorem renewLease_lost (h : ownedRow now db.toLedger job = none) :
    renewLease cfg now job db = .error (.leaseLost s!"lease renewal rejected: {job.id}") := by
  unfold renewLease
  rw [h]

theorem renewLease_eq (hok : db.toLedger.Ok) (h : ownedRow now db.toLedger job = some row) :
    renewLease cfg now job db =
      .ok (row.cancelRequested, { db with toLedger := renewLedger cfg now row db.toLedger }) := by
  have hlive := ownedRow_live h
  have hget := ownedRow_get? h
  have hstep : JobStep cfg now row (renewedRow cfg now row) := .renew hlive
  unfold renewLease
  rw [h]
  simp only [putJob_eq_of_running hok hget hlive.1 (hstep.ok (hok.rows hget)) rfl rfl]
  rw [renewLedger, ownedRow_id h, ownedRow_generation h]

theorem renewLease_serves
    (h : ownedRow now db.toLedger job = some row) :
    Serves R cfg now db [] { db with toLedger := renewLedger cfg now row db.toLedger } :=
  ⟨.effect (.renew (ownedRow_get? h) (ownedRow_live h)), by simp⟩

theorem updateProgress_lost {stats : IndexStats} {path error : Option String}
    (h : ownedRow now db.toLedger job = none) :
    updateProgress now job stats path error db =
      .error (.leaseLost s!"progress rejected: {job.id}") := by
  unfold updateProgress
  rw [h]

theorem updateProgress_eq (hok : db.toLedger.Ok) (h : ownedRow now db.toLedger job = some row)
    (stats : IndexStats) (path error : Option String) :
    ∃ fileErrors, updateProgress now job stats path error db =
      .ok ((), { db with
        toLedger := db.toLedger.setJob (progressRow now stats row)
        fileErrors := fileErrors }) := by
  have hlive := ownedRow_live h
  have hget := ownedRow_get? h
  have hrow : (progressRow now stats row).Ok := progressRow_ok (hok.rows hget) hlive
  unfold updateProgress
  rw [h]
  simp only [putJob_eq_of_running hok hget hlive.1 hrow rfl rfl]
  split
  · split
    · exact ⟨_, rfl⟩
    · exact ⟨_, rfl⟩
  · exact ⟨_, rfl⟩

theorem finish_lost {status : JobStatus} {error : Option String} {delay : Time}
    (h : ownedRow now db.toLedger job = none) :
    finish now job status error delay db =
      .error (.leaseLost s!"terminal update rejected: {job.id}") := by
  unfold finish
  rw [h]

theorem finish_eq (hok : db.toLedger.Ok) (hfollows : job.Follows row)
    (h : ownedRow now db.toLedger job = some row) {status : JobStatus}
    (hstatus : Finishing row status) (error : Option String) (delay : Time) :
    finish now job status error delay db =
      .ok (finishRow now status error delay row,
        { db with
          toLedger := finishLedger now status error delay row db.toLedger
          workers := finishWorkers job (finishStatus status row) db.workers }) := by
  have hget := ownedRow_get? h
  have hrow : (finishRow now status error delay row).Ok := finishRow_ok (hok.rows hget) hstatus
  unfold finish
  rw [h]
  simp only [putJob_eq_of_not_running hrow (finishStatus_ne_running hstatus)]
  rw [finishLedger, hfollows.repositoryId_eq, ownedRow_id h, ownedRow_generation h]
  rfl

theorem setJob_current {l : Ledger} (row' : Job) (h : l.jobs.get? row.id = some row)
    (hid : row'.id = row.id) : (l.setJob row').jobs.get? row'.id = some row' := by
  rw [get?_setJob_of_get? row' h hid, if_pos hid]

theorem finish_serves (hok : db.toLedger.Ok) (hfollows : job.Follows row)
    (hrow : db.jobs.get? job.id = some row) {status : JobStatus}
    (hstatus : Finishing row status) {error : Option String} {delay : Time} {job' : Job}
    {db' : Db} (heq : finish now job status error delay db = .ok (job', db')) :
    Serves R cfg now db [job'] db' := by
  cases h : ownedRow now db.toLedger job with
  | none =>
      rw [finish_lost h] at heq
      cases heq
  | some r =>
      obtain rfl : row = r := Option.some.inj (hrow.symm.trans (ownedRow_eq_some.mp h).1)
      rw [finish_eq hok hfollows h hstatus error delay] at heq
      obtain ⟨rfl, rfl⟩ := Prod.mk.inj (Except.ok.inj heq)
      refine ⟨.effect (.finish status error delay (ownedRow_get? h) (ownedRow_live h) hstatus), ?_⟩
      simpa [finishLedger_jobs] using setJob_current
        (finishRow now status error delay row) (ownedRow_get? h) rfl

theorem requestCancel_eq (hok : db.toLedger.Ok) {jobId : String}
    (hrow : db.jobs.get? jobId = some row) (hterm : row.status.terminal = false) :
    requestCancel now jobId db =
      .ok (cancelRow now row,
        { db with toLedger := db.toLedger.setJob (cancelRow now row) }) := by
  obtain rfl := Table.key_of_get? hrow
  have hcancel : (cancelRow now row).Ok := cancelRow_ok (hok.rows hrow) hterm
  have hput : db.toLedger.putJob (cancelRow now row) =
      .ok (db.toLedger.setJob (cancelRow now row)) := by
    by_cases hrun : row.status = .running
    · exact putJob_eq_of_running hok hrow hrun hcancel rfl rfl
    · exact putJob_eq_of_not_running hcancel (mt (cancelRow_running now row).mp hrun)
  unfold requestCancel
  simp [hrow, hterm, hput]

theorem requestCancel_serves (hok : db.toLedger.Ok) {jobId : String} {job' : Job} {db' : Db}
    (h : requestCancel now jobId db = .ok (job', db')) : Serves R cfg now db [job'] db' := by
  cases hrow : db.jobs.get? jobId with
  | none => simp [requestCancel, hrow] at h
  | some row =>
      obtain rfl := Table.key_of_get? hrow
      cases hterm : row.status.terminal
      · rw [requestCancel_eq hok hrow hterm] at h
        obtain ⟨rfl, rfl⟩ := Prod.mk.inj (Except.ok.inj h)
        exact ⟨.effect (.cancel hrow hterm), by simpa using setJob_current (cancelRow now row) hrow rfl⟩
      · simp only [requestCancel, hrow, hterm, if_true] at h
        obtain ⟨rfl, rfl⟩ := Prod.mk.inj (Except.ok.inj h)
        exact ⟨.refl _, by simpa using hrow⟩

end

end RepoMesh
