import RepoMesh.Effect

/-!
# The life cycle of one job

What a `JobStep` keeps and what it moves: identity, repository and budget are
fixed, the row stays well formed, the generation only grows, and a terminal
row has no step. Then the same facts for a whole `Effect`, where every job that
already exists makes at most one step.
-/

namespace RepoMesh

/-! ## Guards -/

theorem Live.not_terminal {now : Time} {row : Job} (h : Live now row) :
    row.status.terminal = false := by
  rw [h.1]
  rfl

theorem Expired.not_terminal {now : Time} {row : Job} (h : Expired now row) :
    row.status.terminal = false := by
  rw [h.1]
  rfl

theorem Runnable.not_terminal {now : Time} {row : Job} (h : Runnable now row) :
    row.status.terminal = false := by
  rcases h with ⟨hw, -⟩ | h
  · exact JobStatus.not_terminal_of_waiting hw
  · exact h.not_terminal

theorem Live.not_expired {now : Time} {row : Job} (h : Live now row) : ¬ Expired now row := by
  rintro ⟨-, e', he', hle⟩
  obtain ⟨-, e, he, hlt⟩ := h
  obtain rfl : e' = e := Option.some.inj (he'.symm.trans he)
  exact absurd hlt (not_lt.mpr hle)

theorem exhausted_eq_false {row : Job} :
    exhausted row = false ↔ row.cancelRequested = false ∧ row.attempt < row.maxAttempts := by
  simp [exhausted]

theorem finishStatus_ne_running {row : Job} {status : JobStatus} (h : Finishing row status) :
    finishStatus status row ≠ .running := by
  unfold finishStatus
  split
  · simp
  · rcases h with h | ⟨rfl, -⟩
    · exact JobStatus.ne_running_of_terminal h
    · simp

theorem exhaustedStatus_terminal (row : Job) : (exhaustedStatus row).terminal = true := by
  unfold exhaustedStatus
  split <;> rfl

/-! ## What a step keeps -/

section

variable {cfg : Settings} {now : Time} {row row' : Job}

theorem JobStep.id_eq (h : JobStep cfg now row row') : row'.id = row.id := by
  cases h <;> rfl

theorem JobStep.repositoryId_eq (h : JobStep cfg now row row') :
    row'.repositoryId = row.repositoryId := by
  cases h <;> rfl

theorem JobStep.maxAttempts_eq (h : JobStep cfg now row row') :
    row'.maxAttempts = row.maxAttempts := by
  cases h <;> rfl

/-- The generation and the attempt number move together, by a claim only. -/
theorem JobStep.generation (h : JobStep cfg now row row') :
    row'.leaseGeneration = row.leaseGeneration ∧ row'.attempt = row.attempt ∨
      row'.leaseGeneration = row.leaseGeneration + 1 ∧ row'.attempt = row.attempt + 1 := by
  cases h with
  | claim workerId _ _ => exact Or.inr ⟨rfl, rfl⟩
  | cancel _ => exact Or.inl ⟨rfl, rfl⟩
  | renew _ => exact Or.inl ⟨rfl, rfl⟩
  | progress _ _ => exact Or.inl ⟨rfl, rfl⟩
  | exhaust _ _ => exact Or.inl ⟨rfl, rfl⟩
  | finish _ _ _ _ _ => exact Or.inl ⟨rfl, rfl⟩

/-- A terminal row has no step. -/
theorem JobStep.not_terminal (h : JobStep cfg now row row') : row.status.terminal = false := by
  cases h with
  | cancel h => exact h
  | renew h => exact h.not_terminal
  | progress _ h => exact h.not_terminal
  | claim _ h _ => exact h.not_terminal
  | exhaust h _ => exact h.not_terminal
  | finish _ _ _ h _ => exact h.not_terminal

theorem cancelRow_ok (hok : row.Ok) (h : row.status.terminal = false) :
    (cancelRow now row).Ok := by
  by_cases hw : row.status.waiting = true
  · have hnr : row.status ≠ .running := JobStatus.ne_running_of_waiting hw
    have hworker := mt hok.worker.mp hnr
    have hlease := mt hok.lease.mp hnr
    have hclaimed := hok.claimed
    constructor <;> simp_all [cancelRow, JobStatus.terminal, JobStatus.waiting, hok.max_pos,
      hok.budget]
  · have hrun : row.status = .running :=
      (JobStatus.waiting_or_running_of_not_terminal h).resolve_left hw
    have hcompleted := hok.completed
    have hworker := hok.worker
    have hlease := hok.lease
    have hclaimed := hok.claimed
    constructor <;> simp_all [cancelRow, JobStatus.terminal, JobStatus.waiting, hok.max_pos,
      hok.budget]

/-- A running row that keeps its owner, a lease and its budget is well formed. -/
theorem Job.Ok.of_running (hok : row.Ok) (hrun : row'.status = .running)
    (hworker : row'.workerId.isSome = true) (hlease : row'.leaseExpiresAt.isSome = true)
    (hcompleted : row'.completedAt = none) (hmax : row'.maxAttempts = row.maxAttempts)
    (hbudget : row'.attempt ≤ row.maxAttempts) (hclaimed : 1 ≤ row'.leaseGeneration) :
    row'.Ok where
  max_pos := hmax ▸ hok.max_pos
  worker := ⟨fun _ => hrun, fun _ => hworker⟩
  lease := ⟨fun _ => hrun, fun _ => hlease⟩
  completed := by rw [hcompleted, hrun]; simp [JobStatus.terminal]
  budget := hmax ▸ hbudget
  waiting_budget := fun h => by rw [hrun] at h; cases h
  waiting_cancel := fun h => by rw [hrun] at h; cases h
  claimed := fun _ => hclaimed

theorem Job.Ok.completedAt_none (hok : row.Ok) (h : row.status.terminal = false) :
    row.completedAt = none := by
  have := mt hok.completed.mp (by simp [h])
  simpa using this

theorem progressRow_ok {stats : IndexStats} (hok : row.Ok) (h : Live now row) :
    (progressRow now stats row).Ok :=
  hok.of_running h.1 (hok.worker.mpr h.1) (hok.lease.mpr h.1)
    (hok.completedAt_none h.not_terminal) rfl hok.budget (hok.claimed h.1)

theorem finishRow_ok {status : JobStatus} {error : Option String} {delay : Time} (hok : row.Ok)
    (hstatus : Finishing row status) : (finishRow now status error delay row).Ok := by
  have hne := finishStatus_ne_running hstatus
  have hbudget : status = .retrying → row.attempt < row.maxAttempts := by
    rintro rfl
    rcases hstatus with h | ⟨-, h⟩
    · cases h
    · exact h
  refine ⟨hok.max_pos, ?_, ?_, ?_, hok.budget, ?_, ?_, fun h => absurd h hne⟩
  · simpa [finishRow] using hne
  · simpa [finishRow] using hne
  · cases hc : row.cancelRequested
    · rcases hstatus with h | ⟨rfl, -⟩
      · have hnr : status ≠ .retrying := by rintro rfl; cases h
        simp [finishRow, finishStatus, hc, hnr, h]
      · simp [finishRow, finishStatus, hc, JobStatus.terminal]
    · simp [finishRow, finishStatus, hc, JobStatus.terminal]
  · intro hw
    cases hc : row.cancelRequested
    · have hw' : status.waiting = true := by simpa [finishRow, finishStatus, hc] using hw
      rcases hstatus with h | ⟨rfl, h⟩
      · exact absurd h (by simp [JobStatus.not_terminal_of_waiting hw'])
      · exact h
    · simp [finishRow, finishStatus, hc, JobStatus.waiting] at hw
  · intro hw
    cases hc : row.cancelRequested
    · simpa [finishRow] using hc
    · simp [finishRow, finishStatus, hc, JobStatus.waiting] at hw

theorem exhaustedRow_ok (hok : row.Ok) : (exhaustedRow now row).Ok := by
  have hterm := exhaustedStatus_terminal row
  have hne := JobStatus.ne_running_of_terminal hterm
  have hnw : (exhaustedStatus row).waiting = false := by
    cases hw : (exhaustedStatus row).waiting
    · rfl
    · exact absurd hterm (by simp [JobStatus.not_terminal_of_waiting hw])
  refine ⟨hok.max_pos, ?_, ?_, ?_, hok.budget, ?_, ?_, fun h => absurd h hne⟩
  · simpa [exhaustedRow] using hne
  · simpa [exhaustedRow] using hne
  · simpa [exhaustedRow] using hterm
  · intro hw
    exact absurd (show (exhaustedStatus row).waiting = true from hw) (by simp [hnw])
  · intro hw
    exact absurd (show (exhaustedStatus row).waiting = true from hw) (by simp [hnw])

theorem JobStep.ok (h : JobStep cfg now row row') (hok : row.Ok) : row'.Ok := by
  cases h with
  | cancel h => exact cancelRow_ok hok h
  | renew h =>
      exact hok.of_running h.1 (hok.worker.mpr h.1) rfl (hok.completedAt_none h.not_terminal)
        rfl hok.budget (hok.claimed h.1)
  | progress _ h => exact progressRow_ok hok h
  | claim _ h he =>
      have hlt := (exhausted_eq_false.mp he).2
      exact hok.of_running rfl rfl rfl (hok.completedAt_none h.not_terminal) rfl hlt
        (Nat.le_add_left 1 _)
  | exhaust _ _ => exact exhaustedRow_ok hok
  | finish _ _ _ _ hs => exact finishRow_ok hok hs

end

/-! ## Jobs across an effect -/

section

variable {R : Rights} {cfg : Settings} {now : Time} {l l' : Ledger}

theorem get?_setJob_of_get? {row : Job} (row' : Job) (h : l.jobs.get? row.id = some row)
    (hid : row'.id = row.id) (id : String) :
    (l.setJob row').jobs.get? id = if id = row.id then some row' else l.jobs.get? id := by
  rw [Ledger.get?_setJob, hid]
  split
  · rename_i heq
    rw [heq, h, Option.map_some]
  · rfl

@[simp] theorem expireAttempt_jobs (now : Time) (row : Job) (l : Ledger) :
    (expireAttempt now row l).jobs = l.jobs := by
  unfold expireAttempt
  split <;> rfl

@[simp] theorem expireAttempt_execution (now : Time) (row : Job) (l : Ledger) :
    (expireAttempt now row l).execution = l.execution := by
  unfold expireAttempt
  split <;> rfl

theorem setJob_jobs_congr {l m : Ledger} (h : l.jobs = m.jobs) (row : Job) :
    (l.setJob row).jobs = (m.setJob row).jobs := by
  unfold Ledger.setJob
  simp only [h]

theorem exhaustLedger_jobs (now : Time) (row : Job) (l : Ledger) :
    (exhaustLedger now row l).jobs = (l.setJob (exhaustedRow now row)).jobs :=
  setJob_jobs_congr (expireAttempt_jobs now row l) _

theorem get?_jobs_exhaustLedger {row : Job} (hrow : l.jobs.get? row.id = some row) (id : String) :
    (exhaustLedger now row l).jobs.get? id =
      if id = row.id then some (exhaustedRow now row) else l.jobs.get? id := by
  rw [exhaustLedger_jobs, get?_setJob_of_get? (exhaustedRow now row) hrow rfl]

theorem claimLedger_jobs (cfg : Settings) (now : Time) (workerId : String) (row : Job)
    (l : Ledger) :
    (claimLedger cfg now workerId row l).jobs =
      (l.setJob (claimedRow cfg now workerId row)).jobs :=
  setJob_jobs_congr (expireAttempt_jobs now row l) _

theorem finishLedger_jobs (now : Time) (status : JobStatus) (error : Option String)
    (delay : Time) (row : Job) (l : Ledger) :
    (finishLedger now status error delay row l).jobs =
      (l.setJob (finishRow now status error delay row)).jobs := rfl

theorem renewLedger_jobs (cfg : Settings) (now : Time) (row : Job) (l : Ledger) :
    (renewLedger cfg now row l).jobs = (l.setJob (renewedRow cfg now row)).jobs := rfl

theorem conflicts_id {l : Ledger} {row : Job} (h : l.conflicts row = []) :
    l.jobs.get? row.id = none := by
  cases hs : l.jobs.get? row.id with
  | none => rfl
  | some j => simp [Ledger.conflicts, hs] at h

/-- An effect leaves the jobs alone, inserts one row, or is one job's step. -/
theorem Effect.jobs_cases (h : Effect R cfg now l l') :
    l'.jobs = l.jobs ∨
      (∃ row, row.Fresh ∧ R.inserts row ∧ l.conflicts row = [] ∧
        l'.jobs = l.jobs.insertNew row) ∨
      ∃ row row', l.jobs.get? row.id = some row ∧ JobStep cfg now row row' ∧
        l'.jobs = (l.setJob row').jobs := by
  cases h with
  | prelude h =>
      cases h with
      | reserve => exact Or.inl rfl
      | @insert row hfresh hnew hconf _ =>
          exact Or.inr (Or.inl ⟨row, hfresh, hnew, hconf, rfl⟩)
      | @exhaust row hrow hexp hex =>
          exact Or.inr (Or.inr ⟨row, _, hrow, .exhaust hexp hex, exhaustLedger_jobs _ _ _⟩)
  | @cancel row hrow ht => exact Or.inr (Or.inr ⟨row, _, hrow, .cancel ht, rfl⟩)
  | @renew row hrow hl => exact Or.inr (Or.inr ⟨row, _, hrow, .renew hl, renewLedger_jobs _ _ _ _⟩)
  | @progress row stats hrow hl => exact Or.inr (Or.inr ⟨row, _, hrow, .progress stats hl, rfl⟩)
  | @claim row e workerId _ hrow hr he _ _ =>
      exact Or.inr (Or.inr ⟨row, _, hrow, .claim workerId hr he, claimLedger_jobs _ _ _ _ _⟩)
  | @finish row status error delay hrow hl hs =>
      exact Or.inr (Or.inr ⟨row, _, hrow, .finish status error delay hl hs,
        finishLedger_jobs _ _ _ _ _ _⟩)

/-- A job that exists makes at most one step. -/
theorem Effect.job (h : Effect R cfg now l l') {id : String} {row : Job}
    (hrow : l.jobs.get? id = some row) :
    ∃ row', l'.jobs.get? id = some row' ∧ (row' = row ∨ JobStep cfg now row row') := by
  rcases h.jobs_cases with heq | ⟨r, -, -, -, heq⟩ | ⟨r, r', hr, hstep, heq⟩
  · exact ⟨row, by rw [heq, hrow], Or.inl rfl⟩
  · exact ⟨row, by rw [heq, Table.get?_insertNew_of_some hrow], Or.inl rfl⟩
  · rw [heq]
    by_cases hid : id = r.id
    · subst hid
      obtain rfl : row = r := Option.some.inj (hrow.symm.trans hr)
      exact ⟨r', by rw [get?_setJob_of_get? r' hr hstep.id_eq, if_pos rfl], Or.inr hstep⟩
    · exact ⟨row, by rw [get?_setJob_of_get? r' hr hstep.id_eq, if_neg hid, hrow], Or.inl rfl⟩

/-- A job after an effect was there before, or the effect inserted it. -/
theorem Effect.job_origin (h : Effect R cfg now l l') {id : String} {row' : Job}
    (hrow' : l'.jobs.get? id = some row') :
    (∃ row, l.jobs.get? id = some row ∧ (row' = row ∨ JobStep cfg now row row')) ∨
      l.jobs.get? id = none ∧ row'.Fresh ∧ R.inserts row' := by
  cases hrow : l.jobs.get? id with
  | some row =>
      obtain ⟨row'', hget, hcase⟩ := h.job hrow
      obtain rfl : row'' = row' := Option.some.inj (hget.symm.trans hrow')
      exact Or.inl ⟨row, rfl, hcase⟩
  | none =>
      right
      refine ⟨rfl, ?_⟩
      rcases h.jobs_cases with heq | ⟨r, hfresh, hnew, -, heq⟩ | ⟨r, r', hr, hstep, heq⟩
      · rw [heq, hrow] at hrow'
        cases hrow'
      · rw [heq, Table.get?_insertNew, hrow] at hrow'
        split at hrow'
        · obtain rfl : r = row' := by simpa using hrow'
          exact ⟨hfresh, hnew⟩
        · cases hrow'
      · rw [heq, get?_setJob_of_get? r' hr hstep.id_eq] at hrow'
        split at hrow'
        · rename_i hid
          rw [hid, hr] at hrow
          cases hrow
        · rw [hrow] at hrow'
          cases hrow'

end

end RepoMesh
