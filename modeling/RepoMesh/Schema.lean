import RepoMesh.Table

/-!
# The coordination schema

The tables of the PostgreSQL coordination store, row by row, with the
constraints the migrations declare on them. A `CHECK (column IN ...)` is an
inductive type here, a non-negativity check a `Nat` column; the remaining
checks and the unique indexes are evaluated on every write to `jobs`
(`Job.check`, `Ledger.conflicts`) and abort the transaction when they fail.

Time is a count of microseconds, the resolution of `timestamptz`.
`jobs.kind` is not stored: its check admits one value.
-/

namespace RepoMesh

abbrev Time := Int

/-! ## Enumerations -/

inductive Mode where
  | full
  | incremental
  deriving DecidableEq, Repr

def Mode.ofText : String → Option Mode
  | "full" => some .full
  | "incremental" => some .incremental
  | _ => none

inductive JobStatus where
  | queued
  | running
  | retrying
  | completed
  | completedWithErrors
  | failed
  | cancelled
  deriving DecidableEq, Repr

namespace JobStatus

def ofText : String → Option JobStatus
  | "queued" => some .queued
  | "running" => some .running
  | "retrying" => some .retrying
  | "completed" => some .completed
  | "completed_with_errors" => some .completedWithErrors
  | "failed" => some .failed
  | "cancelled" => some .cancelled
  | _ => none

/-- Membership in `TERMINAL`. -/
def terminal : JobStatus → Bool
  | .completed | .completedWithErrors | .failed | .cancelled => true
  | .queued | .running | .retrying => false

/-- `status IN ('queued','retrying')`. -/
def waiting : JobStatus → Bool
  | .queued | .retrying => true
  | _ => false

theorem waiting_or_running_of_not_terminal {s : JobStatus} (h : s.terminal = false) :
    s.waiting = true ∨ s = .running := by
  cases s <;> simp_all [terminal, waiting]

theorem not_terminal_of_waiting {s : JobStatus} (h : s.waiting = true) :
    s.terminal = false := by
  cases s <;> simp_all [terminal, waiting]

theorem ne_running_of_waiting {s : JobStatus} (h : s.waiting = true) : s ≠ .running := by
  rintro rfl
  cases h

theorem ne_running_of_terminal {s : JobStatus} (h : s.terminal = true) : s ≠ .running := by
  rintro rfl
  cases h

end JobStatus

inductive Trigger where
  | manual
  | watch
  | retry
  deriving DecidableEq, Repr

inductive WorkerStatus where
  | idle
  | busy
  | stopped
  deriving DecidableEq, Repr

/-- `job_attempts.outcome`: `expired`, or the status the job was left in. -/
inductive Outcome where
  | expired
  | status (s : JobStatus)
  deriving DecidableEq, Repr

/-! ## Rows -/

structure Job where
  id : String
  repositoryId : String
  mode : Mode
  status : JobStatus
  priority : Int
  attempt : Nat
  maxAttempts : Nat
  idempotencyKey : Option String
  workerId : Option String
  leaseGeneration : Nat
  createdAt : Time
  updatedAt : Time
  availableAt : Time
  startedAt : Option Time
  completedAt : Option Time
  heartbeatAt : Option Time
  leaseExpiresAt : Option Time
  cancelRequested : Bool
  progressDone : Int
  progressTotal : Int
  indexedFiles : Int
  indexedChunks : Int
  deletedFiles : Int
  skippedFiles : Int
  errorCount : Int
  error : Option String
  trigger : Trigger
  parentJobId : Option String
  deriving DecidableEq, Repr

/-- A row of `jobs` with the column defaults. -/
def Job.new (id repositoryId : String) (mode : Mode) (now : Time) : Job where
  id := id
  repositoryId := repositoryId
  mode := mode
  status := .queued
  priority := 0
  attempt := 0
  maxAttempts := 3
  idempotencyKey := none
  workerId := none
  leaseGeneration := 0
  createdAt := now
  updatedAt := now
  availableAt := now
  startedAt := none
  completedAt := none
  heartbeatAt := none
  leaseExpiresAt := none
  cancelRequested := false
  progressDone := 0
  progressTotal := 0
  indexedFiles := 0
  indexedChunks := 0
  deletedFiles := 0
  skippedFiles := 0
  errorCount := 0
  error := none
  trigger := .manual
  parentJobId := none

structure Execution where
  repositoryId : String
  activeJobId : Option String
  deriving DecidableEq, Repr

structure Attempt where
  jobId : String
  leaseGeneration : Nat
  workerId : String
  attempt : Nat
  claimedAt : Time
  leaseExpiresAt : Time
  endedAt : Option Time
  outcome : Option Outcome
  reclaimed : Bool
  error : Option String
  deriving DecidableEq, Repr

abbrev Attempt.key (a : Attempt) : String × Nat :=
  (a.jobId, a.leaseGeneration)

structure FileError where
  jobId : String
  leaseGeneration : Nat
  filePath : String
  error : String
  createdAt : Time
  deriving DecidableEq, Repr

structure WorkerRow where
  workerId : String
  sessionId : String
  hostname : String
  pid : Int
  version : String
  status : WorkerStatus
  startedAt : Time
  lastSeenAt : Time
  currentJobId : Option String
  completedJobs : Nat
  failedJobs : Nat
  deriving DecidableEq, Repr

structure WatchRow where
  repositoryId : String
  enabled : Bool
  observedFingerprint : Option String
  submittedFingerprint : Option String
  stableSince : Option Time
  pendingSince : Option Time
  lastCheckedAt : Option Time
  lastJobId : Option String
  error : Option String
  deriving DecidableEq, Repr

/-! ## Tables -/

/-- The tables that carry job authority. -/
structure Ledger where
  jobs : Table Job.id
  execution : Table Execution.repositoryId
  attempts : Table Attempt.key

structure Db extends Ledger where
  fileErrors : List FileError
  workers : Table WorkerRow.workerId
  watches : Table WatchRow.repositoryId

def Ledger.empty : Ledger := ⟨.empty _, .empty _, .empty _⟩

/-- The store right after `migrate`. -/
def Db.empty : Db := ⟨.empty, [], .empty _, .empty _⟩

/-! ## Errors -/

inductive Constraint where
  | jobsPkey
  | jobsIdempotencyKey
  | jobsParentJobId
  | oneRunningJobPerRepository
  | jobsWorkerLease
  | jobsLeaseOnlyRunning
  | jobsKind
  | jobsMode
  | jobsAttempt
  | jobsMaxAttempts
  | jobsRepositoryId
  | attemptsPkey
  deriving DecidableEq, Repr

inductive Error where
  | leaseLost (message : String)
  | workerIdentityInUse (message : String)
  | valueError (message : String)
  | lookupError (message : String)
  | assertionError
  | integrityError (constraint : Constraint)
  deriving DecidableEq, Repr

/-! ## Constraints of `jobs` -/

/-- The first CHECK of `jobs` that the row fails. -/
def Job.check (row : Job) : Option Constraint :=
  if row.maxAttempts = 0 then some .jobsMaxAttempts
  else if decide (row.status = .running) ≠
      (row.workerId.isSome && row.leaseExpiresAt.isSome) then some .jobsWorkerLease
  else if row.status ≠ .running ∧ (row.workerId.isSome || row.leaseExpiresAt.isSome) then
    some .jobsLeaseOnlyRunning
  else none

namespace Ledger

/-- A running job of the repository other than `row` itself. -/
def otherRunning (l : Ledger) (row : Job) : Bool :=
  l.jobs.rows.any fun j =>
    j.id ≠ row.id && j.status = .running && j.repositoryId = row.repositoryId

/-- The unique constraints that inserting `row` would break. -/
def conflicts (l : Ledger) (row : Job) : List Constraint :=
  (if (l.jobs.get? row.id).isSome then [.jobsPkey] else []) ++
  (if row.idempotencyKey.isSome &&
      l.jobs.rows.any (·.idempotencyKey = row.idempotencyKey) then
    [.jobsIdempotencyKey] else []) ++
  (if row.parentJobId.isSome && l.jobs.rows.any (·.parentJobId = row.parentJobId) then
    [.jobsParentJobId] else []) ++
  (if row.status = .running && l.otherRunning row then
    [.oneRunningJobPerRepository] else [])

/-- `INSERT INTO repository_execution(repository_id) VALUES(..) ON CONFLICT DO NOTHING`. -/
def reserveRow (l : Ledger) (repositoryId : String) : Ledger :=
  { l with execution := l.execution.insertNew ⟨repositoryId, none⟩ }

/-- `INSERT INTO jobs .. ON CONFLICT(arbiter) DO NOTHING`: `none` when an
arbiter constraint already holds a row. -/
def insertJob (l : Ledger) (row : Job) (arbiter : Constraint → Bool) :
    Except Error (Option Ledger) :=
  match row.check with
  | some c => .error (.integrityError c)
  | none =>
      if (l.conflicts row).any arbiter then .ok none
      else
        match l.conflicts row with
        | c :: _ => .error (.integrityError c)
        | [] =>
            if (l.execution.get? row.repositoryId).isNone then
              .error (.integrityError .jobsRepositoryId)
            else .ok (some { l with jobs := l.jobs.insertNew row })

/-- The row with the new row's id is replaced. -/
def setJob (l : Ledger) (row : Job) : Ledger :=
  { l with
    jobs := l.jobs.update (·.id = row.id) (fun j => { row with id := j.id }) (fun _ => rfl) }

/-- `UPDATE jobs`. No statement writes a column of the other unique indexes, so
only the CHECKs and the partial index are tested. -/
def putJob (l : Ledger) (row : Job) : Except Error Ledger :=
  match row.check with
  | some c => .error (.integrityError c)
  | none =>
      if row.status = .running && l.otherRunning row then
        .error (.integrityError .oneRunningJobPerRepository)
      else .ok (l.setJob row)

/-- `UPDATE repository_execution SET active_job_id=.. WHERE repository_id=..`. -/
def setActive (l : Ledger) (repositoryId : String) (jobId : Option String) : Ledger :=
  { l with
    execution := l.execution.update (·.repositoryId = repositoryId)
      (fun r => { r with activeJobId := jobId }) (fun _ => rfl) }

/-- `UPDATE repository_execution SET active_job_id=NULL WHERE repository_id=.. AND
active_job_id=..`. -/
def releaseActive (l : Ledger) (repositoryId jobId : String) : Ledger :=
  { l with
    execution := l.execution.update
      (fun r => r.repositoryId = repositoryId && r.activeJobId = some jobId)
      (fun r => { r with activeJobId := none }) (fun _ => rfl) }

/-- `UPDATE job_attempts SET .. WHERE job_id=.. AND lease_generation=..`, on the
rows that also satisfy `p`. The statements never set a key column. -/
def updateAttempt (l : Ledger) (jobId : String) (generation : Nat) (p : Attempt → Bool)
    (f : Attempt → Attempt) (hf : ∀ a, (f a).key = a.key) : Ledger :=
  { l with
    attempts := l.attempts.update (fun a => a.key = (jobId, generation) && p a) f hf }

/-! ### What each write leaves behind -/

@[simp] theorem reserveRow_jobs (l : Ledger) (r : String) : (l.reserveRow r).jobs = l.jobs := rfl

@[simp] theorem reserveRow_attempts (l : Ledger) (r : String) :
    (l.reserveRow r).attempts = l.attempts := rfl

@[simp] theorem setJob_execution (l : Ledger) (row : Job) :
    (l.setJob row).execution = l.execution := rfl

@[simp] theorem setJob_attempts (l : Ledger) (row : Job) :
    (l.setJob row).attempts = l.attempts := rfl

@[simp] theorem setActive_jobs (l : Ledger) (r : String) (j : Option String) :
    (l.setActive r j).jobs = l.jobs := rfl

@[simp] theorem setActive_attempts (l : Ledger) (r : String) (j : Option String) :
    (l.setActive r j).attempts = l.attempts := rfl

@[simp] theorem releaseActive_jobs (l : Ledger) (r j : String) :
    (l.releaseActive r j).jobs = l.jobs := rfl

@[simp] theorem releaseActive_attempts (l : Ledger) (r j : String) :
    (l.releaseActive r j).attempts = l.attempts := rfl

@[simp] theorem updateAttempt_jobs (l : Ledger) (j : String) (g : Nat) (p : Attempt → Bool)
    (f : Attempt → Attempt) (hf : ∀ a, (f a).key = a.key) :
    (l.updateAttempt j g p f hf).jobs = l.jobs := rfl

@[simp] theorem updateAttempt_execution (l : Ledger) (j : String) (g : Nat)
    (p : Attempt → Bool) (f : Attempt → Attempt) (hf : ∀ a, (f a).key = a.key) :
    (l.updateAttempt j g p f hf).execution = l.execution := rfl

theorem get?_setJob (l : Ledger) (row : Job) (id : String) :
    (l.setJob row).jobs.get? id =
      if id = row.id then (l.jobs.get? id).map fun _ => row else l.jobs.get? id := by
  rw [setJob, Table.get?_update]
  cases h : l.jobs.get? id with
  | none => simp
  | some j =>
      obtain rfl := Table.key_of_get? h
      by_cases hid : j.id = row.id
      · simp [hid]
      · simp [hid]

theorem get?_setActive (l : Ledger) (r r' : String) (j : Option String) :
    (l.setActive r j).execution.get? r' =
      if r' = r then (l.execution.get? r').map fun _ => ⟨r', j⟩
      else l.execution.get? r' := by
  rw [setActive, Table.get?_update]
  cases h : l.execution.get? r' with
  | none => simp
  | some e =>
      obtain rfl := Table.key_of_get? h
      by_cases hr : e.repositoryId = r
      · simp [hr]
      · simp [hr]

theorem get?_releaseActive (l : Ledger) (r j r' : String) :
    (l.releaseActive r j).execution.get? r' =
      (l.execution.get? r').map fun e =>
        if r' = r ∧ e.activeJobId = some j then ⟨r', none⟩ else e := by
  rw [releaseActive, Table.get?_update]
  cases h : l.execution.get? r' with
  | none => rfl
  | some e =>
      obtain rfl := Table.key_of_get? h
      by_cases hr : e.repositoryId = r ∧ e.activeJobId = some j
      · simp [hr]
      · simp [hr]

theorem get?_reserveRow (l : Ledger) (r r' : String) :
    (l.reserveRow r).execution.get? r' =
      if r = r' then some ((l.execution.get? r').getD ⟨r, none⟩) else l.execution.get? r' :=
  Table.get?_insertNew _ _ _

theorem get?_updateAttempt (l : Ledger) (j : String) (g : Nat) (p : Attempt → Bool)
    (f : Attempt → Attempt) (hf : ∀ a, (f a).key = a.key) (k : String × Nat) :
    (l.updateAttempt j g p f hf).attempts.get? k =
      (l.attempts.get? k).map fun a => if k = (j, g) ∧ p a then f a else a := by
  rw [updateAttempt, Table.get?_update]
  cases h : l.attempts.get? k with
  | none => rfl
  | some a =>
      obtain rfl := Table.key_of_get? h
      simp

end Ledger

/-! ## Progress -/

/-- `IndexStats`. -/
structure IndexStats where
  totalFiles : Nat := 0
  indexedFiles : Nat := 0
  indexedChunks : Nat := 0
  deletedFiles : Nat := 0
  skippedFiles : Nat := 0
  errorCount : Nat := 0
  deriving DecidableEq, Repr

end RepoMesh
