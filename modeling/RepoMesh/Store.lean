import Mathlib.Data.List.MinMax
import Mathlib.Data.Prod.Lex
import Mathlib.Data.String.Basic
import Mathlib.Algebra.Order.Ring.Int
import RepoMesh.Schema

/-!
# The coordination repository

The operations of `CoordinationRepository`, one definition per method. Each
method runs in one `pool.connection()` block, so it is a transaction: a
function from the store to a result and the next store, or an error, after
which the store is the one before. The transaction reads the clock at the
instant it takes effect; `now` is that instant for every `clock_timestamp()`
of its statements. A `uuid` argument is the fresh id the method draws.

`Job` values handed to callers are whole rows, as `Job.model_validate`
returns them; the ownership operations read the handle's id, repository,
worker, generation and budget from such a value.
-/

namespace RepoMesh

/-- The settings the coordination store reads, durations in microseconds,
with the bounds `Settings` validates. -/
structure Settings where
  jobLeaseSeconds : Time
  jobMaxRetries : Nat
  jobRetryBaseSeconds : Time
  jobRetryMaxSeconds : Time
  workerOfflineSeconds : Time
  watchDebounceSeconds : Time
  watchMaxWaitSeconds : Time
  watchDefaultEnabled : Bool
  lease_pos : 0 < jobLeaseSeconds
  retries_pos : 1 ≤ jobMaxRetries
  retryBase_pos : 0 < jobRetryBaseSeconds
  retryMax_pos : 0 < jobRetryMaxSeconds
  offline_pos : 0 < workerOfflineSeconds
  debounce_nonneg : 0 ≤ watchDebounceSeconds
  debounce_le_maxWait : watchDebounceSeconds ≤ watchMaxWaitSeconds

/-- The settings a deployment gets when it sets nothing. -/
def Settings.default : Settings where
  jobLeaseSeconds := 30000000
  jobMaxRetries := 3
  jobRetryBaseSeconds := 1000000
  jobRetryMaxSeconds := 60000000
  workerOfflineSeconds := 60000000
  watchDebounceSeconds := 2000000
  watchMaxWaitSeconds := 30000000
  watchDefaultEnabled := true
  lease_pos := by decide
  retries_pos := by decide
  retryBase_pos := by decide
  retryMax_pos := by decide
  offline_pos := by decide
  debounce_nonneg := by decide
  debounce_le_maxWait := by decide

abbrev Tx (α : Type) := Db → Except Error (α × Db)

/-- `error[:2000]`. -/
def clip (error : String) : String :=
  String.ofList (error.toList.take 2000)

/-! ## Submission -/

/-- The row `submit_job` inserts. -/
def submittedRow (cfg : Settings) (now : Time) (uuid repositoryId : String) (mode : Mode)
    (key : Option String) (priority : Int) : Job :=
  { Job.new uuid repositoryId mode now with
    idempotencyKey := key
    priority := priority
    maxAttempts := cfg.jobMaxRetries }

def submitJob (cfg : Settings) (now : Time) (uuid repositoryId mode : String)
    (key : Option String) (priority : Int) : Tx Job := fun db =>
  match Mode.ofText mode with
  | none => .error (.valueError "invalid job mode or empty idempotency key")
  | some m =>
      if key = some "" then
        .error (.valueError "invalid job mode or empty idempotency key")
      else
        let l := db.toLedger.reserveRow repositoryId
        let row := submittedRow cfg now uuid repositoryId m key priority
        match l.insertJob row (· = .jobsIdempotencyKey) with
        | .error e => .error e
        | .ok (some l') => .ok (row, { db with toLedger := l' })
        | .ok none =>
            match l.jobs.rows.find? fun j => key.isSome && j.idempotencyKey = key with
            | none => .error .assertionError
            | some old =>
                if (old.repositoryId, old.mode, old.priority) ≠ (repositoryId, m, priority) then
                  .error (.valueError "idempotency key already belongs to a different request")
                else .ok (old, { db with toLedger := l })

def getJob (jobId : String) : Tx (Option Job) := fun db =>
  .ok (db.jobs.get? jobId, db)

/-- The row `resubmit_job` inserts. -/
def successorRow (cfg : Settings) (now : Time) (uuid : String) (old : Job) : Job :=
  { Job.new uuid old.repositoryId .incremental now with
    priority := old.priority
    maxAttempts := cfg.jobMaxRetries
    trigger := .retry
    parentJobId := some old.id }

/-- `UPDATE repository_watches SET last_job_id=.. WHERE last_job_id=..`. -/
def Db.trackSuccessor (db : Db) (old successor : String) : Db :=
  { db with
    watches := db.watches.update (·.lastJobId = some old)
      (fun w => { w with lastJobId := some successor }) (fun _ => rfl) }

@[simp] theorem Db.trackSuccessor_toLedger (db : Db) (old successor : String) :
    (db.trackSuccessor old successor).toLedger = db.toLedger := rfl

def resubmitJob (cfg : Settings) (now : Time) (uuid jobId : String) : Tx Job := fun db =>
  match db.jobs.get? jobId with
  | none => .error (.lookupError "job not found")
  | some old =>
      if ¬ old.status.terminal then
        .error (.valueError "only finished jobs can be resubmitted")
      else
        let row := successorRow cfg now uuid old
        match db.toLedger.insertJob row (· = .jobsParentJobId) with
        | .error e => .error e
        | .ok (some l) =>
            .ok (row, { db with toLedger := l }.trackSuccessor jobId row.id)
        | .ok none =>
            match db.jobs.rows.find? (·.parentJobId = some jobId) with
            | none => .error .assertionError
            | some child => .ok (child, db.trackSuccessor jobId child.id)

/-! ## The worker registry -/

def registerWorker (cfg : Settings) (now : Time) (session workerId hostname : String)
    (pid : Int) (version : String) : Tx String := fun db =>
  match db.workers.get? workerId with
  | none =>
      .ok (session,
        { db with
          workers := db.workers.insertNew
            { workerId := workerId, sessionId := session, hostname := hostname, pid := pid,
              version := version, status := .idle, startedAt := now, lastSeenAt := now,
              currentJobId := none, completedJobs := 0, failedJobs := 0 } })
  | some w =>
      if w.status = .stopped ∨ w.lastSeenAt < now - cfg.workerOfflineSeconds then
        .ok (session,
          { db with
            workers := db.workers.update (·.workerId = workerId)
              (fun w =>
                { w with
                  sessionId := session, hostname := hostname, pid := pid, version := version,
                  status := .idle, startedAt := now, lastSeenAt := now, currentJobId := none })
              (fun _ => rfl) })
      else
        .error (.workerIdentityInUse s!"worker identity is already active: {workerId}")

/-- The registry row names this session and is not stopped. -/
def sessionLive (db : Db) (workerId session : String) : Bool :=
  match db.workers.get? workerId with
  | none => false
  | some w => w.sessionId = session && w.status ≠ .stopped

def heartbeatWorker (now : Time) (workerId session : String) (currentJob : Option String) :
    Tx Unit := fun db =>
  if sessionLive db workerId session then
    .ok ((),
      { db with
        workers := db.workers.update (·.workerId = workerId)
          (fun w =>
            { w with
              lastSeenAt := now
              status := if currentJob.any (· ≠ "") then .busy else .idle
              currentJobId := currentJob })
          (fun _ => rfl) })
  else .error (.leaseLost "worker registry session lost")

def stopWorker (now : Time) (workerId session : String) : Tx Unit := fun db =>
  .ok ((),
    { db with
      workers := db.workers.update
        (fun w => w.workerId = workerId && w.sessionId = session)
        (fun w => { w with status := .stopped, currentJobId := none, lastSeenAt := now })
        (fun _ => rfl) })

/-! ## Claims -/

/-- The condition of the claim query on a job, without the row locks. -/
def claimable (now : Time) (l : Ledger) (j : Job) : Bool :=
  match l.execution.get? j.repositoryId with
  | none => false
  | some r =>
      (r.activeJobId = none || r.activeJobId = some j.id) &&
        (j.status.waiting && decide (j.availableAt ≤ now) ||
          j.status = .running && j.leaseExpiresAt.any (· ≤ now))

/-- `ORDER BY j.priority DESC, j.available_at, j.created_at, j.id`. -/
def ClaimKey := ℤᵒᵈ ×ₗ Time ×ₗ Time ×ₗ String

instance : LinearOrder ClaimKey :=
  inferInstanceAs (LinearOrder (ℤᵒᵈ ×ₗ ℤ ×ₗ ℤ ×ₗ String))

def claimOrder (j : Job) : ClaimKey :=
  toLex (OrderDual.toDual j.priority, toLex (j.availableAt, toLex (j.createdAt, j.id)))

/-- The row the claim query locks: the first claimable one whose job and
repository rows no other session holds (`SKIP LOCKED`). -/
def claimCandidate (now : Time) (locked : Job → Bool) (l : Ledger) : Option Job :=
  (l.jobs.rows.filter fun j => claimable now l j && !locked j).argmin claimOrder

/-- The reclaimed attempt is closed first: `UPDATE job_attempts SET
ended_at=clock_timestamp(),outcome='expired' WHERE .. AND ended_at IS NULL`. -/
def expireAttempt (now : Time) (row : Job) (l : Ledger) : Ledger :=
  if row.status = .running then
    l.updateAttempt row.id row.leaseGeneration (·.endedAt = none)
      (fun a => { a with endedAt := some now, outcome := some .expired }) (fun _ => rfl)
  else l

/-- The status the cleanup branch leaves a job in. -/
def exhaustedStatus (row : Job) : JobStatus :=
  if row.cancelRequested then .cancelled else .failed

/-- The row the cleanup branch writes. -/
def exhaustedRow (now : Time) (row : Job) : Job :=
  { row with
    status := exhaustedStatus row
    workerId := none
    leaseExpiresAt := none
    completedAt := some now
    updatedAt := now
    error := if exhaustedStatus row = .failed then
      some "attempt budget exhausted after lease expiry" else none }

/-- The registry after the cleanup branch: the worker that still names the job
is idle again, with one more failure when the job failed. -/
def exhaustWorkers (row : Job) (workers : Table WorkerRow.workerId) :
    Table WorkerRow.workerId :=
  workers.update (fun w => some w.workerId = row.workerId && w.currentJobId = some row.id)
    (fun w =>
      { w with
        failedJobs := w.failedJobs + (if exhaustedStatus row = .failed then 1 else 0)
        currentJobId := none
        status := .idle })
    (fun _ => rfl)

/-- The attempt row the cleanup branch leaves. -/
def settledAttempt (row : Job) (a : Attempt) : Attempt :=
  { a with outcome := some (.status (exhaustedStatus row)) }

theorem settledAttempt_key (row : Job) (a : Attempt) : (settledAttempt row a).key = a.key := rfl

/-- The cleanup branch: a cancelled or exhausted candidate is finalised and
its repository released. -/
def exhaustJob (now : Time) (row : Job) : Tx Unit := fun db =>
  match (expireAttempt now row db.toLedger).putJob (exhaustedRow now row) with
  | .error e => .error e
  | .ok l =>
      let l := l.setActive row.repositoryId none
      if row.status = .running then
        let l := l.updateAttempt row.id row.leaseGeneration (fun _ => true)
          (settledAttempt row) (settledAttempt_key row)
        .ok ((), { db with toLedger := l, workers := exhaustWorkers row db.workers })
      else .ok ((), { db with toLedger := l })

/-- The row a claim writes. -/
def claimedRow (cfg : Settings) (now : Time) (workerId : String) (row : Job) : Job :=
  { row with
    status := .running
    workerId := some workerId
    leaseGeneration := row.leaseGeneration + 1
    attempt := row.attempt + 1
    heartbeatAt := some now
    leaseExpiresAt := some (now + cfg.jobLeaseSeconds)
    startedAt := some (row.startedAt.getD now)
    updatedAt := now
    progressDone := 0
    progressTotal := 0
    indexedFiles := 0
    indexedChunks := 0
    deletedFiles := 0
    skippedFiles := 0
    errorCount := 0
    error := none }

/-- The attempt row a claim inserts. -/
def claimAttempt (cfg : Settings) (now : Time) (workerId : String) (row : Job) : Attempt where
  jobId := row.id
  leaseGeneration := row.leaseGeneration + 1
  workerId := workerId
  attempt := row.attempt + 1
  claimedAt := now
  leaseExpiresAt := now + cfg.jobLeaseSeconds
  endedAt := none
  outcome := none
  reclaimed := row.status = .running
  error := none

/-- The registry after a claim. -/
def claimWorkers (now : Time) (workerId jobId : String)
    (workers : Table WorkerRow.workerId) : Table WorkerRow.workerId :=
  workers.update (·.workerId = workerId)
    (fun w => { w with status := .busy, currentJobId := some jobId, lastSeenAt := now })
    (fun _ => rfl)

/-- The claim branch: ownership, reservation, attempt row and registry row
change together. -/
def takeJob (cfg : Settings) (now : Time) (workerId session : String) (row : Job) :
    Tx Job := fun db =>
  let claimed := claimedRow cfg now workerId row
  match (expireAttempt now row db.toLedger).putJob claimed with
  | .error e => .error e
  | .ok l =>
      let l := l.setActive row.repositoryId (some row.id)
      let attempt := claimAttempt cfg now workerId row
      if (l.attempts.get? attempt.key).isSome then .error (.integrityError .attemptsPkey)
      else
        match db.workers.get? workerId with
        | none => .error (.leaseLost "worker registry session lost during claim")
        | some w =>
            if w.sessionId = session then
              .ok (claimed,
                { db with
                  toLedger := { l with attempts := l.attempts.insertNew attempt }
                  workers := claimWorkers now workerId row.id db.workers })
            else .error (.leaseLost "worker registry session lost during claim")

/-- The candidate is finalised rather than claimed. -/
def exhausted (row : Job) : Bool :=
  row.cancelRequested || decide (row.maxAttempts ≤ row.attempt)

/-- The bounded loop of `claim_job`; the number is the iterations left. -/
def claimLoop (cfg : Settings) (now : Time) (workerId session : String)
    (locked : Job → Bool) : Nat → Tx (Option Job)
  | 0 => fun db => .ok (none, db)
  | n + 1 => fun db =>
      match claimCandidate now locked db.toLedger with
      | none => .ok (none, db)
      | some row =>
          if exhausted row then
            match exhaustJob now row db with
            | .error e => .error e
            | .ok ((), db') => claimLoop cfg now workerId session locked n db'
          else
            match takeJob cfg now workerId session row db with
            | .error e => .error e
            | .ok (job, db') => .ok (some job, db')

def claimJob (cfg : Settings) (now : Time) (workerId session : String)
    (locked : Job → Bool) : Tx (Option Job) := fun db =>
  if sessionLive db workerId session then
    claimLoop cfg now workerId session locked 32 db
  else .error (.leaseLost "worker registry session lost")

/-! ## Ownership -/

/-- The predicate `OWNED` on a row, for the handle `job`. A NULL worker owns
nothing. -/
def owned (now : Time) (job row : Job) : Bool :=
  row.id = job.id && job.workerId.isSome && row.workerId = job.workerId &&
    row.leaseGeneration = job.leaseGeneration && row.status = .running &&
    row.leaseExpiresAt.any (now < ·)

/-- The row selected by `WHERE` + `OWNED`. -/
def ownedRow (now : Time) (l : Ledger) (job : Job) : Option Job :=
  (l.jobs.get? job.id).filter (owned now job)

def assertOwnership (now : Time) (job : Job) : Tx Bool := fun db =>
  match ownedRow now db.toLedger job with
  | none => .error (.leaseLost s!"lease lost: {job.id} generation {job.leaseGeneration}")
  | some row => .ok (row.cancelRequested, db)

/-- The row a renewal writes. -/
def renewedRow (cfg : Settings) (now : Time) (row : Job) : Job :=
  { row with
    heartbeatAt := some now
    updatedAt := now
    leaseExpiresAt := some (now + cfg.jobLeaseSeconds) }

/-- The attempt row a renewal writes. -/
def renewedAttempt (cfg : Settings) (now : Time) (a : Attempt) : Attempt :=
  { a with leaseExpiresAt := now + cfg.jobLeaseSeconds }

theorem renewedAttempt_key (cfg : Settings) (now : Time) (a : Attempt) :
    (renewedAttempt cfg now a).key = a.key := rfl

def renewLease (cfg : Settings) (now : Time) (job : Job) : Tx Bool := fun db =>
  match ownedRow now db.toLedger job with
  | none => .error (.leaseLost s!"lease renewal rejected: {job.id}")
  | some row =>
      match db.toLedger.putJob (renewedRow cfg now row) with
      | .error e => .error e
      | .ok l =>
          .ok (row.cancelRequested,
            { db with
              toLedger := l.updateAttempt job.id job.leaseGeneration (fun _ => true)
                (renewedAttempt cfg now) (renewedAttempt_key cfg now) })

def IndexStats.done (stats : IndexStats) : Nat :=
  stats.indexedFiles + stats.skippedFiles + stats.deletedFiles + stats.errorCount

/-- The row a progress update writes. -/
def progressRow (now : Time) (stats : IndexStats) (row : Job) : Job :=
  { row with
    progressDone := stats.done
    progressTotal := stats.totalFiles
    indexedFiles := stats.indexedFiles
    indexedChunks := stats.indexedChunks
    deletedFiles := stats.deletedFiles
    skippedFiles := stats.skippedFiles
    errorCount := stats.errorCount
    updatedAt := now }

def updateProgress (now : Time) (job : Job) (stats : IndexStats)
    (path error : Option String) : Tx Unit := fun db =>
  match ownedRow now db.toLedger job with
  | none => .error (.leaseLost s!"progress rejected: {job.id}")
  | some row =>
      match db.toLedger.putJob (progressRow now stats row) with
      | .error e => .error e
      | .ok l =>
          match error, path with
          | some e, some p =>
              if e ≠ "" ∧ p ≠ "" then
                .ok ((),
                  { db with
                    toLedger := l
                    fileErrors := db.fileErrors ++
                      [⟨job.id, job.leaseGeneration, p, clip e, now⟩] })
              else .ok ((), { db with toLedger := l })
          | _, _ => .ok ((), { db with toLedger := l })

/-- Entry of `mutation_guard`, up to its `yield`: the repository row is locked
by then, and the reservation and the lease are the handle's. -/
def enterGuard (now : Time) (job : Job) : Tx Unit := fun db =>
  match db.execution.get? job.repositoryId with
  | none => .error (.leaseLost "repository execution ownership lost")
  | some r =>
      if r.activeJobId ≠ some job.id then
        .error (.leaseLost "repository execution ownership lost")
      else
        match assertOwnership now job db with
        | .error e => .error e
        | .ok (_, db) => .ok ((), db)

/-! ## Cancellation and finishing -/

/-- The row `request_cancel` writes. -/
def cancelRow (now : Time) (row : Job) : Job :=
  { row with
    cancelRequested := true
    updatedAt := now
    status := if row.status.waiting then .cancelled else row.status
    completedAt := if row.status.waiting then some now else row.completedAt }

def requestCancel (now : Time) (jobId : String) : Tx Job := fun db =>
  match db.jobs.get? jobId with
  | none => .error (.valueError "job not found")
  | some row =>
      if row.status.terminal then .ok (row, db)
      else
        match db.toLedger.putJob (cancelRow now row) with
        | .error e => .error e
        | .ok l => .ok (cancelRow now row, { db with toLedger := l })

/-- The status `_finish` leaves the job in. -/
def finishStatus (status : JobStatus) (row : Job) : JobStatus :=
  if row.cancelRequested then .cancelled else status

/-- The row `_finish` writes. -/
def finishRow (now : Time) (status : JobStatus) (error : Option String) (delay : Time)
    (row : Job) : Job :=
  { row with
    status := finishStatus status row
    workerId := none
    leaseExpiresAt := none
    updatedAt := now
    completedAt := if status = .retrying ∧ ¬ row.cancelRequested then none else some now
    availableAt := now + delay
    error := error }

/-- The registry after `_finish`: the handle's worker, where it still names the
job, is idle again and counts the outcome. -/
def finishWorkers (job : Job) (status : JobStatus) (workers : Table WorkerRow.workerId) :
    Table WorkerRow.workerId :=
  workers.update (fun w => some w.workerId = job.workerId && w.currentJobId = some job.id)
    (fun w =>
      { w with
        completedJobs := w.completedJobs +
          (if status = .completed ∨ status = .completedWithErrors then 1 else 0)
        failedJobs := w.failedJobs + (if status = .failed then 1 else 0)
        status := .idle
        currentJobId := none })
    (fun _ => rfl)

/-- `_finish`. -/
def finish (now : Time) (job : Job) (status : JobStatus) (error : Option String)
    (delay : Time) : Tx Job := fun db =>
  match ownedRow now db.toLedger job with
  | none => .error (.leaseLost s!"terminal update rejected: {job.id}")
  | some old =>
      let row := finishRow now status error delay old
      match db.toLedger.putJob row with
      | .error e => .error e
      | .ok l =>
          let l := l.releaseActive job.repositoryId job.id
          let l := l.updateAttempt job.id job.leaseGeneration (fun _ => true)
            (fun a =>
              { a with endedAt := some now, outcome := some (.status row.status), error := error })
            (fun _ => rfl)
          .ok (row,
            { db with toLedger := l, workers := finishWorkers job row.status db.workers })

def completeJob (now : Time) (job : Job) (withErrors : Bool) : Tx Job :=
  finish now job (if withErrors then .completedWithErrors else .completed) none 0

def cancelJob (now : Time) (job : Job) : Tx Job :=
  finish now job .cancelled none 0

def failJob (now : Time) (job : Job) (error : String) : Tx Job :=
  finish now job .failed (some (clip error)) 0

/-- The backoff of `schedule_retry`; `jitter` is the draw of
`random.uniform(0, base)`. -/
def retryDelay (cfg : Settings) (attempt : Nat) (jitter : Time) : Time :=
  min (cfg.jobRetryBaseSeconds * 2 ^ min (attempt - 1) 20 + jitter) cfg.jobRetryMaxSeconds

def scheduleRetry (cfg : Settings) (now : Time) (job : Job) (error : String)
    (jitter : Time) : Tx Job :=
  if job.maxAttempts ≤ job.attempt then failJob now job error
  else
    finish now job .retrying (some (clip error)) (retryDelay cfg job.attempt jitter)

/-! ## Legacy import -/

/-- A job row of the single-node store: text columns are unconstrained there. -/
structure LegacyRow where
  id : String
  repositoryId : String
  kind : String
  mode : String
  status : String
  attempt : Int
  idempotencyKey : Option String
  createdAt : Time
  updatedAt : Time
  cancelRequested : Bool
  error : Option String
  indexedFiles : Int
  indexedChunks : Int
  deletedFiles : Int
  skippedFiles : Int
  errorCount : Int
  progressDone : Int
  progressTotal : Int
  deriving DecidableEq, Repr

namespace LegacyRow

/-- The legacy status, when it is one of `TERMINAL`. -/
def terminalStatus (old : LegacyRow) : Option JobStatus :=
  (JobStatus.ofText old.status).filter JobStatus.terminal

def importStatus (old : LegacyRow) : JobStatus :=
  match old.terminalStatus with
  | some s => s
  | none => if old.cancelRequested then .cancelled else .queued

def importAttempt (old : LegacyRow) : Int :=
  if old.terminalStatus.isSome then old.attempt else max 1 old.attempt

/-- The row the import inserts, once its mode is known to be one. -/
def toJob (cfg : Settings) (now : Time) (old : LegacyRow) (mode : Mode) : Job :=
  { Job.new old.id old.repositoryId mode now with
    status := old.importStatus
    attempt := old.importAttempt.toNat
    maxAttempts := (max (max (cfg.jobMaxRetries : Int) (old.attempt + 1)) 2).toNat
    idempotencyKey := old.idempotencyKey
    createdAt := old.createdAt
    updatedAt := old.updatedAt
    cancelRequested := old.cancelRequested
    error := old.error
    indexedFiles := old.indexedFiles
    indexedChunks := old.indexedChunks
    deletedFiles := old.deletedFiles
    skippedFiles := old.skippedFiles
    errorCount := old.errorCount
    progressDone := old.progressDone
    progressTotal := old.progressTotal
    completedAt := if old.terminalStatus.isSome ∨ old.cancelRequested then
      some old.updatedAt else none }

end LegacyRow

/-- One row of the import: the new ledger, and whether the row was inserted. -/
def importRow (cfg : Settings) (now : Time) (old : LegacyRow) (l : Ledger) :
    Except Error (Bool × Ledger) :=
  let l := l.reserveRow old.repositoryId
  if old.kind ≠ "index" then .error (.integrityError .jobsKind)
  else
    match Mode.ofText old.mode with
    | none => .error (.integrityError .jobsMode)
    | some mode =>
        if old.importAttempt < 0 then .error (.integrityError .jobsAttempt)
        else
          match l.insertJob (old.toJob cfg now mode) (fun _ => true) with
          | .error e => .error e
          | .ok none => .ok (false, l)
          | .ok (some l') => .ok (true, l')

def importRows (cfg : Settings) (now : Time) :
    List LegacyRow → Nat → Ledger → Except Error (Nat × Ledger)
  | [], count, l => .ok (count, l)
  | old :: rows, count, l =>
      match importRow cfg now old l with
      | .error e => .error e
      | .ok (inserted, l') => importRows cfg now rows (count + if inserted then 1 else 0) l'

def importLegacyJobs (cfg : Settings) (now : Time) (rows : List LegacyRow) : Tx Nat :=
  fun db =>
    match importRows cfg now rows 0 db.toLedger with
    | .error e => .error e
    | .ok (count, l) => .ok (count, { db with toLedger := l })

end RepoMesh
