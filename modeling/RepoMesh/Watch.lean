import RepoMesh.Store

/-!
# Watches

The operations of `WatchRepository` that write: durable observations of a
working tree, and the automatic submission that an observation can cause.
`set_enabled` is two transactions, `ensure` and `setEnabled`.
-/

namespace RepoMesh

/-- A row of `repository_watches` with the column defaults. -/
def WatchRow.new (repositoryId : String) (enabled : Bool) : WatchRow where
  repositoryId := repositoryId
  enabled := enabled
  observedFingerprint := none
  submittedFingerprint := none
  stableSince := none
  pendingSince := none
  lastCheckedAt := none
  lastJobId := none
  error := none

def ensure (cfg : Settings) (repositoryId : String) (enabled : Option Bool) : Tx Unit :=
  fun db =>
    .ok ((),
      { db with
        toLedger := db.toLedger.reserveRow repositoryId
        watches := db.watches.insertNew
          (.new repositoryId (enabled.getD cfg.watchDefaultEnabled)) })

/-- The row the second statement of `set_enabled` writes. -/
def enabledRow (now : Time) (enabled : Bool) (w : WatchRow) : WatchRow :=
  { w with
    enabled := enabled
    submittedFingerprint := if enabled && !w.enabled then none else w.submittedFingerprint
    pendingSince := if enabled && !w.enabled then some now else w.pendingSince }

def setEnabled (now : Time) (repositoryId : String) (enabled : Bool) : Tx Unit := fun db =>
  .ok ((),
    { db with
      watches := db.watches.update (·.repositoryId = repositoryId) (enabledRow now enabled)
        (fun _ => rfl) })

def recordError (now : Time) (repositoryId error : String) : Tx Unit := fun db =>
  .ok ((),
    { db with
      watches := db.watches.update (fun w => w.repositoryId = repositoryId && w.enabled)
        (fun w => { w with error := some (clip error), lastCheckedAt := some now })
        (fun _ => rfl) })

/-- A job of the repository is queued, running or retrying. -/
def busy (l : Ledger) (repositoryId : String) : Bool :=
  l.jobs.rows.any fun j => j.repositoryId = repositoryId && !j.status.terminal

/-- The watch's last job is completed. -/
def lastJobCompleted (l : Ledger) (w : WatchRow) : Bool :=
  (w.lastJobId.bind l.jobs.get?).any (·.status = .completed)

/-- First UPDATE of `observe`: after successful work the persisted manifest
counts too, so a different `indexed` fingerprint forgets the submission. -/
def reconciledRow (l : Ledger) (fingerprint : String) (indexed : Option String)
    (w : WatchRow) : WatchRow :=
  if indexed.any (· ≠ fingerprint) ∧ w.submittedFingerprint = some fingerprint ∧
      lastJobCompleted l w ∧ ¬ busy l w.repositoryId then
    { w with submittedFingerprint := none }
  else w

/-- Second UPDATE of `observe`: the observation is recorded. -/
def observedRow (now : Time) (fingerprint : String) (w : WatchRow) : WatchRow :=
  { w with
    stableSince := if w.observedFingerprint ≠ some fingerprint then some now
      else w.stableSince
    pendingSince := if w.submittedFingerprint = some fingerprint then none
      else some (w.pendingSince.getD now)
    observedFingerprint := some fingerprint
    lastCheckedAt := some now
    error := none }

/-- The condition of the `ready` query on the recorded row. -/
def watchReady (cfg : Settings) (now : Time) (l : Ledger) (w : WatchRow) : Bool :=
  w.observedFingerprint ≠ w.submittedFingerprint &&
    (w.stableSince.any (· ≤ now - cfg.watchDebounceSeconds) ||
      w.pendingSince.any (· ≤ now - cfg.watchMaxWaitSeconds)) &&
    !busy l w.repositoryId

/-- The row `observe` inserts. -/
def watchJobRow (cfg : Settings) (now : Time) (uuid repositoryId : String) : Job :=
  { Job.new uuid repositoryId .incremental now with
    trigger := .watch
    maxAttempts := cfg.jobMaxRetries }

/-- The watch row of the repository becomes `w`. -/
def Db.putWatch (db : Db) (w : WatchRow) : Db :=
  { db with
    watches := db.watches.update (·.repositoryId = w.repositoryId)
      (fun r => { w with repositoryId := r.repositoryId }) (fun _ => rfl) }

@[simp] theorem Db.putWatch_toLedger (db : Db) (w : WatchRow) :
    (db.putWatch w).toLedger = db.toLedger := rfl

def observe (cfg : Settings) (now : Time) (uuid repositoryId fingerprint : String)
    (indexed : Option String) : Tx (Option Job) := fun db =>
  match db.watches.get? repositoryId with
  | none => .ok (none, db)
  | some w =>
      if ¬ w.enabled then .ok (none, db)
      else
        let w := observedRow now fingerprint (reconciledRow db.toLedger fingerprint indexed w)
        if ¬ watchReady cfg now db.toLedger w then .ok (none, db.putWatch w)
        else
          let row := watchJobRow cfg now uuid repositoryId
          match db.toLedger.insertJob row (fun _ => false) with
          | .error e => .error e
          | .ok none => .error .assertionError
          | .ok (some l) =>
              .ok (some row,
                { db with toLedger := l }.putWatch
                  { w with
                    submittedFingerprint := some fingerprint
                    lastJobId := some row.id
                    pendingSince := none })

end RepoMesh
