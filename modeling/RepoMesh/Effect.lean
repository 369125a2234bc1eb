import Mathlib.Logic.Relation
import RepoMesh.Store

/-!
# What a transaction can do to the ledger

The abstract layer of the coordination store. `JobStep` is the life cycle of
one job: every change a committed transaction makes to a job row that already
exists, with its guard. `Effect` adds what the same transaction does to the
reservation and to the attempt rows. A committed transaction is a `Commit`: some
insertions and cleanups, then at most one other effect (`Refine`).

Every invariant of the development is derived from these definitions, never
from the statements of the operations.
-/

namespace RepoMesh

/-! ## The life cycle of a job -/

/-- The job runs under a lease that has not expired. -/
def Live (now : Time) (row : Job) : Prop :=
  row.status = .running ∧ ∃ e, row.leaseExpiresAt = some e ∧ now < e

/-- The job runs under a lease that has expired. -/
def Expired (now : Time) (row : Job) : Prop :=
  row.status = .running ∧ ∃ e, row.leaseExpiresAt = some e ∧ e ≤ now

/-- The claim query accepts the row, reservation apart. -/
def Runnable (now : Time) (row : Job) : Prop :=
  row.status.waiting = true ∧ row.availableAt ≤ now ∨ Expired now row

/-- A status the owner of a running job may ask `_finish` for. -/
def Finishing (row : Job) (status : JobStatus) : Prop :=
  status.terminal = true ∨ status = .retrying ∧ row.attempt < row.maxAttempts

/-! ## Rights -/

/-- A row no attempt was made on. -/
def Job.Untried (row : Job) : Prop :=
  row.attempt = 0

/-- A row the import of `rows` may insert. -/
def ImportedFrom (rows : List LegacyRow) (row : Job) : Prop :=
  ∃ old ∈ rows, old.id = row.id ∧ (row.attempt : Int) = old.importAttempt

/-- What a transaction may add to the ledger: which rows it inserts, and for
which workers it claims. -/
structure Rights where
  inserts : Job → Prop
  claims : String → Prop

namespace Rights

/-- No insertion and no claim. -/
def none : Rights := ⟨fun _ => False, fun _ => False⟩

def insert (P : Job → Prop) : Rights := ⟨P, fun _ => False⟩

def claim (workerId : String) : Rights := ⟨fun _ => False, (· = workerId)⟩

end Rights

section

variable (R : Rights) (cfg : Settings) (now : Time)

inductive JobStep : Job → Job → Prop where
  | cancel {row : Job} : row.status.terminal = false → JobStep row (cancelRow now row)
  | renew {row : Job} : Live now row → JobStep row (renewedRow cfg now row)
  | progress {row : Job} (stats : IndexStats) :
      Live now row → JobStep row (progressRow now stats row)
  | claim {row : Job} (workerId : String) :
      Runnable now row → exhausted row = false →
      JobStep row (claimedRow cfg now workerId row)
  | exhaust {row : Job} :
      Expired now row → exhausted row = true → JobStep row (exhaustedRow now row)
  | finish {row : Job} (status : JobStatus) (error : Option String) (delay : Time) :
      Live now row → Finishing row status → JobStep row (finishRow now status error delay row)

/-- The well-formedness of a job row that every transaction keeps. -/
structure Job.Ok (row : Job) : Prop where
  max_pos : 0 < row.maxAttempts
  worker : row.workerId.isSome = true ↔ row.status = .running
  lease : row.leaseExpiresAt.isSome = true ↔ row.status = .running
  completed : row.completedAt.isSome = true ↔ row.status.terminal = true
  budget : row.attempt ≤ row.maxAttempts
  waiting_budget : row.status.waiting = true → row.attempt < row.maxAttempts
  waiting_cancel : row.status.waiting = true → row.cancelRequested = false
  claimed : row.status = .running → 1 ≤ row.leaseGeneration

/-- A row as an insertion leaves it. -/
structure Job.Fresh (row : Job) : Prop extends Job.Ok row where
  generation : row.leaseGeneration = 0
  not_running : row.status ≠ .running
  not_retrying : row.status ≠ .retrying

/-! ## Effects on the ledger -/

/-- `_finish` on the whole ledger. -/
def finishLedger (status : JobStatus) (error : Option String) (delay : Time) (row : Job)
    (l : Ledger) : Ledger :=
  ((l.setJob (finishRow now status error delay row)).releaseActive row.repositoryId
    row.id).updateAttempt row.id row.leaseGeneration (fun _ => true)
      (fun a =>
        { a with
          endedAt := some now
          outcome := some (.status (finishStatus status row))
          error := error })
      (fun _ => rfl)

/-- The cleanup branch of `claim_job` on the whole ledger. -/
def exhaustLedger (row : Job) (l : Ledger) : Ledger :=
  (((expireAttempt now row l).setJob (exhaustedRow now row)).setActive row.repositoryId
    none).updateAttempt row.id row.leaseGeneration (fun _ => true)
      (settledAttempt row) (settledAttempt_key row)

/-- The claim branch of `claim_job` on the whole ledger, without the attempt
row it inserts. -/
def reserveLedger (workerId : String) (row : Job) (l : Ledger) : Ledger :=
  ((expireAttempt now row l).setJob (claimedRow cfg now workerId row)).setActive
    row.repositoryId (some row.id)

/-- The claim branch of `claim_job` on the whole ledger. -/
def claimLedger (workerId : String) (row : Job) (l : Ledger) : Ledger :=
  { reserveLedger cfg now workerId row l with
    attempts := (reserveLedger cfg now workerId row l).attempts.insertNew
      (claimAttempt cfg now workerId row) }

/-- `renew_lease` on the whole ledger. -/
def renewLedger (row : Job) (l : Ledger) : Ledger :=
  (l.setJob (renewedRow cfg now row)).updateAttempt row.id row.leaseGeneration
    (fun _ => true) (renewedAttempt cfg now) (renewedAttempt_key cfg now)

/-- The effects a transaction may have before its last one. -/
inductive Prelude : Ledger → Ledger → Prop where
  | reserve (l : Ledger) (repositoryId : String) : Prelude l (l.reserveRow repositoryId)
  | insert {l : Ledger} {row : Job} :
      row.Fresh → R.inserts row → l.conflicts row = [] → (l.execution.get? row.repositoryId).isSome = true →
      Prelude l { l with jobs := l.jobs.insertNew row }
  | exhaust {l : Ledger} {row : Job} :
      l.jobs.get? row.id = some row → Expired now row → exhausted row = true →
      Prelude l (exhaustLedger now row l)

inductive Effect : Ledger → Ledger → Prop where
  | prelude {l l' : Ledger} : Prelude R now l l' → Effect l l'
  | cancel {l : Ledger} {row : Job} :
      l.jobs.get? row.id = some row → row.status.terminal = false →
      Effect l (l.setJob (cancelRow now row))
  | renew {l : Ledger} {row : Job} :
      l.jobs.get? row.id = some row → Live now row → Effect l (renewLedger cfg now row l)
  | progress {l : Ledger} {row : Job} (stats : IndexStats) :
      l.jobs.get? row.id = some row → Live now row →
      Effect l (l.setJob (progressRow now stats row))
  | claim {l : Ledger} {row : Job} {e : Execution} (workerId : String) :
      R.claims workerId → l.jobs.get? row.id = some row → Runnable now row → exhausted row = false →
      l.execution.get? row.repositoryId = some e →
      (e.activeJobId = none ∨ e.activeJobId = some row.id) →
      Effect l (claimLedger cfg now workerId row l)
  | finish {l : Ledger} {row : Job} (status : JobStatus) (error : Option String)
      (delay : Time) :
      l.jobs.get? row.id = some row → Live now row → Finishing row status →
      Effect l (finishLedger now status error delay row l)

/-- One committed transaction. An effect after a prelude is an effect on a job
that was there before: what a transaction inserts, it leaves as inserted. -/
def Commit (l l' : Ledger) : Prop :=
  ∃ m, Relation.ReflTransGen (Prelude R now) l m ∧
    (l' = m ∨
      (∀ id, l.jobs.get? id = none → m.jobs.get? id = none) ∧ Effect R cfg now m l')

end

/-! ## The ledger invariant -/

/-- What holds of the ledger between transactions. `active` and `running` are
the reservation invariant; `attempts` says which attempt rows exist. -/
structure Ledger.Ok (l : Ledger) : Prop where
  rows : ∀ {id row}, l.jobs.get? id = some row → row.Ok
  reserved : ∀ {id row}, l.jobs.get? id = some row →
    (l.execution.get? row.repositoryId).isSome = true
  active : ∀ {r e id}, l.execution.get? r = some e → e.activeJobId = some id →
    ∃ row, l.jobs.get? id = some row ∧ row.repositoryId = r ∧ row.status = .running
  running : ∀ {id row}, l.jobs.get? id = some row → row.status = .running →
    l.execution.get? row.repositoryId = some ⟨row.repositoryId, some id⟩
  attempts : ∀ id g, (l.attempts.get? (id, g)).isSome = true ↔
    ∃ row, l.jobs.get? id = some row ∧ 1 ≤ g ∧ g ≤ row.leaseGeneration

end RepoMesh
