import RepoMesh.Transition
import RepoMesh.Watch

/-!
# The coordination store as a transition system

A state is the tables, the database clock and every `Job` value some caller
has been handed. One action is one transaction or a clock advance; a
transaction that raises leaves the tables as they were. Callers name jobs
only through values the store returned to them, which is what `Admissible`
says; nothing else is assumed about who calls what, or when.
-/

namespace RepoMesh

/-- What a transaction returns. -/
inductive Reply where
  | unit
  | flag (cancelRequested : Bool)
  | count (n : Nat)
  | session (id : String)
  | job (j : Job)
  | noJob
  deriving DecidableEq, Repr

def Reply.ofJob? : Option Job → Reply
  | some j => .job j
  | none => .noJob

/-- The jobs a reply hands out. -/
def Reply.jobs : Reply → List Job
  | .job j => [j]
  | _ => []

inductive Action where
  | submitJob (uuid repositoryId mode : String) (key : Option String) (priority : Int)
  | getJob (jobId : String)
  | resubmitJob (uuid jobId : String)
  | registerWorker (session workerId hostname : String) (pid : Int) (version : String)
  | heartbeatWorker (workerId session : String) (currentJob : Option String)
  | stopWorker (workerId session : String)
  | claimJob (workerId session : String) (locked : Job → Bool)
  | assertOwnership (job : Job)
  | renewLease (job : Job)
  | updateProgress (job : Job) (stats : IndexStats) (path error : Option String)
  | enterGuard (job : Job)
  | requestCancel (jobId : String)
  | completeJob (job : Job) (withErrors : Bool)
  | cancelJob (job : Job)
  | failJob (job : Job) (error : String)
  | scheduleRetry (job : Job) (error : String) (jitter : Time)
  | importLegacyJobs (rows : List LegacyRow)
  | ensure (repositoryId : String) (enabled : Option Bool)
  | setEnabled (repositoryId : String) (enabled : Bool)
  | recordError (repositoryId error : String)
  | observe (uuid repositoryId fingerprint : String) (indexed : Option String)
  | advance (duration : Nat)

/-- The handle an ownership operation is called with. -/
def Action.handle? : Action → Option Job
  | .assertOwnership job | .renewLease job | .updateProgress job _ _ _ | .enterGuard job
  | .completeJob job _ | .cancelJob job | .failJob job _ | .scheduleRetry job _ _ => some job
  | _ => none

structure Coord where
  db : Db
  now : Time
  handles : List Job

/-- A transaction with its result as a `Reply`. -/
def replying {α : Type} (f : α → Reply) (tx : Tx α) : Tx Reply := fun db =>
  match tx db with
  | .error e => .error e
  | .ok (x, db') => .ok (f x, db')

/-- The transaction of an action. -/
def Action.tx (cfg : Settings) (now : Time) : Action → Tx Reply
  | .submitJob uuid repositoryId mode key priority =>
      replying .job (RepoMesh.submitJob cfg now uuid repositoryId mode key priority)
  | .getJob jobId => replying .ofJob? (RepoMesh.getJob jobId)
  | .resubmitJob uuid jobId => replying .job (RepoMesh.resubmitJob cfg now uuid jobId)
  | .registerWorker session workerId hostname pid version =>
      replying .session (RepoMesh.registerWorker cfg now session workerId hostname pid version)
  | .heartbeatWorker workerId session currentJob =>
      replying (fun _ => .unit) (RepoMesh.heartbeatWorker now workerId session currentJob)
  | .stopWorker workerId session =>
      replying (fun _ => .unit) (RepoMesh.stopWorker now workerId session)
  | .claimJob workerId session locked =>
      replying .ofJob? (RepoMesh.claimJob cfg now workerId session locked)
  | .assertOwnership job => replying .flag (RepoMesh.assertOwnership now job)
  | .renewLease job => replying .flag (RepoMesh.renewLease cfg now job)
  | .updateProgress job stats path error =>
      replying (fun _ => .unit) (RepoMesh.updateProgress now job stats path error)
  | .enterGuard job => replying (fun _ => .unit) (RepoMesh.enterGuard now job)
  | .requestCancel jobId => replying .job (RepoMesh.requestCancel now jobId)
  | .completeJob job withErrors => replying .job (RepoMesh.completeJob now job withErrors)
  | .cancelJob job => replying .job (RepoMesh.cancelJob now job)
  | .failJob job error => replying .job (RepoMesh.failJob now job error)
  | .scheduleRetry job error jitter =>
      replying .job (RepoMesh.scheduleRetry cfg now job error jitter)
  | .importLegacyJobs rows => replying .count (RepoMesh.importLegacyJobs cfg now rows)
  | .ensure repositoryId enabled =>
      replying (fun _ => .unit) (RepoMesh.ensure cfg repositoryId enabled)
  | .setEnabled repositoryId enabled =>
      replying (fun _ => .unit) (RepoMesh.setEnabled now repositoryId enabled)
  | .recordError repositoryId error =>
      replying (fun _ => .unit) (RepoMesh.recordError now repositoryId error)
  | .observe uuid repositoryId fingerprint indexed =>
      replying .ofJob? (RepoMesh.observe cfg now uuid repositoryId fingerprint indexed)
  | .advance _ => fun db => .ok (.unit, db)

/-- How far an action moves the clock. -/
def Action.elapsed : Action → Nat
  | .advance duration => duration
  | _ => 0

namespace Coord

/-- The answer to an action: its reply and the new tables, or an error. -/
def answer (cfg : Settings) (s : Coord) (a : Action) : Except Error (Reply × Db) :=
  a.tx cfg s.now s.db

/-- The state after an action. -/
def next (cfg : Settings) (s : Coord) (a : Action) : Coord :=
  match s.answer cfg a with
  | .error _ => { s with now := s.now + a.elapsed }
  | .ok (reply, db) =>
      { db := db, now := s.now + a.elapsed, handles := reply.jobs ++ s.handles }

theorem next_of_ok {cfg : Settings} {s : Coord} {a : Action} {reply : Reply} {db : Db}
    (h : s.answer cfg a = .ok (reply, db)) : (s.next cfg a).db = db := by
  rw [next, h]

theorem next_of_error {cfg : Settings} {s : Coord} {a : Action} {e : Error}
    (h : s.answer cfg a = .error e) : (s.next cfg a).db = s.db := by
  rw [next, h]

/-- Ownership operations are called with a job the store handed out. -/
def Admissible (s : Coord) (a : Action) : Prop :=
  ∀ job, a.handle? = some job → job ∈ s.handles

instance (s : Coord) (a : Action) : Decidable (s.Admissible a) :=
  decidable_of_iff (a.handle?.all (· ∈ s.handles) = true) (by simp [Admissible, Option.all_eq_true])

/-- The coordination store, from the empty migrated tables at any time. -/
def system (cfg : Settings) : System Coord Action where
  init s := s.db = .empty ∧ s.handles = []
  step s a t := s.Admissible a ∧ t = s.next cfg a

/-- The empty migrated store. -/
def empty (now : Time) : Coord := ⟨.empty, now, []⟩

/-- The state after a list of actions. -/
def exec (cfg : Settings) (s : Coord) (as : List Action) : Coord :=
  as.foldl (next cfg) s

/-- Every action of the list is admissible where it is taken. -/
def Admits (cfg : Settings) : Coord → List Action → Prop
  | _, [] => True
  | s, a :: as => s.Admissible a ∧ Admits cfg (s.next cfg a) as

instance decidableAdmits (cfg : Settings) :
    (s : Coord) → (as : List Action) → Decidable (s.Admits cfg as)
  | _, [] => isTrue trivial
  | s, a :: as =>
      have := decidableAdmits cfg (s.next cfg a) as
      inferInstanceAs (Decidable (s.Admissible a ∧ Admits cfg (s.next cfg a) as))

theorem run_exec {cfg : Settings} {s : Coord} {as : List Action} (h : s.Admits cfg as) :
    (system cfg).Run s as (s.exec cfg as) := by
  induction as generalizing s with
  | nil => exact .nil s
  | cons a as ih => exact .cons ⟨h.1, rfl⟩ (ih h.2)

theorem reachable_exec {cfg : Settings} {now : Time} {as : List Action}
    (h : (empty now).Admits cfg as) : (system cfg).Reachable ((empty now).exec cfg as) :=
  ⟨empty now, as, ⟨rfl, rfl⟩, run_exec h⟩

/-- One job is submitted to an empty store and claimed. -/
def oneClaim : List Action :=
  [.submitJob "job-1" "repo" "full" none 0, .registerWorker "session-1" "worker-1" "host" 1 "1",
    .claimJob "worker-1" "session-1" fun _ => false]

/-- The job that `oneClaim` claims. -/
def oneClaimJob : Job :=
  claimedRow .default 0 "worker-1" (submittedRow .default 0 "job-1" "repo" .full none 0)

end Coord

end RepoMesh
