import Mathlib.Logic.Function.Basic
import RepoMesh.WorkerCounters

/-!
# Worker processes

`Worker.run`, `run_once`, `execute` and `close` as processes over the coordination store:
an idle heartbeat, a claim, an execution with its heartbeat thread and one finishing call.
Any number of processes run, under any worker ids, next to the clients of the API. What a
fleet does to the store is a run of the store (`coord_run`), so the balance of the counters
carries over (`worker_counters_match_iff`).
-/

namespace RepoMesh

/-- The heartbeat thread of an execution: between two iterations, between the two calls of
one, or over. -/
inductive Pulse where
  | waiting
  | renewed
  | ended

/-- Where a worker process is. An execution is leaving once its finishing call is made
or its lease is lost; only the heartbeat thread is left to join then. -/
inductive Phase where
  | starting
  | idle (session : String)
  | polled (session : String)
  | executing (session : String) (job : Job) (pulse : Pulse) (leaving : Bool)
  | closing (session : String)

structure Process where
  workerId : String
  hostname : String
  pid : Int
  version : String
  phase : Phase

namespace Process

/-- What a process does next. -/
inductive Move where
  | register (session : String)
  | heartbeat
  | claim (locked : Job → Bool)
  | unavailable
  | renew
  | pulse
  | lapse
  | check
  | progress (stats : IndexStats) (path error : Option String)
  | guard
  | complete (withErrors : Bool)
  | cancel
  | fail (error : String) (jitter : Time)
  | lose
  | join
  | quit
  | stop
  | crash

/-- A turn of a process: a transaction, or none, and what becomes of the process. -/
inductive Turn where
  | pass (after : Option Process)
  | call (action : Action) (after : Except Error Reply → Option Process)

def enter (p : Process) (phase : Phase) : Process :=
  { p with phase := phase }

/-- The process after a call: in one phase if it returns, in another if it raises. -/
def answered (p : Process) (returned raised : Phase) : Except Error Reply → Option Process
  | .ok _ => some (p.enter returned)
  | .error _ => some (p.enter raised)

/-- `register`: an identity in use ends the process. -/
def registered (p : Process) (session : String) : Except Error Reply → Option Process
  | .ok _ => some (p.enter (.idle session))
  | .error _ => none

/-- `run_once` after its claim. -/
def claimed (p : Process) (session : String) : Except Error Reply → Option Process
  | .ok (.job job) => some (p.enter (.executing session job .waiting false))
  | .ok _ => some (p.enter (.idle session))
  | .error _ => some (p.enter (.closing session))

/-- The phases of a process and the moves it has there. -/
def turn (p : Process) (m : Move) : Option Turn :=
  match m, p.phase with
  | .register session, .starting =>
      some (.call (.registerWorker session p.workerId p.hostname p.pid p.version)
        (p.registered session))
  | .heartbeat, .idle session =>
      some (.call (.heartbeatWorker p.workerId session none)
        (p.answered (.polled session) (.closing session)))
  | .claim locked, .polled session =>
      some (.call (.claimJob p.workerId session locked) (p.claimed session))
  -- PostgreSQL cannot be reached: `run` waits and polls again
  | .unavailable, .polled session => some (.pass (p.enter (.idle session)))
  | .renew, .executing session job .waiting leaving =>
      some (.call (.renewLease job)
        (p.answered (.executing session job .renewed leaving) (.executing session job .ended leaving)))
  | .pulse, .executing session job .renewed leaving =>
      some (.call (.heartbeatWorker p.workerId session (some job.id))
        (p.answered (.executing session job .waiting leaving) (.executing session job .ended leaving)))
  | .lapse, .executing session job _ leaving =>
      some (.pass (p.enter (.executing session job .ended leaving)))
  | .check, .executing session job pulse false =>
      some (.call (.assertOwnership job)
        (p.answered (.executing session job pulse false) (.executing session job pulse true)))
  | .progress stats path error, .executing session job pulse false =>
      some (.call (.updateProgress job stats path error)
        (p.answered (.executing session job pulse false) (.executing session job pulse true)))
  | .guard, .executing session job pulse false =>
      some (.call (.enterGuard job)
        (p.answered (.executing session job pulse false) (.executing session job pulse true)))
  | .complete withErrors, .executing session job pulse false =>
      some (.call (.completeJob job withErrors)
        (p.answered (.executing session job pulse true) (.executing session job pulse true)))
  | .cancel, .executing session job pulse false =>
      some (.call (.cancelJob job)
        (p.answered (.executing session job pulse true) (.executing session job pulse true)))
  | .fail error jitter, .executing session job pulse false =>
      some (.call (.scheduleRetry job error jitter)
        (p.answered (.executing session job pulse true) (.executing session job pulse true)))
  -- `LeaseLost` without a call: the thread has seen it, or PostgreSQL cannot be reached
  | .lose, .executing session job pulse false =>
      some (.pass (p.enter (.executing session job pulse true)))
  -- the thread ends only between two iterations
  | .join, .executing _ _ .renewed true => none
  | .join, .executing session _ _ true => some (.pass (p.enter (.idle session)))
  | .quit, .idle session => some (.pass (p.enter (.closing session)))
  | .stop, .closing session =>
      some (.call (.stopWorker p.workerId session) fun _ => none)
  | .crash, _ => some (.pass none)
  | _, _ => none

/-- The job a process executes. -/
def job? (p : Process) : Option Job :=
  match p.phase with
  | .executing _ job _ _ => some job
  | _ => none

end Process

/-- The store and the worker processes, by number. -/
structure Fleet where
  coord : Coord
  processes : ℕ → Option Process

/-- A transaction of the API or of the watcher, or the clock: no worker operation. -/
def Action.client (a : Action) : Bool :=
  a.handle?.isNone && !a.writesRegistry

namespace Fleet

inductive Move where
  | start (i : ℕ) (workerId hostname : String) (pid : Int) (version : String)
  | process (i : ℕ) (m : Process.Move)
  | client (a : Action)

def setProcess (f : Fleet) (i : ℕ) (p : Option Process) : Fleet :=
  { f with processes := Function.update f.processes i p }

/-- The turn that a process takes. -/
def turn (f : Fleet) (i : ℕ) (m : Process.Move) : Option Process.Turn :=
  (f.processes i).bind (·.turn m)

/-- The fleet after a transaction. -/
def transact (cfg : Settings) (f : Fleet) (a : Action) : Fleet :=
  { f with coord := f.coord.next cfg a }

/-- The fleet after a move, if it is possible. -/
def next (cfg : Settings) (f : Fleet) : Move → Option Fleet
  | .start i workerId hostname pid version =>
      if (f.processes i).isNone then
        some (f.setProcess i (some ⟨workerId, hostname, pid, version, .starting⟩))
      else none
  | .process i m =>
      match f.turn i m with
      | none => none
      | some (.pass p) => some (f.setProcess i p)
      | some (.call a after) =>
          some ((f.transact cfg a).setProcess i (after ((f.coord.answer cfg a).map Prod.fst)))
  | .client a => if a.client then some (f.transact cfg a) else none

/-- The transaction of a move. -/
def action? (f : Fleet) : Move → Option Action
  | .start _ _ _ _ _ => none
  | .process i m =>
      match f.turn i m with
      | some (.call a _) => some a
      | _ => none
  | .client a => some a

/-- The transactions of a run. -/
def actions (cfg : Settings) : Fleet → List Move → List Action
  | _, [] => []
  | f, m :: ms =>
      (f.action? m).toList ++
        match f.next cfg m with
        | none => []
        | some f' => actions cfg f' ms

/-- A fleet starts with an empty store and no process. -/
def system (cfg : Settings) : System Fleet Move where
  init f := (Coord.system cfg).init f.coord ∧ ∀ i, f.processes i = none
  step f m f' := f.next cfg m = some f'

end Fleet

/-! ## The store under a fleet -/

section

variable {cfg : Settings} {s : Coord} {a : Action} {p : Process} {m : Process.Move}

theorem Coord.mem_handles_next {job : Job} (h : job ∈ s.handles) : job ∈ (s.next cfg a).handles := by
  unfold Coord.next
  split
  · exact h
  · exact List.mem_append_right _ h

theorem Coord.mem_handles_of_answer {job : Job}
    (h : (s.answer cfg a).map Prod.fst = .ok (.job job)) : job ∈ (s.next cfg a).handles := by
  unfold Coord.next
  cases hans : s.answer cfg a with
  | error e => rw [hans] at h; cases h
  | ok result =>
      rw [hans] at h
      obtain ⟨reply, db⟩ := result
      obtain rfl : reply = .job job := Except.ok.inj h
      simp [Reply.jobs]

namespace Process

variable {p' : Process} {job : Job}

/-- A process names the job it executes. -/
theorem turn_handle {after : Except Error Reply → Option Process}
    (h : p.turn m = some (.call a after)) (hjob : a.handle? = some job) : p.job? = some job := by
  unfold turn at h
  split at h <;> rename_i hphase <;> cases h <;>
    first
    | (rw [job?, hphase]; exact hjob)
    | cases hjob

/-- Without a call a process executes no other job. -/
theorem pass_job (h : p.turn m = some (.pass (some p'))) (hjob : p'.job? = some job) :
    p.job? = some job := by
  unfold turn at h
  split at h <;> rename_i hphase <;> cases h <;>
    first
    | (rw [job?, hphase]; exact hjob)
    | cases hjob

theorem answered_job {returned raised : Phase} {r : Except Error Reply}
    (h : p.answered returned raised r = some p') :
    p' = p.enter returned ∨ p' = p.enter raised := by
  cases r with
  | ok reply => exact Or.inl (Option.some.inj h).symm
  | error e => exact Or.inr (Option.some.inj h).symm

theorem registered_job {session : String} {r : Except Error Reply}
    (h : p.registered session r = some p') : p'.job? = none := by
  cases r with
  | ok reply =>
      obtain rfl := Option.some.inj h
      rfl
  | error e => cases h

/-- A claim is the only call that gives a process a job. -/
theorem claimed_job {session : String} {r : Except Error Reply}
    (h : p.claimed session r = some p') (hjob : p'.job? = some job) : r = .ok (.job job) := by
  cases r with
  | error e =>
      obtain rfl := Option.some.inj h
      cases hjob
  | ok reply =>
      cases reply with
      | job j =>
          obtain rfl := Option.some.inj h
          obtain rfl := Option.some.inj hjob
          rfl
      | _ =>
          obtain rfl := Option.some.inj h
          cases hjob

/-- After a call a process executes the job it executed, or the one it was given. -/
theorem call_job {after : Except Error Reply → Option Process} {r : Except Error Reply}
    (h : p.turn m = some (.call a after)) (hafter : after r = some p')
    (hjob : p'.job? = some job) : p.job? = some job ∨ r = .ok (.job job) := by
  have hanswered : ∀ {returned raised : Phase}, p.answered returned raised r = some p' →
      ((p.enter returned).job? = some job → p.job? = some job) →
      ((p.enter raised).job? = some job → p.job? = some job) → p.job? = some job := by
    intro returned raised h hreturned hraised
    rcases answered_job h with rfl | rfl
    · exact hreturned hjob
    · exact hraised hjob
  unfold turn at h
  split at h <;> rename_i hphase <;> cases h
  all_goals
    first
    | exact Or.inr (claimed_job hafter hjob)
    | cases hafter
    | (rw [registered_job hafter] at hjob; cases hjob)
    | (refine Or.inl (hanswered hafter ?_ ?_) <;> intro hin <;>
        first
        | (cases hin; done)
        | (rw [job?, hphase]; exact hin))

end Process

namespace Fleet

variable {f f' : Fleet}

/-- Processes execute jobs that the store handed out. -/
def Holds (f : Fleet) : Prop :=
  ∀ i p job, f.processes i = some p → p.job? = some job → job ∈ f.coord.handles

theorem Holds.setProcess (h : f.Holds) {i : ℕ} {q : Option Process}
    (hq : ∀ p job, q = some p → p.job? = some job → job ∈ f.coord.handles) :
    (f.setProcess i q).Holds := by
  intro k p job hp hjob
  simp only [Fleet.setProcess, Function.update_apply] at hp
  split at hp
  · exact hq p job hp hjob
  · exact h k p job hp hjob

theorem Holds.transact (h : f.Holds) : (f.transact cfg a).Holds := by
  intro i p job hp hjob
  exact Coord.mem_handles_next (h i p job hp hjob)

/-- A move is at most one transaction, made by someone who holds its handle. -/
theorem next_step (h : f.Holds) {m : Move} (hnext : f.next cfg m = some f') :
    f'.Holds ∧ (∀ a, f.action? m = some a → f.coord.Admissible a) ∧
      f'.coord = ((f.action? m).toList.foldl (Coord.next cfg) f.coord) := by
  cases m with
  | start i workerId hostname pid version =>
      rw [next] at hnext
      split at hnext
      · obtain rfl := Option.some.inj hnext
        refine ⟨h.setProcess fun p job hp hjob => ?_, by simp [action?], rfl⟩
        obtain rfl := Option.some.inj hp
        cases hjob
      · cases hnext
  | client a =>
      rw [next] at hnext
      split at hnext
      · rename_i hclient
        obtain rfl := Option.some.inj hnext
        refine ⟨h.transact, ?_, rfl⟩
        intro b hb job hjob
        obtain rfl := Option.some.inj hb
        rw [Action.client, hjob] at hclient
        cases hclient
      · cases hnext
  | process i m =>
      rw [next] at hnext
      rw [action?]
      split at hnext
      · cases hnext
      · rename_i q hturn
        obtain rfl := Option.some.inj hnext
        obtain ⟨p, hp, hq⟩ := Option.bind_eq_some_iff.mp hturn
        rw [hturn]
        refine ⟨h.setProcess fun p' job hp' hjob => ?_, by simp, rfl⟩
        rw [hp'] at hq
        exact h i p job hp (Process.pass_job hq hjob)
      · rename_i a after hturn
        obtain rfl := Option.some.inj hnext
        obtain ⟨p, hp, hcall⟩ := Option.bind_eq_some_iff.mp hturn
        rw [hturn]
        refine ⟨h.transact.setProcess fun p' job hp' hjob => ?_, ?_, rfl⟩
        · rcases Process.call_job hcall hp' hjob with hold | hnew
          · exact Coord.mem_handles_next (h i p job hp hold)
          · exact Coord.mem_handles_of_answer hnew
        · intro b hb job hjob
          obtain rfl := Option.some.inj hb
          exact h i p job hp (Process.turn_handle hcall hjob)

/-- What a fleet does to the store is a run of the store. -/
theorem coord_run (h : f.Holds) {ms : List Move} (hrun : (system cfg).Run f ms f') :
    (Coord.system cfg).Run f.coord (actions cfg f ms) f'.coord := by
  induction hrun with
  | nil f => exact .nil f.coord
  | @cons f g f' m ms hstep _ ih =>
      obtain ⟨hholds, hadm, hcoord⟩ := next_step h hstep
      have hrest := ih hholds
      have hnext : f.next cfg m = some g := hstep
      simp only [actions, hnext]
      cases ha : f.action? m with
      | none =>
          rw [ha] at hcoord
          rw [hcoord] at hrest
          exact hrest
      | some a =>
          rw [ha] at hcoord
          rw [hcoord] at hrest
          exact .cons ⟨hadm a ha, rfl⟩ hrest

/-- The counters of the registry agree with the attempts after a run of a fleet exactly when
every settlement of the run that a counter counts found the registry row of its worker naming
the job. -/
theorem worker_counters_match_iff {f₀ : Fleet} (h₀ : (system cfg).init f₀) {ms : List Move}
    (hrun : (system cfg).Run f₀ ms f) :
    CountersMatch f.coord.db ↔ Coord.RunNames cfg f₀.coord (actions cfg f₀ ms) := by
  have hholds : f₀.Holds := by
    intro i p job hp
    rw [h₀.2 i] at hp
    cases hp
  exact Coord.countersMatch_iff h₀.1 (coord_run hholds hrun)

/-- The fleet after a list of moves, if each of them is possible. -/
def exec (cfg : Settings) : Fleet → List Move → Option Fleet :=
  System.exec (next cfg)

theorem run_exec {ms : List Move} (h : f.exec cfg ms = some f') : (system cfg).Run f ms f' :=
  System.run_exec (fun hnext => hnext) h

/-- An empty store without processes. -/
def empty (now : Time) : Fleet := ⟨.empty now, fun _ => none⟩

/-- A worker polls and claims. -/
def round : List Move :=
  [.process 0 .heartbeat, .process 0 (.claim fun _ => false)]

/-- A job is submitted and claimed by the worker of `oneClaim`. -/
def firstRound : List Move :=
  [.client (.submitJob "job-1" "repo" "full" none 0), .start 0 "worker-1" "host" 1 "1",
    .process 0 (.register "session-1")] ++ round

/-- The lease runs out before the worker gets through to the store, and it polls again. -/
def lostRound : List Move :=
  [.client (.advance 30000000), .process 0 .check, .process 0 .join] ++ round

/-- Three attempts lose their lease, and the worker's next claim finalises the job. -/
def lostJob : List Move :=
  firstRound ++ lostRound ++ lostRound ++ lostRound

/-- The job of the first round, completed under its first attempt. -/
theorem worker_counters_match_iff_completed :
    ((empty 0).exec .default (firstRound ++ [.process 0 (.complete false)])).map
        (fun f => (Counter.completed.attempts f.coord.db.toLedger "worker-1",
          Counter.completed.registry f.coord.db "worker-1")) = some (1, 1) ∧
      ∃ f, (system .default).Run (empty 0) (firstRound ++ [.process 0 (.complete false)]) f ∧
        (CountersMatch f.coord.db ↔ Coord.RunNames .default (.empty 0)
          (actions .default (empty 0) (firstRound ++ [.process 0 (.complete false)]))) := by
  have hcounts : ((empty 0).exec .default (firstRound ++ [.process 0 (.complete false)])).map
      (fun f => (Counter.completed.attempts f.coord.db.toLedger "worker-1",
        Counter.completed.registry f.coord.db "worker-1")) = some (1, 1) := by decide +kernel
  obtain ⟨f, hf, -⟩ := Option.map_eq_some_iff.mp hcounts
  have hinit : (system .default).init (empty 0) := ⟨⟨rfl, rfl⟩, fun _ => rfl⟩
  exact ⟨hcounts, f, run_exec hf, worker_counters_match_iff hinit (run_exec hf)⟩

/-- The worker of a job that lost three leases has a failed attempt and counts none. -/
theorem worker_counters_miss_lost_job :
    ((empty 0).exec .default lostJob).map
        (fun f => (Counter.failed.attempts f.coord.db.toLedger "worker-1",
          Counter.failed.registry f.coord.db "worker-1")) = some (1, 0) ∧
      ¬ ∀ f, (system .default).Reachable f → CountersMatch f.coord.db := by
  have hcounts : ((empty 0).exec .default lostJob).map
      (fun f => (Counter.failed.attempts f.coord.db.toLedger "worker-1",
        Counter.failed.registry f.coord.db "worker-1")) = some (1, 0) := by decide +kernel
  refine ⟨hcounts, fun hmatch => ?_⟩
  obtain ⟨f, hf, hpair⟩ := Option.map_eq_some_iff.mp hcounts
  have hreach : (system .default).Reachable f :=
    ⟨empty 0, lostJob, ⟨⟨rfl, rfl⟩, fun _ => rfl⟩, run_exec hf⟩
  have heq := hmatch f hreach .failed "worker-1"
  obtain ⟨hattempts, hregistry⟩ := Prod.mk.inj hpair
  omega

end Fleet

end

end RepoMesh
