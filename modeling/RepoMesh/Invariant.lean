import RepoMesh.Claim

/-!
# The invariant of the coordination store

`Coord.Ok` holds in every reachable state: the ledger is well formed, and every
job a caller was handed is a snapshot of a row that still exists. It rests on
two facts about one answer. `answer_serves`: a transaction that commits is a
`Commit`. `answer_input`: a constraint that aborts one is about the caller's
input, never about the state the store itself built.
-/

namespace RepoMesh

/-- The constraints an input can break: an id that is not fresh, a legacy row
outside the column checks, a repository that was never registered. -/
def Constraint.input : Constraint → Bool
  | .jobsPkey | .jobsKind | .jobsMode | .jobsAttempt | .jobsRepositoryId => true
  | _ => false

/-- The error is none of the store's own making. -/
def Error.Input (e : Error) : Prop :=
  ∀ c, e = .integrityError c → c.input = true

/-- What an action may add to the ledger. -/
def Action.rights : Action → Rights
  | .submitJob _ _ _ _ _ | .resubmitJob _ _ | .observe _ _ _ _ => .insert Job.Untried
  | .importLegacyJobs rows => .insert (ImportedFrom rows)
  | .claimJob workerId _ _ => .claim workerId
  | _ => .none

namespace Coord

structure Ok (s : Coord) : Prop where
  ledger : s.db.toLedger.Ok
  handles : ∀ job ∈ s.handles, ∃ row, s.db.jobs.get? job.id = some row ∧ job.Follows row

end Coord

section

variable {R : Rights} {cfg : Settings} {now : Time} {db : Db} {job row : Job}

/-! ## Replies -/

theorem replying_ok {α : Type} {f : α → Reply} {tx : Tx α} {reply : Reply} {db' : Db}
    (h : replying f tx db = .ok (reply, db')) : ∃ x, tx db = .ok (x, db') ∧ reply = f x := by
  unfold replying at h
  split at h
  · cases h
  · rename_i x m heq
    obtain ⟨rfl, rfl⟩ := Prod.mk.inj (Except.ok.inj h)
    exact ⟨x, heq, rfl⟩

theorem replying_error {α : Type} {f : α → Reply} {tx : Tx α} {e : Error} :
    replying f tx db = .error e ↔ tx db = .error e := by
  unfold replying
  split
  · rename_i heq
    rw [heq]
    simp
  · rename_i heq
    rw [heq]
    simp

theorem replying_of_ok {α : Type} (f : α → Reply) {tx : Tx α} {x : α} {db' : Db}
    (h : tx db = .ok (x, db')) : replying f tx db = .ok (f x, db') := by
  unfold replying
  rw [h]

/-! ## The owner's operations, entry of the guard included -/

theorem assertOwnership_lost (h : ownedRow now db.toLedger job = none) :
    assertOwnership now job db =
      .error (.leaseLost s!"lease lost: {job.id} generation {job.leaseGeneration}") := by
  unfold assertOwnership
  rw [h]

theorem assertOwnership_eq (h : ownedRow now db.toLedger job = some row) :
    assertOwnership now job db = .ok (row.cancelRequested, db) := by
  unfold assertOwnership
  rw [h]

theorem enterGuard_lost (h : ownedRow now db.toLedger job = none) :
    ∃ message, enterGuard now job db = .error (.leaseLost message) := by
  unfold enterGuard
  split
  · exact ⟨_, rfl⟩
  · split
    · exact ⟨_, rfl⟩
    · rw [assertOwnership_lost h]
      exact ⟨_, rfl⟩

/-- The reservation check of the guard adds nothing to ownership: the owner's
job is the active one. -/
theorem enterGuard_eq (hok : db.toLedger.Ok) (hfollows : job.Follows row)
    (h : ownedRow now db.toLedger job = some row) : enterGuard now job db = .ok ((), db) := by
  have hexec := hok.running (ownedRow_get? h) (ownedRow_live h).1
  rw [hfollows.repositoryId_eq, ownedRow_id h] at hexec
  unfold enterGuard
  rw [hexec]
  simp [assertOwnership_eq h]

/-- Without ownership every operation of an owner raises `LeaseLost`. -/
theorem tx_lost {a : Action} (ha : a.handle? = some job)
    (h : ownedRow now db.toLedger job = none) :
    ∃ message, a.tx cfg now db = .error (.leaseLost message) := by
  cases a with
  | assertOwnership _ =>
      obtain rfl := Option.some.inj ha
      exact ⟨_, replying_error.mpr (assertOwnership_lost h)⟩
  | renewLease _ =>
      obtain rfl := Option.some.inj ha
      exact ⟨_, replying_error.mpr (renewLease_lost h)⟩
  | updateProgress _ _ _ _ =>
      obtain rfl := Option.some.inj ha
      exact ⟨_, replying_error.mpr (updateProgress_lost h)⟩
  | enterGuard _ =>
      obtain rfl := Option.some.inj ha
      obtain ⟨message, heq⟩ := enterGuard_lost h
      exact ⟨message, replying_error.mpr heq⟩
  | completeJob _ _ =>
      obtain rfl := Option.some.inj ha
      exact ⟨_, replying_error.mpr (finish_lost h)⟩
  | cancelJob _ =>
      obtain rfl := Option.some.inj ha
      exact ⟨_, replying_error.mpr (finish_lost h)⟩
  | failJob _ _ =>
      obtain rfl := Option.some.inj ha
      exact ⟨_, replying_error.mpr (finish_lost h)⟩
  | scheduleRetry old error _ =>
      obtain rfl := Option.some.inj ha
      refine ⟨s!"terminal update rejected: {old.id}", replying_error.mpr ?_⟩
      unfold scheduleRetry
      split
      · exact finish_lost h
      · exact finish_lost h
  | _ => cases ha

/-- The handle's attempt is the row's, since the generations agree. -/
theorem Job.Follows.attempt_lt {l : Ledger} (hfollows : job.Follows row)
    (h : ownedRow now l job = some row) (hbudget : ¬ job.maxAttempts ≤ job.attempt) :
    row.attempt < row.maxAttempts := by
  have hgen := ownedRow_generation h
  have hmax := hfollows.maxAttempts_eq
  rcases hfollows.generation with hlt | ⟨-, heq⟩
  · omega
  · omega

/-- An operation of the owner commits. -/
theorem tx_owned (hok : db.toLedger.Ok) (hfollows : job.Follows row) {a : Action}
    (ha : a.handle? = some job) (h : ownedRow now db.toLedger job = some row) :
    ∃ reply db', a.tx cfg now db = .ok (reply, db') ∧ Serves R cfg now db reply.jobs db' := by
  have hget : db.jobs.get? job.id = some row := (ownedRow_eq_some.mp h).1
  have hfinish : ∀ status error delay, Finishing row status →
      ∃ job' db', finish now job status error delay db = .ok (job', db') ∧
        Serves R cfg now db [job'] db' := fun status error delay hs =>
    have heq := finish_eq hok hfollows h hs error delay
    ⟨_, _, heq, finish_serves hok hfollows hget hs heq⟩
  cases a with
  | assertOwnership _ =>
      obtain rfl := Option.some.inj ha
      exact ⟨_, _, replying_of_ok _ (assertOwnership_eq h), .of_ledger rfl⟩
  | renewLease _ =>
      obtain rfl := Option.some.inj ha
      exact ⟨_, _, replying_of_ok _ (renewLease_eq hok h), renewLease_serves h⟩
  | updateProgress _ stats path error =>
      obtain rfl := Option.some.inj ha
      obtain ⟨fileErrors, heq⟩ := updateProgress_eq hok h stats path error
      exact ⟨_, _, replying_of_ok _ heq,
        .effect (.progress stats (ownedRow_get? h) (ownedRow_live h)), by simp [Reply.jobs]⟩
  | enterGuard _ =>
      obtain rfl := Option.some.inj ha
      exact ⟨_, _, replying_of_ok _ (enterGuard_eq hok hfollows h), .of_ledger rfl⟩
  | completeJob _ withErrors =>
      obtain rfl := Option.some.inj ha
      obtain ⟨job', db', heq, hserves⟩ := hfinish
        (if withErrors then .completedWithErrors else .completed) none 0
        (Or.inl (by cases withErrors <;> rfl))
      exact ⟨_, _, replying_of_ok _ heq, hserves⟩
  | cancelJob _ =>
      obtain rfl := Option.some.inj ha
      obtain ⟨job', db', heq, hserves⟩ := hfinish .cancelled none 0 (Or.inl rfl)
      exact ⟨_, _, replying_of_ok _ heq, hserves⟩
  | failJob _ error =>
      obtain rfl := Option.some.inj ha
      obtain ⟨job', db', heq, hserves⟩ := hfinish .failed (some (clip error)) 0 (Or.inl rfl)
      exact ⟨_, _, replying_of_ok _ heq, hserves⟩
  | scheduleRetry job' error jitter =>
      obtain rfl := Option.some.inj ha
      by_cases hbudget : job'.maxAttempts ≤ job'.attempt
      · obtain ⟨j, db', heq, hserves⟩ := hfinish .failed (some (clip error)) 0 (Or.inl rfl)
        refine ⟨_, _, replying_of_ok _ (x := j) ?_, hserves⟩
        unfold scheduleRetry
        rw [if_pos hbudget]
        exact heq
      · have hattempt := hfollows.attempt_lt h hbudget
        obtain ⟨j, db', heq, hserves⟩ := hfinish .retrying (some (clip error))
          (retryDelay cfg job'.attempt jitter) (Or.inr ⟨rfl, hattempt⟩)
        refine ⟨_, _, replying_of_ok _ (x := j) ?_, hserves⟩
        unfold scheduleRetry
        rw [if_neg hbudget]
        exact heq
  | _ => cases ha

/-! ## Everyone else's operations -/

theorem Error.Input.of_ne {e : Error} (h : ∀ c, e ≠ .integrityError c) : e.Input :=
  fun c hc => absurd hc (h c)

theorem Error.Input.of_constraint {c : Constraint} (h : c.input = true) :
    (Error.integrityError c).Input := by
  intro c' hc'
  rw [← Error.integrityError.inj hc']
  exact h

/-- An insertion of a fresh row that names no other row than its arbiter looks
for fails only for want of a fresh id or of a repository row. -/
theorem insertJob_input {l : Ledger} {arbiter : Constraint → Bool} {e : Error}
    (hfresh : row.Fresh)
    (hkey : row.idempotencyKey.isSome = true → arbiter .jobsIdempotencyKey = true)
    (hparent : row.parentJobId.isSome = true → arbiter .jobsParentJobId = true)
    (h : l.insertJob row arbiter = .error e) : e.Input := by
  rcases insertJob_error hfresh h with ⟨c, hc, harb, rfl⟩ | rfl
  · rcases mem_conflicts hc with rfl | ⟨rfl, hk⟩ | ⟨rfl, hp⟩ | ⟨rfl, hrun⟩
    · exact .of_constraint rfl
    · rw [hkey hk] at harb
      cases harb
    · rw [hparent hp] at harb
      cases harb
    · exact absurd hrun hfresh.not_running
  · exact .of_constraint rfl

theorem submitJob_input {uuid repositoryId mode : String} {key : Option String}
    {priority : Int} {e : Error}
    (h : submitJob cfg now uuid repositoryId mode key priority db = .error e) : e.Input := by
  unfold submitJob at h
  split at h
  · exact .of_ne fun c hc => by rw [hc] at h; cases h
  split at h
  · exact .of_ne fun c hc => by rw [hc] at h; cases h
  simp only at h
  split at h
  · rename_i hins
    obtain rfl := Except.error.inj h
    refine insertJob_input (submittedRow_fresh _ _ _ _ _) (fun _ => rfl) (fun hp => ?_) hins
    cases hp
  · cases h
  · split at h
    · exact .of_ne fun c hc => by rw [hc] at h; cases h
    · split at h
      · exact .of_ne fun c hc => by rw [hc] at h; cases h
      · cases h

theorem resubmitJob_input {uuid jobId : String} {e : Error}
    (h : resubmitJob cfg now uuid jobId db = .error e) : e.Input := by
  unfold resubmitJob at h
  split at h
  · exact .of_ne fun c hc => by rw [hc] at h; cases h
  split at h
  · exact .of_ne fun c hc => by rw [hc] at h; cases h
  simp only at h
  split at h
  · rename_i hins
    obtain rfl := Except.error.inj h
    refine insertJob_input (successorRow_fresh _ _) (fun hk => ?_) (fun _ => rfl) hins
    cases hk
  · cases h
  · split at h
    · exact .of_ne fun c hc => by rw [hc] at h; cases h
    · cases h

theorem observe_input {uuid repositoryId fingerprint : String} {indexed : Option String}
    {e : Error} (h : observe cfg now uuid repositoryId fingerprint indexed db = .error e) :
    e.Input := by
  unfold observe at h
  split at h
  · cases h
  split at h
  · cases h
  simp only at h
  split at h
  · cases h
  split at h
  · rename_i hins
    obtain rfl := Except.error.inj h
    refine insertJob_input (watchJobRow_fresh _ _) (fun hk => ?_) (fun hp => ?_) hins
    · cases hk
    · cases hp
  · exact .of_ne fun c hc => by rw [hc] at h; cases h
  · cases h

theorem importRow_input {old : LegacyRow} {l : Ledger} {e : Error}
    (h : importRow cfg now old l = .error e) : e.Input := by
  unfold importRow at h
  simp only at h
  split at h
  · obtain rfl := Except.error.inj h
    exact .of_constraint rfl
  split at h
  · obtain rfl := Except.error.inj h
    exact .of_constraint rfl
  rename_i mode _
  split at h
  · obtain rfl := Except.error.inj h
    exact .of_constraint rfl
  split at h
  · rename_i hins
    obtain rfl := Except.error.inj h
    have hfresh : (old.toJob cfg now mode).Fresh := toJob_fresh old mode
    exact insertJob_input hfresh (fun _ => rfl) (fun _ => rfl) hins
  · cases h
  · cases h

theorem importRows_input {rows : List LegacyRow} {n : Nat} {l : Ledger} {e : Error}
    (h : importRows cfg now rows n l = .error e) : e.Input := by
  induction rows generalizing n l with
  | nil => cases h
  | cons old rows ih =>
      rw [importRows] at h
      split at h
      · rename_i hrow
        obtain rfl := Except.error.inj h
        exact importRow_input hrow
      · exact ih h

theorem importLegacyJobs_serves {rows : List LegacyRow} {P : Job → Prop} {n : Nat} {db' : Db}
    (hnew : ∀ old ∈ rows, ∀ mode, 0 ≤ old.importAttempt → P (old.toJob cfg now mode))
    (h : importLegacyJobs cfg now rows db = .ok (n, db')) :
    Serves (.insert P) cfg now db [] db' := by
  unfold importLegacyJobs at h
  split at h
  · cases h
  · rename_i heq
    obtain ⟨rfl, rfl⟩ := Prod.mk.inj (Except.ok.inj h)
    exact ⟨.preludes (importRows_preludes hnew heq), by simp⟩

theorem importLegacyJobs_input {rows : List LegacyRow} {e : Error}
    (h : importLegacyJobs cfg now rows db = .error e) : e.Input := by
  unfold importLegacyJobs at h
  split at h
  · rename_i heq
    obtain rfl := Except.error.inj h
    exact importRows_input heq
  · cases h

theorem ensure_serves {repositoryId : String} {enabled : Option Bool} {db' : Db}
    (h : ensure cfg repositoryId enabled db = .ok ((), db')) : Serves R cfg now db [] db' := by
  obtain ⟨-, rfl⟩ := Prod.mk.inj (Except.ok.inj h)
  exact ⟨.preludes (.single (.reserve _ _)), by simp⟩

theorem getJob_serves {jobId : String} {job : Option Job} {db' : Db}
    (h : getJob jobId db = .ok (job, db')) :
    Serves R cfg now db (Reply.ofJob? job).jobs db' := by
  obtain ⟨rfl, rfl⟩ := Prod.mk.inj (Except.ok.inj h)
  refine ⟨.refl _, ?_⟩
  cases hget : db.jobs.get? jobId with
  | none => simp [Reply.ofJob?, Reply.jobs]
  | some row =>
      obtain rfl := Table.key_of_get? hget
      simpa [Reply.ofJob?, Reply.jobs] using hget

theorem registerWorker_ledger {session workerId hostname version : String} {pid : Int}
    {x : String} {db' : Db}
    (h : registerWorker cfg now session workerId hostname pid version db = .ok (x, db')) :
    db'.toLedger = db.toLedger := by
  unfold registerWorker at h
  split at h
  · obtain ⟨-, rfl⟩ := Prod.mk.inj (Except.ok.inj h)
    rfl
  · split at h
    · obtain ⟨-, rfl⟩ := Prod.mk.inj (Except.ok.inj h)
      rfl
    · cases h

theorem registerWorker_input {session workerId hostname version : String} {pid : Int}
    {e : Error} (h : registerWorker cfg now session workerId hostname pid version db = .error e) :
    e.Input := by
  unfold registerWorker at h
  split at h
  · cases h
  · split at h
    · cases h
    · exact .of_ne fun c hc => by rw [hc] at h; cases h

theorem heartbeatWorker_ledger {workerId session : String} {currentJob : Option String}
    {db' : Db} (h : heartbeatWorker now workerId session currentJob db = .ok ((), db')) :
    db'.toLedger = db.toLedger := by
  unfold heartbeatWorker at h
  split at h
  · obtain ⟨-, rfl⟩ := Prod.mk.inj (Except.ok.inj h)
    rfl
  · cases h

theorem heartbeatWorker_input {workerId session : String} {currentJob : Option String}
    {e : Error} (h : heartbeatWorker now workerId session currentJob db = .error e) :
    e.Input := by
  unfold heartbeatWorker at h
  split at h
  · cases h
  · exact .of_ne fun c hc => by rw [hc] at h; cases h

theorem claimJob_input {workerId session : String} {locked : Job → Bool} {e : Error}
    (hok : db.toLedger.Ok) (h : claimJob cfg now workerId session locked db = .error e) :
    e.Input := by
  unfold claimJob at h
  split at h
  · rw [claimLoop_error hok h]
    exact .of_ne fun c hc => by cases hc
  · exact .of_ne fun c hc => by rw [hc] at h; cases h

theorem requestCancel_input {jobId : String} {e : Error} (hok : db.toLedger.Ok)
    (h : requestCancel now jobId db = .error e) : e.Input := by
  cases hrow : db.jobs.get? jobId with
  | none =>
      simp only [requestCancel, hrow] at h
      exact .of_ne fun c hc => by rw [hc] at h; cases h
  | some row =>
      cases hterm : row.status.terminal
      · rw [requestCancel_eq hok hrow hterm] at h
        cases h
      · simp only [requestCancel, hrow, hterm, if_true] at h
        cases h

end

/-! ## One answer, one step, every reachable state -/

namespace Coord

variable {cfg : Settings} {s t : Coord} {a : Action}

theorem Ok.owner (h : s.Ok) (hadm : s.Admissible a) {job : Job} (ha : a.handle? = some job) :
    (ownedRow s.now s.db.toLedger job = none ∧
        ∃ message, s.answer cfg a = .error (.leaseLost message)) ∨
      ∃ row reply db', ownedRow s.now s.db.toLedger job = some row ∧
        s.answer cfg a = .ok (reply, db') ∧
        Serves a.rights cfg s.now s.db reply.jobs db' := by
  obtain ⟨row, hrow, hfollows⟩ := h.handles job (hadm job ha)
  cases howned : ownedRow s.now s.db.toLedger job with
  | none => exact Or.inl ⟨rfl, tx_lost ha howned⟩
  | some r =>
      obtain rfl : row = r := Option.some.inj (hrow.symm.trans (ownedRow_eq_some.mp howned).1)
      obtain ⟨reply, db', heq, hserves⟩ := tx_owned h.ledger hfollows ha howned
      exact Or.inr ⟨row, reply, db', rfl, heq, hserves⟩

theorem answer_serves (h : s.Ok) (hadm : s.Admissible a) {reply : Reply} {db' : Db}
    (hans : s.answer cfg a = .ok (reply, db')) :
    Serves a.rights cfg s.now s.db reply.jobs db' := by
  cases ha : a.handle? with
  | some job =>
      rcases h.owner hadm ha with ⟨-, _, heq⟩ | ⟨row, reply', db'', -, heq, hserves⟩
      · rw [heq] at hans
        cases hans
      · rw [heq] at hans
        obtain ⟨rfl, rfl⟩ := Prod.mk.inj (Except.ok.inj hans)
        exact hserves
  | none =>
      unfold answer at hans
      cases a with
      | submitJob _ _ _ _ _ =>
          obtain ⟨job, heq, rfl⟩ := replying_ok hans
          exact submitJob_serves (fun _ => submittedRow_untried) heq
      | getJob _ =>
          simp only [Action.tx] at hans
          obtain ⟨job, heq, rfl⟩ := replying_ok hans
          exact getJob_serves heq
      | resubmitJob _ _ =>
          obtain ⟨job, heq, rfl⟩ := replying_ok hans
          exact resubmitJob_serves (fun _ => successorRow_untried) heq
      | registerWorker _ _ _ _ _ =>
          obtain ⟨_, heq, rfl⟩ := replying_ok hans
          exact .of_ledger (registerWorker_ledger heq)
      | heartbeatWorker _ _ _ =>
          obtain ⟨_, heq, rfl⟩ := replying_ok hans
          exact .of_ledger (heartbeatWorker_ledger heq)
      | claimJob _ _ _ =>
          obtain ⟨job, heq, rfl⟩ := replying_ok hans
          exact claimJob_serves h.ledger heq
      | requestCancel _ =>
          obtain ⟨job, heq, rfl⟩ := replying_ok hans
          exact requestCancel_serves h.ledger heq
      | importLegacyJobs _ =>
          obtain ⟨_, heq, rfl⟩ := replying_ok hans
          exact importLegacyJobs_serves (fun _ hold mode => toJob_importedFrom hold mode) heq
      | ensure _ _ =>
          simp only [Action.tx] at hans
          obtain ⟨_, heq, rfl⟩ := replying_ok hans
          exact ensure_serves heq
      | observe _ _ _ _ =>
          obtain ⟨job, heq, rfl⟩ := replying_ok hans
          exact observe_serves heq
      | stopWorker _ _ | setEnabled _ _ | recordError _ _ =>
          simp only [Action.tx] at hans
          obtain ⟨_, heq, rfl⟩ := replying_ok hans
          obtain ⟨-, rfl⟩ := Prod.mk.inj (Except.ok.inj heq)
          exact .of_ledger rfl
      | advance _ =>
          obtain ⟨rfl, rfl⟩ := Prod.mk.inj (Except.ok.inj hans)
          exact .of_ledger rfl
      | _ => cases ha

theorem answer_input (h : s.Ok) (hadm : s.Admissible a) {e : Error}
    (hans : s.answer cfg a = .error e) : e.Input := by
  cases ha : a.handle? with
  | some job =>
      rcases h.owner hadm ha with ⟨-, _, heq⟩ | ⟨_, _, _, -, heq, -⟩
      · rw [heq] at hans
        obtain rfl := Except.error.inj hans
        exact .of_ne fun c hc => by cases hc
      · rw [heq] at hans
        cases hans
  | none =>
      unfold answer at hans
      cases a with
      | submitJob _ _ _ _ _ => exact submitJob_input (replying_error.mp hans)
      | getJob _ => cases hans
      | resubmitJob _ _ => exact resubmitJob_input (replying_error.mp hans)
      | registerWorker _ _ _ _ _ => exact registerWorker_input (replying_error.mp hans)
      | heartbeatWorker _ _ _ => exact heartbeatWorker_input (replying_error.mp hans)
      | claimJob _ _ _ => exact claimJob_input h.ledger (replying_error.mp hans)
      | requestCancel _ => exact requestCancel_input h.ledger (replying_error.mp hans)
      | importLegacyJobs _ => exact importLegacyJobs_input (replying_error.mp hans)
      | observe _ _ _ _ => exact observe_input (replying_error.mp hans)
      | ensure _ _ | stopWorker _ _ | setEnabled _ _ | recordError _ _ | advance _ => cases hans
      | _ => cases ha

/-- A step commits one transaction, at the instant it starts from, and hands
out rows of the state it ends in. -/
theorem step_serves (h : s.Ok) (hstep : (system cfg).step s a t) :
    t.now = s.now + a.elapsed ∧
      ∃ jobs, t.handles = jobs ++ s.handles ∧
        Serves a.rights cfg s.now s.db jobs t.db := by
  obtain ⟨hadm, rfl⟩ := hstep
  unfold next
  split
  · exact ⟨rfl, [], rfl, .of_ledger rfl⟩
  · rename_i reply db' heq
    exact ⟨rfl, reply.jobs, rfl, answer_serves h hadm heq⟩

theorem Ok.step (h : s.Ok) (hstep : (system cfg).step s a t) : t.Ok := by
  obtain ⟨-, jobs, hhandles, hserves⟩ := step_serves h hstep
  refine ⟨hserves.commit.ok h.ledger, ?_⟩
  intro job hjob
  rw [hhandles] at hjob
  rcases List.mem_append.mp hjob with hnew | hold
  · exact ⟨job, hserves.current job hnew, .refl job⟩
  · obtain ⟨row, hrow, hfollows⟩ := h.handles job hold
    obtain ⟨row', hrow', hcase⟩ := hserves.commit.job hrow
    refine ⟨row', hrow', ?_⟩
    rcases hcase with rfl | hjobstep
    · exact hfollows
    · exact hfollows.step hjobstep

theorem reachable_ok (h : (system cfg).Reachable s) : s.Ok := by
  refine h.induct ?_ fun _ _ _ _ hok hstep => hok.step hstep
  rintro s₀ ⟨hdb, hhandles⟩
  refine ⟨?_, ?_⟩
  · rw [hdb]
    exact Ledger.Ok.empty
  · rw [hhandles]
    intro job hjob
    cases hjob

/-- The reservation of a repository names the job of that repository that runs,
in every reachable state; so no two jobs of a repository run, a finished job
holds no reservation, and the constraints that say so in the schema are never
what a transaction fails on. -/
theorem reservation_invariant (h : (system cfg).Reachable s) :
    (∀ e ∈ s.db.execution.rows, ∀ id, e.activeJobId = some id →
      ∃ row ∈ s.db.jobs.rows, row.id = id ∧ row.repositoryId = e.repositoryId ∧
        row.status = .running) ∧
    (∀ row ∈ s.db.jobs.rows, row.status = .running →
      ∃ e ∈ s.db.execution.rows, e.repositoryId = row.repositoryId ∧
        e.activeJobId = some row.id) ∧
    (∀ row ∈ s.db.jobs.rows, ∀ row' ∈ s.db.jobs.rows, row.status = .running →
      row'.status = .running → row.repositoryId = row'.repositoryId → row = row') ∧
    (∀ row ∈ s.db.jobs.rows, row.status.terminal = true →
      ∀ e ∈ s.db.execution.rows, e.activeJobId ≠ some row.id) ∧
    ∀ a, s.Admissible a → ∀ c, s.answer cfg a = .error (.integrityError c) →
      c ≠ .oneRunningJobPerRepository ∧ c ≠ .jobsWorkerLease ∧ c ≠ .jobsLeaseOnlyRunning := by
  have hok := reachable_ok h
  have hl := hok.ledger
  refine ⟨?_, ?_, ?_, ?_, ?_⟩
  · intro e he id hid
    obtain ⟨row, hrow, hrepo, hrun⟩ := hl.active (Table.get?_of_mem he) hid
    exact ⟨row, Table.mem_of_get? hrow, Table.key_of_get? hrow, hrepo, hrun⟩
  · intro row hrow hrun
    have hexec := hl.running (Table.get?_of_mem hrow) hrun
    exact ⟨_, Table.mem_of_get? hexec, rfl, rfl⟩
  · intro row hrow row' hrow' hrun hrun' hrepo
    have hexec := hl.running (Table.get?_of_mem hrow) hrun
    rw [hrepo, hl.running (Table.get?_of_mem hrow') hrun'] at hexec
    have hid : row'.id = row.id := by simpa using hexec
    exact Table.eq_of_key hrow hrow' hid.symm
  · intro row hrow hterm e he hactive
    obtain ⟨r, hr, -, hrun⟩ := hl.active (Table.get?_of_mem he) hactive
    obtain rfl : row = r := Option.some.inj ((Table.get?_of_mem hrow).symm.trans hr)
    exact JobStatus.ne_running_of_terminal hterm hrun
  · intro a hadm c hans
    have hinput := answer_input hok hadm hans c rfl
    refine ⟨?_, ?_, ?_⟩
    all_goals
      rintro rfl
      cases hinput

theorem reservation_invariant_oneClaim :
    ((empty 0).exec .default oneClaim).db.jobs.rows.map (·.status) = [.running] ∧
    ∀ row ∈ ((empty 0).exec .default oneClaim).db.jobs.rows, row.status = .running →
      ∃ e ∈ ((empty 0).exec .default oneClaim).db.execution.rows,
        e.repositoryId = row.repositoryId ∧ e.activeJobId = some row.id :=
  ⟨by decide, (reservation_invariant (reachable_exec (by decide))).2.1⟩

theorem step_now (hstep : (system cfg).step s a t) : s.now ≤ t.now := by
  have hnow : t.now = s.now + a.elapsed := by
    obtain ⟨-, rfl⟩ := hstep
    unfold next
    split <;> rfl
  exact hnow ▸ Int.le_add_of_nonneg_right (Int.natCast_nonneg _)

theorem now_le_of_run {as : List Action} (hrun : (system cfg).Run s as t) : s.now ≤ t.now := by
  induction hrun with
  | nil _ => exact le_refl _
  | cons hstep _ ih => exact le_trans (step_now hstep) ih

end Coord

end RepoMesh
