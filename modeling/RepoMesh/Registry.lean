import RepoMesh.WatchStep

/-!
# Who writes the worker registry

Registrations, heartbeats, stops, claims and finishes write `workers`; claims, renewals
and finishes write `job_attempts`. Every other transaction leaves both as they were
(`answer_frame`).
-/

namespace RepoMesh

/-- Neither the registry nor the attempts change. -/
structure Frame (db db' : Db) : Prop where
  workers : db'.workers = db.workers
  attempts : db'.attempts = db.attempts

section

variable {cfg : Settings} {now : Time} {db db' : Db} {job : Job}

theorem Frame.refl (db : Db) : Frame db db :=
  ⟨rfl, rfl⟩

theorem insertJob_attempts {l l' : Ledger} {row : Job} {arbiter : Constraint → Bool}
    (h : l.insertJob row arbiter = .ok (some l')) : l'.attempts = l.attempts := by
  obtain ⟨-, -, rfl⟩ := insertJob_some h
  rfl

theorem putJob_attempts {l l' : Ledger} {row : Job} (h : l.putJob row = .ok l') :
    l'.attempts = l.attempts := by
  unfold Ledger.putJob at h
  split at h
  · cases h
  split at h
  · cases h
  · obtain rfl := Except.ok.inj h
    rfl

theorem submitJob_frame {uuid repositoryId mode : String} {key : Option String} {priority : Int}
    (h : submitJob cfg now uuid repositoryId mode key priority db = .ok (job, db')) :
    Frame db db' := by
  unfold submitJob at h
  split at h
  · cases h
  split at h
  · cases h
  simp only at h
  split at h
  · cases h
  · rename_i hins
    obtain ⟨-, rfl⟩ := Prod.mk.inj (Except.ok.inj h)
    exact ⟨rfl, (insertJob_attempts hins).trans (Ledger.reserveRow_attempts _ _)⟩
  · split at h
    · cases h
    split at h
    · cases h
    · obtain ⟨-, rfl⟩ := Prod.mk.inj (Except.ok.inj h)
      exact ⟨rfl, rfl⟩

theorem resubmitJob_frame {uuid jobId : String}
    (h : resubmitJob cfg now uuid jobId db = .ok (job, db')) : Frame db db' := by
  unfold resubmitJob at h
  split at h
  · cases h
  split at h
  · cases h
  simp only at h
  split at h
  · cases h
  · rename_i hins
    obtain ⟨-, rfl⟩ := Prod.mk.inj (Except.ok.inj h)
    exact ⟨rfl, insertJob_attempts hins⟩
  · split at h
    · cases h
    · obtain ⟨-, rfl⟩ := Prod.mk.inj (Except.ok.inj h)
      exact ⟨rfl, rfl⟩

theorem assertOwnership_frame {b : Bool} (h : assertOwnership now job db = .ok (b, db')) :
    Frame db db' := by
  unfold assertOwnership at h
  split at h
  · cases h
  · obtain ⟨-, rfl⟩ := Prod.mk.inj (Except.ok.inj h)
    exact .refl db

theorem updateProgress_frame {stats : IndexStats} {path error : Option String}
    (h : updateProgress now job stats path error db = .ok ((), db')) : Frame db db' := by
  unfold updateProgress at h
  split at h
  · cases h
  split at h
  · cases h
  rename_i hput
  have hattempts := putJob_attempts hput
  split at h
  · split at h
    · obtain ⟨-, rfl⟩ := Prod.mk.inj (Except.ok.inj h)
      exact ⟨rfl, hattempts⟩
    · obtain ⟨-, rfl⟩ := Prod.mk.inj (Except.ok.inj h)
      exact ⟨rfl, hattempts⟩
  · obtain ⟨-, rfl⟩ := Prod.mk.inj (Except.ok.inj h)
    exact ⟨rfl, hattempts⟩

theorem enterGuard_frame (h : enterGuard now job db = .ok ((), db')) : Frame db db' := by
  unfold enterGuard at h
  split at h
  · cases h
  split at h
  · cases h
  split at h
  · cases h
  · rename_i hassert
    obtain ⟨-, rfl⟩ := Prod.mk.inj (Except.ok.inj h)
    exact assertOwnership_frame hassert

theorem requestCancel_frame {jobId : String} (h : requestCancel now jobId db = .ok (job, db')) :
    Frame db db' := by
  unfold requestCancel at h
  split at h
  · cases h
  split at h
  · obtain ⟨-, rfl⟩ := Prod.mk.inj (Except.ok.inj h)
    exact .refl db
  split at h
  · cases h
  · rename_i hput
    obtain ⟨-, rfl⟩ := Prod.mk.inj (Except.ok.inj h)
    exact ⟨rfl, putJob_attempts hput⟩

theorem importRow_attempts {old : LegacyRow} {l l' : Ledger} {inserted : Bool}
    (h : importRow cfg now old l = .ok (inserted, l')) : l'.attempts = l.attempts := by
  unfold importRow at h
  simp only at h
  split at h
  · cases h
  split at h
  · cases h
  split at h
  · cases h
  split at h
  · cases h
  · obtain ⟨-, rfl⟩ := Prod.mk.inj (Except.ok.inj h)
    rfl
  · rename_i hins
    obtain ⟨-, rfl⟩ := Prod.mk.inj (Except.ok.inj h)
    exact (insertJob_attempts hins).trans (Ledger.reserveRow_attempts _ _)

theorem importRows_attempts {rows : List LegacyRow} {n n' : Nat} {l l' : Ledger}
    (h : importRows cfg now rows n l = .ok (n', l')) : l'.attempts = l.attempts := by
  induction rows generalizing n l with
  | nil =>
      obtain ⟨-, rfl⟩ := Prod.mk.inj (Except.ok.inj h)
      rfl
  | cons old rows ih =>
      obtain ⟨b, m, hrow, hrest⟩ := importRows_cons h
      exact (ih hrest).trans (importRow_attempts hrow)

theorem importLegacyJobs_frame {rows : List LegacyRow} {n : Nat}
    (h : importLegacyJobs cfg now rows db = .ok (n, db')) : Frame db db' := by
  unfold importLegacyJobs at h
  split at h
  · cases h
  · rename_i hrows
    obtain ⟨-, rfl⟩ := Prod.mk.inj (Except.ok.inj h)
    exact ⟨rfl, importRows_attempts hrows⟩

theorem observe_frame {uuid repositoryId fingerprint : String} {indexed : Option String}
    {reply : Option Job}
    (h : observe cfg now uuid repositoryId fingerprint indexed db = .ok (reply, db')) :
    Frame db db' := by
  cases observe_cases h with
  | absent _ => exact .refl db
  | paused _ _ => exact .refl db
  | recorded _ _ _ => exact ⟨rfl, rfl⟩
  | submitted _ _ _ hins => exact ⟨rfl, insertJob_attempts hins⟩

/-- A scheduled retry is a finish. -/
theorem scheduleRetry_eq (job : Job) (error : String) (jitter : Time) :
    scheduleRetry cfg now job error jitter =
      finish now job (if job.maxAttempts ≤ job.attempt then .failed else .retrying)
        (some (clip error))
        (if job.maxAttempts ≤ job.attempt then 0 else retryDelay cfg job.attempt jitter) := by
  unfold scheduleRetry
  split <;> rfl

end

/-- The actions that write the registry or the attempts. -/
def Action.writesRegistry : Action → Bool
  | .registerWorker _ _ _ _ _ | .heartbeatWorker _ _ _ | .stopWorker _ _ | .claimJob _ _ _
  | .renewLease _ | .completeJob _ _ | .cancelJob _ | .failJob _ _ | .scheduleRetry _ _ _ => true
  | _ => false

namespace Coord

variable {cfg : Settings} {s : Coord} {a : Action}

theorem answer_frame {reply : Reply} {db' : Db} (ha : a.writesRegistry = false)
    (hans : s.answer cfg a = .ok (reply, db')) : Frame s.db db' := by
  unfold answer at hans
  cases a with
  | submitJob _ _ _ _ _ =>
      obtain ⟨_, heq, -⟩ := replying_ok hans
      exact submitJob_frame heq
  | resubmitJob _ _ =>
      obtain ⟨_, heq, -⟩ := replying_ok hans
      exact resubmitJob_frame heq
  | assertOwnership _ =>
      obtain ⟨_, heq, -⟩ := replying_ok hans
      exact assertOwnership_frame heq
  | updateProgress _ _ _ _ =>
      obtain ⟨_, heq, -⟩ := replying_ok hans
      exact updateProgress_frame heq
  | enterGuard _ =>
      obtain ⟨_, heq, -⟩ := replying_ok hans
      exact enterGuard_frame heq
  | requestCancel _ =>
      obtain ⟨_, heq, -⟩ := replying_ok hans
      exact requestCancel_frame heq
  | importLegacyJobs _ =>
      obtain ⟨_, heq, -⟩ := replying_ok hans
      exact importLegacyJobs_frame heq
  | observe _ _ _ _ =>
      obtain ⟨_, heq, -⟩ := replying_ok hans
      exact observe_frame heq
  | getJob _ | ensure _ _ | setEnabled _ _ | recordError _ _ =>
      simp only [Action.tx] at hans
      obtain ⟨_, heq, -⟩ := replying_ok hans
      obtain ⟨-, rfl⟩ := Prod.mk.inj (Except.ok.inj heq)
      exact ⟨rfl, rfl⟩
  | advance _ =>
      obtain ⟨-, rfl⟩ := Prod.mk.inj (Except.ok.inj hans)
      exact .refl s.db
  | _ => cases ha

end Coord

end RepoMesh
