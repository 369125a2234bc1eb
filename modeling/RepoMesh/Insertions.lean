import RepoMesh.StateMachine
import RepoMesh.WatchStep

/-!
# Which rows a transaction inserts, and what stays of them

`Action.Births` names the row each operation would insert, column by column. A job that a
step adds to the table is one of them, so every new job is available from the instant it
was inserted at. From then on the row is there for good: no statement deletes it or
writes one of the columns of `Job.Kept`, and its generation never goes down.
-/

namespace RepoMesh

/-- The rows that an action inserts into `jobs` at `now`. -/
def Action.Births (cfg : Settings) (now : Time) : Action → Job → Prop
  | .submitJob uuid repositoryId _ key priority, row =>
      ∃ mode, row = submittedRow cfg now uuid repositoryId mode key priority
  | .resubmitJob uuid _, row => ∃ old, row = successorRow cfg now uuid old
  | .observe uuid repositoryId _ _, row => row = watchJobRow cfg now uuid repositoryId
  | .importLegacyJobs rows, row => ∃ old ∈ rows, ∃ mode, row = old.toJob cfg now mode
  | _, _ => False

theorem Action.Births.availableAt {cfg : Settings} {now : Time} {a : Action} {row : Job}
    (h : a.Births cfg now row) : row.availableAt = now := by
  cases a with
  | submitJob _ _ _ _ _ | resubmitJob _ _ =>
      obtain ⟨_, rfl⟩ := h
      rfl
  | observe _ _ _ _ =>
      obtain rfl : row = _ := h
      rfl
  | importLegacyJobs _ =>
      obtain ⟨_, -, _, rfl⟩ := h
      rfl
  | _ => cases h

/-- What no statement writes after the insertion of a job. -/
structure Job.Kept (row row' : Job) : Prop where
  id : row'.id = row.id
  repositoryId : row'.repositoryId = row.repositoryId
  mode : row'.mode = row.mode
  priority : row'.priority = row.priority
  maxAttempts : row'.maxAttempts = row.maxAttempts
  idempotencyKey : row'.idempotencyKey = row.idempotencyKey
  createdAt : row'.createdAt = row.createdAt
  trigger : row'.trigger = row.trigger
  parentJobId : row'.parentJobId = row.parentJobId

theorem Job.Kept.refl (row : Job) : row.Kept row :=
  ⟨rfl, rfl, rfl, rfl, rfl, rfl, rfl, rfl, rfl⟩

theorem Job.Kept.trans {i j k : Job} (h : i.Kept j) (h' : j.Kept k) : i.Kept k where
  id := h'.id.trans h.id
  repositoryId := h'.repositoryId.trans h.repositoryId
  mode := h'.mode.trans h.mode
  priority := h'.priority.trans h.priority
  maxAttempts := h'.maxAttempts.trans h.maxAttempts
  idempotencyKey := h'.idempotencyKey.trans h.idempotencyKey
  createdAt := h'.createdAt.trans h.createdAt
  trigger := h'.trigger.trans h.trigger
  parentJobId := h'.parentJobId.trans h.parentJobId

theorem JobStep.kept {cfg : Settings} {now : Time} {row row' : Job}
    (h : JobStep cfg now row row') : row.Kept row' := by
  cases h <;> exact ⟨rfl, rfl, rfl, rfl, rfl, rfl, rfl, rfl, rfl⟩

theorem JobStep.generation_le {cfg : Settings} {now : Time} {row row' : Job}
    (h : JobStep cfg now row row') : row.leaseGeneration ≤ row'.leaseGeneration := by
  rcases h.generation with ⟨hgen, -⟩ | ⟨hgen, -⟩ <;> omega

namespace Coord

variable {cfg : Settings} {s t : Coord} {a : Action} {id : String} {row : Job}

/-- Along a run a job stays, with its columns of insertion. -/
theorem run_job_kept (h : (system cfg).Reachable s) {as : List Action}
    (hrun : (system cfg).Run s as t) (hrow : s.db.jobs.get? id = some row) :
    ∃ row', t.db.jobs.get? id = some row' ∧ row.Kept row' ∧
      row.leaseGeneration ≤ row'.leaseGeneration := by
  have hkeep : ∀ u b v, (system cfg).Reachable u →
      (∃ r, u.db.jobs.get? id = some r ∧ row.Kept r ∧ row.leaseGeneration ≤ r.leaseGeneration) →
      (system cfg).step u b v →
      ∃ r, v.db.jobs.get? id = some r ∧ row.Kept r ∧ row.leaseGeneration ≤ r.leaseGeneration := by
    rintro u b v hu ⟨r, hr, hkept, hgen⟩ hstep
    obtain ⟨r', hr', rfl | hjob⟩ := step_job hu hstep hr
    · exact ⟨r', hr', hkept, hgen⟩
    · exact ⟨r', hr', hkept.trans hjob.kept, le_trans hgen hjob.generation_le⟩
  have hlater := hrun.stable hkeep h ⟨row, hrow, .refl row, le_refl _⟩
  exact hlater

/-- Jobs are not deleted along a run. -/
theorem run_get?_none (h : (system cfg).Reachable s) {as : List Action}
    (hrun : (system cfg).Run s as t) (hnone : t.db.jobs.get? id = none) :
    s.db.jobs.get? id = none := by
  cases hrow : s.db.jobs.get? id with
  | none => rfl
  | some row =>
      obtain ⟨row', hrow', -⟩ := run_job_kept h hrun hrow
      rw [hrow'] at hnone
      cases hnone

theorem step_births (h : (system cfg).Reachable s) (hstep : (system cfg).step s a t)
    (hnone : s.db.jobs.get? id = none) (hrow : t.db.jobs.get? id = some row) :
    a.Births cfg s.now row := by
  have hok := reachable_ok h
  obtain ⟨hadm, rfl⟩ := hstep
  have hborn : ∀ {P : Job → Prop} {db : Db} {jobs : List Job}, (s.next cfg a).db = db →
      Serves (.insert P) cfg s.now s.db jobs db → P row := by
    intro P db jobs hdb hserves
    exact (hserves.commit.born hnone (hdb ▸ hrow)).2
  cases hans : s.answer cfg a with
  | error e =>
      rw [next_of_error hans, hnone] at hrow
      cases hrow
  | ok answer =>
  obtain ⟨reply, db⟩ := answer
  have hdb := next_of_ok hans
  cases a with
  | submitJob uuid repositoryId _ key priority =>
      obtain ⟨_, heq, -⟩ := replying_ok hans
      exact hborn hdb (submitJob_serves (P := fun r => ∃ mode,
        r = submittedRow cfg s.now uuid repositoryId mode key priority) (fun m => ⟨m, rfl⟩) heq)
  | resubmitJob uuid _ =>
      obtain ⟨_, heq, -⟩ := replying_ok hans
      exact hborn hdb (resubmitJob_serves (P := fun r => ∃ old,
        r = successorRow cfg s.now uuid old) (fun old => ⟨old, rfl⟩) heq)
  | importLegacyJobs rows =>
      obtain ⟨_, heq, -⟩ := replying_ok hans
      exact hborn hdb (importLegacyJobs_serves (P := fun r => ∃ old ∈ rows, ∃ mode,
        r = old.toJob cfg s.now mode) (fun old hold mode _ => ⟨old, hold, mode, rfl⟩) heq)
  | observe uuid repositoryId _ _ =>
      obtain ⟨_, heq, -⟩ := replying_ok hans
      rw [hdb] at hrow
      cases observe_cases heq with
      | absent _ | paused _ _ | recorded _ _ _ =>
          exact absurd (hnone.symm.trans hrow) (by simp)
      | submitted _ _ _ hins =>
          obtain ⟨-, -, rfl⟩ := insertJob_some hins
          change (s.db.jobs.insertNew (watchJobRow cfg s.now uuid repositoryId)).get? id = _ at hrow
          rw [Table.get?_insertNew, hnone] at hrow
          split at hrow
          · exact (Option.some.inj hrow).symm
          · cases hrow
  | _ =>
      have hserves := answer_serves hok hadm hans
      rw [hdb] at hrow
      exact absurd (hserves.commit.born hnone hrow).2 fun hfalse => hfalse

end Coord

end RepoMesh
