import RepoMesh.Invariant

/-!
# The job table and the documented state machine

`JobStatus.edge` is the table of transitions that the design describes, written
down independently of the operations. Every step of the coordination store moves
a job along one of its edges or leaves the status alone, and a row whose status
is terminal is final.
-/

namespace RepoMesh

/-- The durable state machine. -/
def JobStatus.edge : JobStatus → JobStatus → Bool
  | .queued, .running | .queued, .cancelled => true
  | .retrying, .running | .retrying, .cancelled => true
  | .running, .running | .running, .retrying => true
  | .running, .completed | .running, .completedWithErrors => true
  | .running, .failed | .running, .cancelled => true
  | _, _ => false

theorem JobStatus.edge_of_finishing {row : Job} {status : JobStatus}
    (h : Finishing row status) : JobStatus.edge .running (finishStatus status row) = true := by
  unfold finishStatus
  split
  · rfl
  · rcases h with h | ⟨rfl, -⟩
    · cases status
      case queued => cases h
      all_goals rfl
    · rfl

section

variable {cfg : Settings} {now : Time} {row row' : Job}

/-- How a job step moves the status: not at all and under the same lease, or
along an edge, where a running job is only ever taken over after its lease. -/
theorem JobStep.edge (h : JobStep cfg now row row') :
    (row'.status = row.status ∧ row'.leaseGeneration = row.leaseGeneration) ∨
      row.status.edge row'.status = true ∧
        (row'.status = .running → row'.leaseGeneration = row.leaseGeneration + 1 ∧
          (row.status = .running → Expired now row)) := by
  cases h with
  | cancel ht =>
      by_cases hw : row.status.waiting = true
      · have hto : (cancelRow now row).status = .cancelled := by
          simp [cancelRow, hw]
        refine Or.inr ⟨?_, fun hrun => ?_⟩
        · rw [hto]
          cases hs : row.status <;> simp_all [JobStatus.waiting, JobStatus.edge]
        · rw [hto] at hrun
          cases hrun
      · exact Or.inl ⟨by simp [cancelRow, hw], rfl⟩
  | renew _ => exact Or.inl ⟨rfl, rfl⟩
  | progress _ _ => exact Or.inl ⟨rfl, rfl⟩
  | claim workerId hrunnable _ =>
      refine Or.inr ⟨?_, fun _ => ⟨rfl, fun hrun => ?_⟩⟩
      · show row.status.edge .running = true
        rcases hrunnable with ⟨hw, -⟩ | ⟨hrun, -⟩
        · cases hs : row.status <;> simp_all [JobStatus.waiting, JobStatus.edge]
        · rw [hrun]
          rfl
      · rcases hrunnable with ⟨hw, -⟩ | hexp
        · exact absurd hrun (JobStatus.ne_running_of_waiting hw)
        · exact hexp
  | exhaust hexp _ =>
      refine Or.inr ⟨?_, fun hrun => ?_⟩
      · show row.status.edge (exhaustedStatus row) = true
        rw [hexp.1]
        unfold exhaustedStatus
        split <;> rfl
      · exact absurd hrun (JobStatus.ne_running_of_terminal (exhaustedStatus_terminal row))
  | finish status _ _ hlive hs =>
      refine Or.inr ⟨?_, fun hrun => absurd hrun (finishStatus_ne_running hs)⟩
      show row.status.edge (finishStatus status row) = true
      rw [hlive.1]
      exact JobStatus.edge_of_finishing hs

end

namespace Coord

variable {cfg : Settings} {s t : Coord}

/-- What one step of a reachable store does to a job that exists. -/
theorem step_job (h : (system cfg).Reachable s) {a : Action} (hstep : (system cfg).step s a t)
    {id : String} {row : Job} (hrow : s.db.jobs.get? id = some row) :
    ∃ row', t.db.jobs.get? id = some row' ∧ (row' = row ∨ JobStep cfg s.now row row') := by
  obtain ⟨-, jobs, -, hserves⟩ := step_serves (reachable_ok h) hstep
  exact hserves.commit.job hrow

/-- A terminal row is final. -/
theorem terminal_final (h : (system cfg).Reachable s) {as : List Action}
    (hrun : (system cfg).Run s as t) {id : String} {row : Job}
    (hrow : s.db.jobs.get? id = some row) (hterm : row.status.terminal = true) :
    t.db.jobs.get? id = some row := by
  have hkeep : ∀ u a v, (system cfg).Reachable u → u.db.jobs.get? id = some row →
      (system cfg).step u a v → v.db.jobs.get? id = some row := by
    intro u a v hu hget hstep
    obtain ⟨row', hrow', rfl | hjob⟩ := step_job hu hstep hget
    · exact hrow'
    · rw [hjob.not_terminal] at hterm
      cases hterm
  have hstable := hrun.stable (P := fun u => u.db.jobs.get? id = some row) hkeep h hrow
  exact hstable

/-- The job table refines the documented state machine. -/
theorem jobs_refine_state_machine (h : (system cfg).Reachable s) :
    (∀ id row, s.db.jobs.get? id = some row →
      (row.completedAt.isSome = true ↔ row.status.terminal = true)) ∧
    (∀ a t, (system cfg).step s a t → ∀ id row, s.db.jobs.get? id = some row →
      ∃ row', t.db.jobs.get? id = some row' ∧
        ((row'.status = row.status ∧ row'.leaseGeneration = row.leaseGeneration) ∨
          row.status.edge row'.status = true ∧
            (row'.status = .running → row'.leaseGeneration = row.leaseGeneration + 1 ∧
              (row.status = .running → Expired s.now row))) ∧
        (row.status = .queued ∨ row.status = .retrying → row'.status ≠ .failed)) ∧
    ∀ as t, (system cfg).Run s as t → ∀ id row, s.db.jobs.get? id = some row →
      row.status.terminal = true → t.db.jobs.get? id = some row := by
  refine ⟨?_, ?_, ?_⟩
  · intro id row hrow
    exact ((reachable_ok h).ledger.rows hrow).completed
  · intro a t hstep id row hrow
    obtain ⟨row', hrow', hcase⟩ := step_job h hstep hrow
    have hedge : (row'.status = row.status ∧ row'.leaseGeneration = row.leaseGeneration) ∨
        row.status.edge row'.status = true ∧
          (row'.status = .running → row'.leaseGeneration = row.leaseGeneration + 1 ∧
            (row.status = .running → Expired s.now row)) := by
      rcases hcase with rfl | hjob
      · exact Or.inl ⟨rfl, rfl⟩
      · exact hjob.edge
    refine ⟨row', hrow', hedge, ?_⟩
    intro hwaiting hfailed
    rcases hedge with ⟨hsame, -⟩ | ⟨hedge, -⟩
    · rcases hwaiting with hq | hq
      · rw [hsame, hq] at hfailed
        cases hfailed
      · rw [hsame, hq] at hfailed
        cases hfailed
    · rcases hwaiting with hq | hq
      · rw [hfailed, hq] at hedge
        cases hedge
      · rw [hfailed, hq] at hedge
        cases hedge
  · intro as t hrun id row hrow hterm
    exact terminal_final h hrun hrow hterm

/-- A completed job, and the store when its repository is indexed again. -/
theorem jobs_refine_state_machine_resubmit :
    (((empty 0).exec .default (oneClaim ++ [.completeJob oneClaimJob false])).exec .default
        [.resubmitJob "job-2" "job-1"]).db.jobs.get? "job-1" =
      some (finishRow 0 .completed none 0 oneClaimJob) := by
  have hrow : ((empty 0).exec .default
      (oneClaim ++ [.completeJob oneClaimJob false])).db.jobs.get? "job-1" =
    some (finishRow 0 .completed none 0 oneClaimJob) := by decide
  exact (jobs_refine_state_machine (reachable_exec (by decide))).2.2 _ _
    (run_exec (by decide)) _ _ hrow rfl

end Coord

end RepoMesh
