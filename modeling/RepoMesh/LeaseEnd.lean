import RepoMesh.Cancellation
import RepoMesh.FirstClaim
import RepoMesh.Registry
import RepoMesh.AttemptHistory

/-!
# Who ends a live lease

A job that runs under a lease which has not expired is moved by its owner alone:
claims and cleanups look for expired leases, a cancellation only sets a flag, and
`_finish` asks for the handle's id, worker and generation. `step_stops` names the
call that ends such a lease, with the ledger it leaves; `step_runs` says what every
other transaction leaves of the row.
-/

namespace RepoMesh

/-- A call of `_finish`. -/
structure Finish where
  job : Job
  status : JobStatus
  error : Option String
  delay : Time

/-- The call of `_finish` that an operation makes. -/
def Action.finish? (cfg : Settings) : Action → Option Finish
  | .completeJob job withErrors =>
      some ⟨job, if withErrors then .completedWithErrors else .completed, none, 0⟩
  | .cancelJob job => some ⟨job, .cancelled, none, 0⟩
  | .failJob job error => some ⟨job, .failed, some (clip error), 0⟩
  | .scheduleRetry job error jitter =>
      some ⟨job, if job.maxAttempts ≤ job.attempt then .failed else .retrying,
        some (clip error),
        if job.maxAttempts ≤ job.attempt then 0 else retryDelay cfg job.attempt jitter⟩
  | _ => none

section

variable {cfg : Settings} {now : Time} {a : Action} {f : Finish}

theorem Action.tx_finish (h : a.finish? cfg = some f) :
    a.tx cfg now = replying .job (finish now f.job f.status f.error f.delay) := by
  cases a with
  | completeJob _ _ | cancelJob _ | failJob _ _ =>
      obtain rfl := Option.some.inj h
      rfl
  | scheduleRetry job error jitter =>
      obtain rfl := Option.some.inj h
      show replying .job (RepoMesh.scheduleRetry cfg now job error jitter) = _
      rw [scheduleRetry_eq]
  | _ => cases h

theorem Action.handle_finish (h : a.finish? cfg = some f) : a.handle? = some f.job := by
  cases a with
  | completeJob _ _ | cancelJob _ | failJob _ _ | scheduleRetry _ _ _ =>
      obtain rfl := Option.some.inj h
      rfl
  | _ => cases h

/-- Every call of `_finish` asks for a status that its row may be left in. -/
theorem Action.finishing (h : a.finish? cfg = some f) {row : Job} {l : Ledger}
    (hfollows : f.job.Follows row) (howned : ownedRow now l f.job = some row) :
    Finishing row f.status := by
  cases a with
  | completeJob _ withErrors =>
      obtain rfl := Option.some.inj h
      cases withErrors <;> exact Or.inl rfl
  | cancelJob _ | failJob _ _ =>
      obtain rfl := Option.some.inj h
      exact Or.inl rfl
  | scheduleRetry job _ _ =>
      obtain rfl := Option.some.inj h
      show Finishing row (if job.maxAttempts ≤ job.attempt then .failed else .retrying)
      split
      · exact Or.inl rfl
      · rename_i hbudget
        exact Or.inr ⟨rfl, hfollows.attempt_lt howned hbudget⟩
  | _ => cases h

end

namespace Coord

variable {cfg : Settings} {s t : Coord} {a : Action} {id : String} {row row' : Job}

/-- A claim leaves a live lease alone. -/
theorem claim_keeps_live (h : (system cfg).Reachable s) (hrow : s.db.jobs.get? id = some row)
    (hlive : Live s.now row) {workerId session : String} {locked : Job → Bool}
    {r : Option Job} {db : Db}
    (htx : claimJob cfg s.now workerId session locked s.db = .ok (r, db)) :
    db.jobs.get? id = some row := by
  obtain rfl := Table.key_of_get? hrow
  unfold claimJob at htx
  split at htx
  swap
  · cases htx
  obtain ⟨k, m, hclean, hend⟩ := claimLoop_cases (reachable_ok h).ledger htx
  obtain ⟨done, -, rfl, hfin⟩ := hclean.finalises
  have hnot : row.id ∉ done.map Job.id := by
    intro hmem
    obtain ⟨r, hr, hid⟩ := List.mem_map.mp hmem
    obtain ⟨hget, hexp, -⟩ := hfin.found r hr
    obtain rfl : row = r := Option.some.inj (hrow.symm.trans (hid ▸ hget))
    exact hlive.not_expired hexp
  have hmid := hfin.others row.id hnot
  rcases hend with ⟨-, hdb, -⟩ | ⟨other, -, hcand, -, -, hdb⟩
  · show db.toLedger.jobs.get? row.id = _
    rw [hdb, hmid, hrow]
  · obtain ⟨hother, hclaim, -, -⟩ := claimCandidate_eq_some hcand
    obtain ⟨-, -, -, hrunnable⟩ := claimable_iff.mp hclaim
    have hne : row.id ≠ other.id := by
      intro hid
      rw [← hid, hmid] at hother
      obtain rfl : row = other := Option.some.inj (hrow.symm.trans hother)
      rcases hrunnable with ⟨hw, -⟩ | hexp
      · exact JobStatus.ne_running_of_waiting hw hlive.1
      · exact hlive.not_expired hexp
    show db.toLedger.jobs.get? row.id = _
    rw [hdb, claimLedger_jobs,
      get?_setJob_of_get? (claimedRow cfg s.now workerId other) hother rfl, if_neg hne, hmid, hrow]

/-- Whoever ends a live lease calls `_finish` with a handle that owns the job. -/
theorem step_stops (h : (system cfg).Reachable s) (hstep : (system cfg).step s a t)
    (hrow : s.db.jobs.get? id = some row) (hlive : Live s.now row)
    (hrow' : t.db.jobs.get? id = some row') (hstop : row'.status ≠ .running) :
    ∃ f, a.finish? cfg = some f ∧ ownedRow s.now s.db.toLedger f.job = some row ∧
      t.db.toLedger = finishLedger s.now f.status f.error f.delay row s.db.toLedger := by
  have hok := reachable_ok h
  obtain ⟨hadm, rfl⟩ := hstep
  obtain rfl := Table.key_of_get? hrow
  have hkeep : (s.next cfg a).db.jobs.get? row.id = some row → False := fun hsame =>
    hstop (Option.some.inj (hrow'.symm.trans hsame) ▸ hlive.1)
  cases hans : s.answer cfg a with
  | error e => exact absurd (next_of_error hans ▸ hrow) hkeep
  | ok answer =>
  obtain ⟨reply, db⟩ := answer
  rw [next_of_ok hans] at hrow' hkeep ⊢
  cases hf : a.finish? cfg with
  | some f =>
      obtain ⟨r, hr, hfollows⟩ := hok.handles f.job (hadm f.job (Action.handle_finish hf))
      rw [answer, Action.tx_finish hf] at hans
      obtain ⟨_, heq, -⟩ := replying_ok hans
      cases howned : ownedRow s.now s.db.toLedger f.job with
      | none =>
          rw [finish_lost howned] at heq
          cases heq
      | some r' =>
          obtain rfl : r = r' := Option.some.inj (hr.symm.trans (ownedRow_eq_some.mp howned).1)
          rw [finish_eq hok.ledger hfollows howned (Action.finishing hf hfollows howned)] at heq
          obtain ⟨-, rfl⟩ := Prod.mk.inj (Except.ok.inj heq)
          have hget := ownedRow_get? howned
          by_cases hid : row.id = r.id
          · obtain rfl : row = r := Option.some.inj (hrow.symm.trans (hid ▸ hget))
            exact ⟨f, rfl, howned, rfl⟩
          · refine absurd ?_ hkeep
            show (finishLedger s.now f.status f.error f.delay r s.db.toLedger).jobs.get? row.id = _
            rw [finishLedger_jobs,
              get?_setJob_of_get? (finishRow s.now f.status f.error f.delay r) hget rfl,
              if_neg hid, hrow]
  | none =>
      exfalso
      have hstep : (system cfg).step s a (s.next cfg a) := ⟨hadm, rfl⟩
      cases hw : a.writesRegistry with
      | false =>
          have hframe := answer_frame hw hans
          obtain ⟨g, hg⟩ := Option.isSome_iff_exists.mp
            ((hok.ledger.attempts row.id row.leaseGeneration).mpr
              ⟨row, hrow, (hok.ledger.rows hrow).claimed hlive.1, le_refl _⟩)
          have hopen := ((reachable_timeline h).current hg).mpr ⟨row, hrow, hlive.1, rfl⟩
          have hlater := reachable_timeline (h.step hstep)
          rw [next_of_ok hans] at hlater
          have hg' : db.toLedger.attempts.get? (row.id, row.leaseGeneration) = some g := by
            rw [hframe.attempts]
            exact hg
          obtain ⟨r, hr, hrun, -⟩ := (hlater.current hg').mp hopen
          obtain rfl : row' = r := Option.some.inj (hrow'.symm.trans hr)
          exact hstop hrun
      | true =>
          cases a with
          | registerWorker _ _ _ _ _ =>
              obtain ⟨_, heq, -⟩ := replying_ok hans
              exact hkeep (by rw [registerWorker_ledger heq, hrow])
          | heartbeatWorker _ _ _ =>
              obtain ⟨_, heq, -⟩ := replying_ok hans
              exact hkeep (by rw [heartbeatWorker_ledger heq, hrow])
          | stopWorker _ _ =>
              obtain ⟨-, rfl⟩ := Prod.mk.inj (Except.ok.inj hans)
              exact hkeep hrow
          | claimJob _ _ _ =>
              obtain ⟨_, heq, -⟩ := replying_ok hans
              exact hkeep (claim_keeps_live h hrow hlive heq)
          | renewLease job =>
              obtain ⟨_, heq, -⟩ := replying_ok hans
              cases howned : ownedRow s.now s.db.toLedger job with
              | none =>
                  rw [renewLease_lost howned] at heq
                  cases heq
              | some r =>
                  rw [renewLease_eq hok.ledger howned] at heq
                  obtain ⟨-, rfl⟩ := Prod.mk.inj (Except.ok.inj heq)
                  have hget := ownedRow_get? howned
                  change (renewLedger cfg s.now r s.db.toLedger).jobs.get? row.id = _ at hrow'
                  rw [renewLedger_jobs,
                    get?_setJob_of_get? (renewedRow cfg s.now r) hget rfl] at hrow'
                  split at hrow'
                  · obtain rfl := Option.some.inj hrow'
                    exact hstop (ownedRow_live howned).1
                  · exact hstop (Option.some.inj (hrow.symm.trans hrow') ▸ hlive.1)
          | completeJob _ _ | cancelJob _ | failJob _ _ | scheduleRetry _ _ _ => cases hf
          | _ => cases hw

/-- What every other step leaves of a job under a live lease: the lease, or a new one of
full length from now. -/
theorem step_runs (h : (system cfg).Reachable s) (hstep : (system cfg).step s a t)
    (hrow : s.db.jobs.get? id = some row) (hlive : Live s.now row)
    (hrow' : t.db.jobs.get? id = some row') (hrun : row'.status = .running) :
    row'.workerId = row.workerId ∧ row'.leaseGeneration = row.leaseGeneration ∧
      row'.attempt = row.attempt ∧
      (row'.leaseExpiresAt = row.leaseExpiresAt ∨
        row'.leaseExpiresAt = some (s.now + cfg.jobLeaseSeconds)) := by
  obtain ⟨r, hr, hcase⟩ := step_job h hstep hrow
  obtain rfl : row' = r := Option.some.inj (hrow'.symm.trans hr)
  rcases hcase with rfl | hjob
  · exact ⟨rfl, rfl, rfl, Or.inl rfl⟩
  · cases hjob with
    | cancel _ => exact ⟨rfl, rfl, rfl, Or.inl rfl⟩
    | renew _ => exact ⟨rfl, rfl, rfl, Or.inr rfl⟩
    | progress _ _ => exact ⟨rfl, rfl, rfl, Or.inl rfl⟩
    | claim _ hrunnable _ =>
        rcases hrunnable with ⟨hw, -⟩ | hexp
        · exact absurd hlive.1 (JobStatus.ne_running_of_waiting hw)
        · exact absurd hexp hlive.not_expired
    | exhaust hexp _ => exact absurd hexp hlive.not_expired
    | finish _ _ _ _ hs => exact absurd hrun (finishStatus_ne_running hs)

end Coord

end RepoMesh
