import RepoMesh.Guard
import RepoMesh.StateMachine

/-!
# Cancellation

`request_cancel` only sets a flag on a job that runs; the status is resolved
later, by whichever of finish, retry, reclaim and exhaustion comes first. A job
is `Cancelling g` once the flag is set: every step keeps it under the lease of
generation `g` or leaves it cancelled, and the step that ends the lease frees
the repository.
-/

namespace RepoMesh

/-- A cancellation is pending on the lease of generation `g`, or has ended it. -/
def Job.Cancelling (g : Nat) (row : Job) : Prop :=
  row.cancelRequested = true ∧
    (row.status = .running ∧ row.leaseGeneration = g ∨ row.status = .cancelled)

theorem cancelRow_cancelling {row : Job} (now : Time) (h : row.status.terminal = false) :
    (cancelRow now row).Cancelling row.leaseGeneration := by
  refine ⟨rfl, ?_⟩
  rcases JobStatus.waiting_or_running_of_not_terminal h with hw | hrun
  · exact Or.inr (by simp [cancelRow, hw])
  · exact Or.inl ⟨by simp [cancelRow, hrun, JobStatus.waiting], rfl⟩

theorem Job.Cancelling.cancelled {g : Nat} {row : Job} (h : row.Cancelling g)
    (hterm : row.status.terminal = true) : row.status = .cancelled := by
  rcases h.2 with ⟨hrun, -⟩ | hc
  · rw [hrun] at hterm
    cases hterm
  · exact hc

theorem Job.Cancelling.running {g : Nat} {row : Job} (h : row.Cancelling g)
    (hterm : row.status.terminal = false) : row.status = .running ∧ row.leaseGeneration = g := by
  rcases h.2 with hrun | hc
  · exact hrun
  · rw [hc] at hterm
    cases hterm

/-- No operation revives the job or ends it another way. -/
theorem JobStep.cancelling {cfg : Settings} {now : Time} {row row' : Job}
    (h : JobStep cfg now row row') {g : Nat} (hc : row.Cancelling g) : row'.Cancelling g := by
  obtain ⟨hrun, hgen⟩ := hc.running h.not_terminal
  have hflag := hc.1
  cases h with
  | cancel _ => exact ⟨rfl, Or.inl ⟨by simp [cancelRow, hrun, JobStatus.waiting], hgen⟩⟩
  | renew _ => exact ⟨hflag, Or.inl ⟨hrun, hgen⟩⟩
  | progress _ _ => exact ⟨hflag, Or.inl ⟨hrun, hgen⟩⟩
  | claim _ _ hex =>
      have hno := (exhausted_eq_false.mp hex).1
      rw [hflag] at hno
      cases hno
  | exhaust _ _ =>
      refine ⟨hflag, Or.inr ?_⟩
      show exhaustedStatus row = .cancelled
      simp [exhaustedStatus, hflag]
  | finish status _ _ _ _ =>
      refine ⟨hflag, Or.inr ?_⟩
      show finishStatus status row = .cancelled
      simp [finishStatus, hflag]

/-! ## The reservation -/

section

variable {R : Rights} {cfg : Settings} {now : Time} {l l' : Ledger}

/-- When the job that ran in a repository stops and nobody starts, the
repository is free. -/
theorem Quiet.frees (hquiet : Quiet l l') (hcommit : Commit R cfg now l l') (hok : l.Ok)
    {id : String} {row row' : Job} (hrow : l.jobs.get? id = some row)
    (hrun : row.status = .running) (hrow' : l'.jobs.get? id = some row')
    (hstop : row'.status ≠ .running) :
    l'.execution.get? row.repositoryId = some ⟨row.repositoryId, none⟩ := by
  have hok' : l'.Ok := hcommit.ok hok
  have hrepo : ∀ {i r r'}, l.jobs.get? i = some r → l'.jobs.get? i = some r' →
      r'.repositoryId = r.repositoryId := by
    intro i r r' hr hr'
    obtain ⟨x, hx, hcase⟩ := hcommit.job hr
    obtain rfl : x = r' := Option.some.inj (hx.symm.trans hr')
    rcases hcase with rfl | hstep
    · rfl
    · exact hstep.repositoryId_eq
  have hreserved := hok'.reserved hrow'
  rw [hrepo hrow hrow', Option.isSome_iff_exists] at hreserved
  obtain ⟨e, he⟩ := hreserved
  have hkey : e.repositoryId = row.repositoryId := Table.key_of_get? he
  cases hactive : e.activeJobId with
  | none => rw [he, ← hkey, ← hactive]
  | some j =>
      obtain ⟨r', hr', hrepo', hrun'⟩ := hok'.active he hactive
      obtain ⟨r, hr, hwas, -⟩ := hquiet j r' hr' hrun'
      have hexec := hok.running hr hwas
      rw [← hrepo hr hr', hrepo', hok.running hrow hrun] at hexec
      obtain rfl : id = j := by simpa using hexec
      obtain rfl : row' = r' := Option.some.inj (hrow'.symm.trans hr')
      exact absurd hrun' hstop

end

namespace Coord

variable {cfg : Settings} {s t u v : Coord} {id : String} {row : Job}

/-- The step that ended job `id` left its repository free. A claim that ends it
on the way to another candidate leaves the repository free for that candidate:
`m` is the ledger between its cleanups and the claim. -/
def Frees (cfg : Settings) (u : Coord) (a : Action) (v : Coord) (id repositoryId : String) : Prop :=
  v.db.execution.get? repositoryId = some ⟨repositoryId, none⟩ ∨
    ∃ workerId session locked k m other, a = .claimJob workerId session locked ∧
      Cleanup u.now locked k u.db.toLedger m ∧
      m.jobs.get? id = v.db.jobs.get? id ∧
      m.execution.get? repositoryId = some ⟨repositoryId, none⟩ ∧
      v.db.toLedger = claimLedger cfg u.now workerId other m

theorem admissible_of_no_handle {a : Action} (ha : a.handle? = none) : s.Admissible a := by
  intro job hjob
  rw [ha] at hjob
  cases hjob

theorem step_cancelling (h : (system cfg).Reachable s) {a : Action}
    (hstep : (system cfg).step s a t) {g : Nat}
    (hrow : ∃ row, s.db.jobs.get? id = some row ∧ row.Cancelling g) :
    ∃ row, t.db.jobs.get? id = some row ∧ row.Cancelling g := by
  obtain ⟨row, hget, hc⟩ := hrow
  obtain ⟨row', hget', rfl | hjob⟩ := step_job h hstep hget
  · exact ⟨row', hget', hc⟩
  · exact ⟨row', hget', hjob.cancelling hc⟩

theorem requestCancel_cancelling (h : (system cfg).Reachable s)
    (hrow : s.db.jobs.get? id = some row) (hlive : row.status.terminal = false)
    (hstep : (system cfg).step s (.requestCancel id) t) :
    ∃ row', t.db.jobs.get? id = some row' ∧ row'.Cancelling row.leaseGeneration := by
  obtain ⟨-, rfl⟩ := hstep
  have hans : s.answer cfg (.requestCancel id) = .ok (.job (cancelRow s.now row),
      { s.db with toLedger := s.db.toLedger.setJob (cancelRow s.now row) }) :=
    replying_of_ok .job (requestCancel_eq (reachable_ok h).ledger hrow hlive)
  obtain rfl := Table.key_of_get? hrow
  have hget := setJob_current (cancelRow s.now row) hrow rfl
  refine ⟨cancelRow s.now row, ?_, cancelRow_cancelling s.now hlive⟩
  rw [next, hans]
  exact hget

/-- A claim never returns a job that is being cancelled. -/
theorem claim_ne_cancelling (h : (system cfg).Reachable u) {g : Nat}
    (hrow : u.db.jobs.get? id = some row) (hc : row.Cancelling g)
    {workerId session : String} {locked : Job → Bool} {job : Job} {db : Db}
    (hans : u.answer cfg (.claimJob workerId session locked) = .ok (.job job, db)) :
    job.id ≠ id := by
  rintro rfl
  obtain ⟨r, htx, hreply⟩ := replying_ok hans
  rcases claimJob_running (reachable_ok h).ledger htx with ⟨rfl, -⟩ |
    ⟨was, job', rfl, hwas, -, -, hlt, hnow, hrun, -⟩
  · cases hreply
  obtain rfl : job = job' := Reply.job.inj hreply
  obtain rfl : row = was := Option.some.inj (hrow.symm.trans hwas)
  have hstep : (system cfg).step u (.claimJob workerId session locked)
      (u.next cfg (.claimJob workerId session locked)) :=
    ⟨admissible_of_no_handle rfl, rfl⟩
  obtain ⟨job', hjob', hc'⟩ := step_cancelling h hstep ⟨row, hrow, hc⟩
  rw [next, hans] at hjob'
  obtain rfl : job = job' := Option.some.inj (hnow.symm.trans hjob')
  rcases hc.2 with ⟨-, hgen⟩ | hcancelled
  · have hgen' := (hc'.running (by rw [hrun]; rfl)).2
    omega
  · have hfinal := terminal_final h (.single hstep) hrow (by rw [hcancelled]; rfl)
    rw [next, hans] at hfinal
    obtain rfl : row = job := Option.some.inj (hfinal.symm.trans hnow)
    rw [hcancelled] at hrun
    cases hrun

/-- The step that ends a job being cancelled frees its repository. -/
theorem cancelling_frees (h : (system cfg).Reachable u) (hrow : u.db.jobs.get? id = some row)
    (hrun : row.status = .running) {a : Action} (hstep : (system cfg).step u a v) {row' : Job}
    (hrow' : v.db.jobs.get? id = some row') (hend : row'.status.terminal = true) :
    Frees cfg u a v id row.repositoryId := by
  have hok := (reachable_ok h).ledger
  have hstop := JobStatus.ne_running_of_terminal hend
  obtain ⟨-, jobs, -, hserves⟩ := step_serves (reachable_ok h) hstep
  by_cases hno : ∀ w, ¬ a.rights.claims w
  · exact Or.inl ((hserves.commit.quiet hno).frees hserves.commit hok hrow hrun hrow' hstop)
  cases a with
  | claimJob workerId session locked =>
      obtain ⟨-, rfl⟩ := hstep
      unfold next at hrow' ⊢
      cases hans : u.answer cfg (.claimJob workerId session locked) with
      | error e =>
          rw [hans] at hrow'
          obtain rfl : row = row' := Option.some.inj (hrow.symm.trans hrow')
          exact absurd hrun hstop
      | ok r =>
          obtain ⟨reply, db⟩ := r
          rw [hans] at hrow'
          simp only at hrow'
          obtain ⟨r, htx, -⟩ := replying_ok hans
          unfold claimJob at htx
          split at htx
          swap
          · cases htx
          obtain ⟨k, m, hclean, hend⟩ := claimLoop_cases hok htx
          have hcommit : Commit .none cfg u.now u.db.toLedger m := .preludes hclean.preludes
          have hquiet : Quiet u.db.toLedger m := hcommit.quiet fun _ hfalse => hfalse
          rcases hend with ⟨-, hdb, -⟩ | ⟨other, -, hcand, -, -, hdb⟩
          · left
            rw [← hdb] at hcommit hquiet
            exact hquiet.frees hcommit hok hrow hrun hrow' hstop
          · right
            have hother := (claimCandidate_eq_some hcand).1
            have hne : id ≠ other.id := by
              rintro rfl
              have hclaimed := setJob_current (claimedRow cfg u.now workerId other) hother rfl
              rw [← claimLedger_jobs cfg u.now workerId other m, ← hdb] at hclaimed
              obtain rfl := Option.some.inj (hrow'.symm.trans hclaimed)
              exact hstop rfl
            have hsame : db.jobs.get? id = m.jobs.get? id := by
              show db.toLedger.jobs.get? id = m.jobs.get? id
              rw [hdb, claimLedger_jobs,
                get?_setJob_of_get? (claimedRow cfg u.now workerId other) hother rfl, if_neg hne]
            exact ⟨workerId, session, locked, k, m, other, rfl, hclean, hsame.symm,
              hquiet.frees hcommit hok hrow hrun (hsame ▸ hrow') hstop, hdb⟩
  | _ => exact absurd (fun _ hfalse => hfalse) hno

/-- Cancellation always wins. -/
theorem cancellation_wins (h : (system cfg).Reachable s) (hrow : s.db.jobs.get? id = some row)
    (hlive : row.status.terminal = false) (hcancel : (system cfg).step s (.requestCancel id) t)
    {as : List Action} (hrun : (system cfg).Run t as u) :
    ∃ row', u.db.jobs.get? id = some row' ∧
      (row'.status = .running ∧ row'.leaseGeneration = row.leaseGeneration ∨
        row'.status = .cancelled) ∧
      (row'.status.terminal = true → ∀ e ∈ u.db.execution.rows, e.activeJobId ≠ some id) ∧
      (∀ workerId session locked job db,
        u.answer cfg (.claimJob workerId session locked) = .ok (.job job, db) → job.id ≠ id) ∧
      ∀ a v, (system cfg).step u a v → row'.status.terminal = false →
        ∀ row'', v.db.jobs.get? id = some row'' → row''.status.terminal = true →
          row''.status = .cancelled ∧ Frees cfg u a v id row'.repositoryId := by
  have ht := h.step hcancel
  have hu := ht.run hrun
  have hstable := hrun.stable
    (P := fun x => ∃ r, x.db.jobs.get? id = some r ∧ r.Cancelling row.leaseGeneration)
    (fun _ _ _ hx hr hstep => step_cancelling hx hstep hr) ht
    (requestCancel_cancelling h hrow hlive hcancel)
  obtain ⟨row', hrow', hc⟩ := hstable
  refine ⟨row', hrow', hc.2, ?_, ?_, ?_⟩
  · intro hterm e he hactive
    obtain rfl := Table.key_of_get? hrow'
    exact (reservation_invariant hu).2.2.2.1 row' (Table.mem_of_get? hrow') hterm e he hactive
  · intro workerId session locked job db hans
    exact claim_ne_cancelling hu hrow' hc hans
  · intro a v hstep hterm row'' hrow'' hend
    obtain ⟨r, hr, hcv⟩ := step_cancelling hu hstep ⟨row', hrow', hc⟩
    obtain rfl : row'' = r := Option.some.inj (hrow''.symm.trans hr)
    exact ⟨hcv.cancelled hend,
      cancelling_frees hu hrow' (hc.running hterm).1 hstep hrow'' hend⟩

/-- The owner completes the job it was asked to cancel. -/
theorem cancellation_wins_completed :
    ∃ row', (((empty 0).exec .default (oneClaim ++ [.requestCancel "job-1"])).exec .default
        [.completeJob oneClaimJob false]).db.jobs.get? "job-1" = some row' ∧
      (row'.status = .running ∧ row'.leaseGeneration = 1 ∨ row'.status = .cancelled) := by
  have hrow : ((empty 0).exec .default oneClaim).db.jobs.get? "job-1" = some oneClaimJob := by
    decide
  have hstep : (system .default).step ((empty 0).exec .default oneClaim) (.requestCancel "job-1")
      ((empty 0).exec .default (oneClaim ++ [.requestCancel "job-1"])) :=
    ⟨admissible_of_no_handle rfl, rfl⟩
  have hrun : (system .default).Run
      ((empty 0).exec .default (oneClaim ++ [.requestCancel "job-1"]))
      [.completeJob oneClaimJob false] _ := run_exec (by decide)
  obtain ⟨row', hrow', hcase, -⟩ :=
    cancellation_wins (reachable_exec (by decide)) hrow rfl hstep hrun
  exact ⟨row', hrow', hcase⟩

end Coord

end RepoMesh
