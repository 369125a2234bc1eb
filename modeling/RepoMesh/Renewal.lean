import RepoMesh.LeaseEnd

/-!
# Renewal in time

A worker that renews its lease before each expiry keeps the job for as long as it
likes. `Timely` says it on the actions of a run: between two renewals by the holder,
less time passes than the lease lasts. Nothing is assumed of anybody else, who may
claim, cancel, submit, import and finish other jobs in any order.
-/

namespace RepoMesh

/-- What an ownership operation reads from its handle. -/
def ownership (job : Job) : String × Option String × Nat :=
  (job.id, job.workerId, job.leaseGeneration)

/-- The holder of the handle renews its lease. -/
def Action.renews (job : Job) : Action → Bool
  | .renewLease j => j = job
  | _ => false

/-- Somebody finishes the attempt that the handle names. -/
def Action.Ends (cfg : Settings) (job : Job) (a : Action) : Prop :=
  ∃ f, a.finish? cfg = some f ∧ ownership f.job = ownership job

/-- The lease of `job` runs for `left` more, and every renewal comes before its end. -/
def Timely (lease : Time) (job : Job) : Time → List Action → Prop
  | _, [] => True
  | left, a :: as =>
      (a.elapsed : Time) < left ∧
        Timely lease job (if a.renews job then lease else left - a.elapsed) as

instance decidableTimely (lease : Time) (job : Job) :
    (left : Time) → (as : List Action) → Decidable (Timely lease job left as)
  | _, [] => isTrue trivial
  | left, a :: as =>
      have := decidableTimely lease job (if a.renews job then lease else left - a.elapsed) as
      inferInstanceAs (Decidable ((a.elapsed : Time) < left ∧
        Timely lease job (if a.renews job then lease else left - a.elapsed) as))

section

variable {now : Time} {job row : Job}

/-- The handle's lease on the row runs for at least `left` more. -/
structure Job.HeldBy (job : Job) (now left : Time) (row : Job) : Prop where
  running : row.status = .running
  ownership : RepoMesh.ownership row = RepoMesh.ownership job
  attempt : row.attempt = job.attempt
  lease : ∃ e, row.leaseExpiresAt = some e ∧ now + left ≤ e

theorem Job.HeldBy.live {left : Time} (h : job.HeldBy now left row) (hleft : 0 < left) :
    Live now row := by
  obtain ⟨e, he, hle⟩ := h.lease
  exact ⟨h.running, e, he, lt_of_lt_of_le (lt_add_of_pos_right now hleft) hle⟩

theorem ownership_of_owned {l : Ledger} (h : ownedRow now l job = some row) :
    ownership row = ownership job := by
  obtain ⟨-, howned⟩ := ownedRow_eq_some.mp h
  simp only [owned, Bool.and_eq_true, decide_eq_true_eq] at howned
  obtain ⟨⟨⟨⟨⟨hid, -⟩, hworker⟩, hgen⟩, -⟩, -⟩ := howned
  rw [ownership, ownership, hid, hworker, hgen]

theorem Job.HeldBy.owned {left : Time} {l : Ledger} (h : job.HeldBy now left row)
    (hleft : 0 < left) (hworker : job.workerId.isSome = true)
    (hrow : l.jobs.get? job.id = some row) : ownedRow now l job = some row := by
  obtain ⟨hrun, e, he, hlt⟩ := h.live hleft
  have hown := h.ownership
  simp only [RepoMesh.ownership, Prod.mk.injEq] at hown
  obtain ⟨hid, hw, hgen⟩ := hown
  refine ownedRow_eq_some.mpr ⟨hrow, ?_⟩
  simp [RepoMesh.owned, hid, hw, hgen, hrun, he, hlt, hworker]

end

namespace Coord

variable {cfg : Settings} {s t u : Coord} {a : Action} {job : Job} {left : Time}

/-- The holder's handle, with the time its lease still has. -/
structure Holder (s : Coord) (job : Job) (left : Time) : Prop where
  handle : job ∈ s.handles
  worker : job.workerId.isSome = true
  held : ∃ row, s.db.jobs.get? job.id = some row ∧ job.HeldBy s.now left row

/-- One step of anybody but the one who ends the attempt, before the lease is over. -/
theorem Holder.step (h : (system cfg).Reachable s) (hh : s.Holder job left)
    (hstep : (system cfg).step s a t) (helapsed : (a.elapsed : Time) < left)
    (hle : left ≤ cfg.jobLeaseSeconds) (hends : ¬ a.Ends cfg job) :
    t.Holder job (if a.renews job then cfg.jobLeaseSeconds else left - a.elapsed) := by
  have hleft : 0 < left := lt_of_le_of_lt (Int.natCast_nonneg _) helapsed
  obtain ⟨row, hrow, hheld⟩ := hh.held
  have hlive := hheld.live hleft
  obtain ⟨hnow, jobs, hhandles, -⟩ := step_serves (reachable_ok h) hstep
  have hmem : job ∈ t.handles := by
    rw [hhandles]
    exact List.mem_append_right _ hh.handle
  obtain ⟨row', hrow', -⟩ := step_job h hstep hrow
  have hrun : row'.status = .running := by
    by_contra hstop
    obtain ⟨f, hf, howned, -⟩ := step_stops h hstep hrow hlive hrow' hstop
    exact hends ⟨f, hf, (ownership_of_owned howned).symm.trans hheld.ownership⟩
  obtain ⟨hw, hg, hattempt, hlease⟩ := step_runs h hstep hrow hlive hrow' hrun
  have hown : ownership row' = ownership job := by
    rw [← hheld.ownership, ownership, ownership, hw, hg, Table.key_of_get? hrow,
      Table.key_of_get? hrow']
  refine ⟨hmem, hh.worker, row', hrow', hrun, hown, hattempt.trans hheld.attempt, ?_⟩
  cases hr : a.renews job with
  | false =>
      have hsum : t.now + (left - a.elapsed) = s.now + left := by
        rw [hnow]
        unfold Time at *
        omega
      obtain ⟨e, he, hend⟩ := hheld.lease
      simp only [Bool.false_eq_true, if_false, hsum]
      rcases hlease with hkept | hnew
      · exact ⟨e, hkept.trans he, hend⟩
      · exact ⟨_, hnew, add_le_add_right hle s.now⟩
  | true =>
      cases a with
      | renewLease j =>
          obtain rfl : j = job := by simpa [Action.renews] using hr
          have howned := hheld.owned hleft hh.worker hrow
          have hans : s.answer cfg (.renewLease j) = .ok (.flag row.cancelRequested,
              { s.db with toLedger := renewLedger cfg s.now row s.db.toLedger }) :=
            replying_of_ok .flag (renewLease_eq (reachable_ok h).ledger howned)
          obtain ⟨-, rfl⟩ := hstep
          rw [next_of_ok hans] at hrow'
          change (renewLedger cfg s.now row s.db.toLedger).jobs.get? j.id = _ at hrow'
          rw [renewLedger_jobs, get?_setJob_of_get? (renewedRow cfg s.now row)
            (ownedRow_get? howned) rfl, if_pos (ownedRow_id howned).symm] at hrow'
          obtain rfl := Option.some.inj hrow'
          exact ⟨_, rfl, by rw [hnow]; simp [Action.elapsed]⟩
      | _ => cases hr

/-- A run in which the holder renews in time. -/
theorem Holder.run (h : (system cfg).Reachable s) (hh : s.Holder job left)
    {as : List Action} (hrun : (system cfg).Run s as t) (hle : left ≤ cfg.jobLeaseSeconds)
    (hpos : 0 < left) (htimely : Timely cfg.jobLeaseSeconds job left as)
    (hends : ∀ a ∈ as, ¬ a.Ends cfg job) : ∃ left', 0 < left' ∧ t.Holder job left' := by
  induction hrun generalizing left with
  | nil s => exact ⟨left, hpos, hh⟩
  | @cons s m t a as hstep _ ih =>
      obtain ⟨helapsed, hrest⟩ := htimely
      have hnext := hh.step h hstep helapsed hle (hends a List.mem_cons_self)
      refine ih (h.step hstep) hnext ?_ ?_ hrest fun b hb => hends b (List.mem_cons_of_mem _ hb)
      · split
        · exact le_refl _
        · exact le_trans (sub_le_self left (Int.natCast_nonneg _)) hle
      · split
        · exact cfg.lease_pos
        · exact sub_pos.mpr helapsed

/-- The job that a claim returns, as the store has it then. -/
theorem claim_holder (h : (system cfg).Reachable s) {workerId session : String}
    {locked : Job → Bool} {db : Db}
    (hans : s.answer cfg (.claimJob workerId session locked) = .ok (.job job, db)) :
    (s.next cfg (.claimJob workerId session locked)).Holder job cfg.jobLeaseSeconds := by
  obtain ⟨r, htx, hreply⟩ := replying_ok hans
  cases r with
  | none => cases hreply
  | some r =>
      obtain rfl : job = r := Reply.job.inj hreply
      have hcurrent := (claimJob_serves (reachable_ok h).ledger htx).current job
        (List.mem_singleton_self job)
      unfold claimJob at htx
      split at htx
      swap
      · cases htx
      obtain ⟨k, m, -, ⟨hnone, -, -⟩ | ⟨row, -, -, -, hjob, -⟩⟩ :=
        claimLoop_cases (reachable_ok h).ledger htx
      · cases hnone
      · obtain rfl := Option.some.inj hjob
        rw [next, hans]
        refine ⟨List.mem_cons_self, rfl, _, hcurrent, rfl, rfl, rfl, _, rfl, ?_⟩
        simp [Action.elapsed]

/-- A worker that renews in time keeps its job. -/
theorem renewal_keeps_job (h : (system cfg).Reachable s) {workerId session : String}
    {locked : Job → Bool} {db : Db}
    (hans : s.answer cfg (.claimJob workerId session locked) = .ok (.job job, db))
    {as : List Action} (hrun : (system cfg).Run (s.next cfg (.claimJob workerId session locked)) as t)
    (htimely : Timely cfg.jobLeaseSeconds job cfg.jobLeaseSeconds as)
    (hends : ∀ a ∈ as, ¬ a.Ends cfg job) :
    (∃ row, ownedRow t.now t.db.toLedger job = some row ∧ row.attempt = job.attempt) ∧
      (∀ a, a.handle? = some job → ∃ reply db, t.answer cfg a = .ok (reply, db)) ∧
      ∀ workerId session locked j db,
        t.answer cfg (.claimJob workerId session locked) = .ok (.job j, db) → j.id ≠ job.id := by
  have hstart := h.step (a := .claimJob workerId session locked)
    ⟨admissible_of_no_handle rfl, rfl⟩
  have hreach := hstart.run hrun
  obtain ⟨left, hleft, hholder⟩ := (claim_holder h hans).run hstart hrun (le_refl _)
    cfg.lease_pos htimely hends
  obtain ⟨row, hrow, hheld⟩ := hholder.held
  have howned := hheld.owned hleft hholder.worker hrow
  refine ⟨⟨row, howned, hheld.attempt⟩, fun a ha => ?_, ?_⟩
  · have hadm : t.Admissible a := by
      intro j hj
      obtain rfl := Option.some.inj (ha.symm.trans hj)
      exact hholder.handle
    rcases (reachable_ok hreach).owner hadm ha with ⟨hlost, -⟩ | ⟨_, reply, db, -, hok, -⟩
    · rw [hlost] at howned
      cases howned
    · exact ⟨reply, db, hok⟩
  · rintro workerId session locked j db hclaim hid
    have hnext := (claim_holder hreach hclaim).held
    obtain ⟨r, hr, hr'⟩ := hnext
    obtain ⟨q, htx, hreply⟩ := replying_ok hclaim
    have hkept := claim_keeps_live hreach hrow (hheld.live hleft) htx
    rw [next_of_ok hclaim, hid, hkept] at hr
    obtain rfl := Option.some.inj hr
    rcases claimJob_running (reachable_ok hreach).ledger htx with ⟨rfl, -⟩ |
      ⟨was, j', rfl, hwas, -, -, hlt, -⟩
    · cases hreply
    · obtain rfl : j = j' := Reply.job.inj hreply
      rw [hid, hrow] at hwas
      obtain rfl := Option.some.inj hwas
      have hgen := congrArg (fun o => o.2.2) hr'.ownership
      simp only [ownership] at hgen
      omega

/-- The holder renews after twenty seconds, and again; the lease lasts thirty. -/
theorem renewal_keeps_job_twice :
    let claimed := ((empty 0).exec .default (oneClaim.take 2)).next .default
      (.claimJob "worker-1" "session-1" fun _ => false)
    let renewals : List Action := [.advance 20000000, .renewLease oneClaimJob,
      .advance 20000000, .renewLease oneClaimJob, .requestCancel "job-1"]
    ∃ row, ownedRow (claimed.exec .default renewals).now
        (claimed.exec .default renewals).db.toLedger oneClaimJob = some row ∧ row.attempt = 1 := by
  have hreach : (system .default).Reachable ((empty 0).exec .default (oneClaim.take 2)) :=
    reachable_exec (by decide)
  obtain ⟨db, hans⟩ : ∃ db, ((empty 0).exec .default (oneClaim.take 2)).answer .default
      (.claimJob "worker-1" "session-1" fun _ => false) = .ok (.job oneClaimJob, db) :=
    ⟨_, rfl⟩
  refine (renewal_keeps_job hreach hans (run_exec (by decide)) (by decide) ?_).1
  intro a ha hends
  obtain ⟨f, hf, -⟩ := hends
  simp only [List.mem_cons, List.not_mem_nil, or_false] at ha
  rcases ha with rfl | rfl | rfl | rfl | rfl <;> cases hf

end Coord

end RepoMesh
