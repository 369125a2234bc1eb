import RepoMesh.StateMachine

/-!
# Stale handles

A handle is lapsed when the row it was taken from has moved to a higher
generation, has stopped running, or runs under a lease that is over. The three
ways end one another only in that direction: an expired lease is not renewed,
only reclaimed or finished, and a job that runs again runs under a higher
generation. So a lapsed handle stays lapsed, and a lapsed handle owns nothing.
-/

namespace RepoMesh

/-- What has happened to the row a lapsed handle names. -/
def Job.LapsedAt (now : Time) (job row : Job) : Prop :=
  job.leaseGeneration < row.leaseGeneration ∨ row.status ≠ .running ∨ Expired now row

section

variable {cfg : Settings} {now later : Time} {job row row' : Job}

theorem Expired.mono (h : Expired now row) (hle : now ≤ later) : Expired later row := by
  obtain ⟨hrun, e, he, hexp⟩ := h
  exact ⟨hrun, e, he, le_trans hexp hle⟩

theorem Job.LapsedAt.mono (h : job.LapsedAt now row) (hle : now ≤ later) :
    job.LapsedAt later row := by
  rcases h with hgen | hrun | hexp
  · exact Or.inl hgen
  · exact Or.inr (Or.inl hrun)
  · exact Or.inr (Or.inr (hexp.mono hle))

theorem Job.Follows.generation_le (h : job.Follows row) :
    job.leaseGeneration ≤ row.leaseGeneration := by
  rcases h.generation with hlt | ⟨heq, -⟩
  · exact Nat.le_of_lt hlt
  · exact Nat.le_of_eq heq

/-- No job step revives a lapsed handle. -/
theorem Job.LapsedAt.step (hfollows : job.Follows row) (h : job.LapsedAt now row)
    (hstep : JobStep cfg now row row') : job.LapsedAt now row' := by
  have hgen := hfollows.generation_le
  cases hstep with
  | cancel ht =>
      rcases h with hlt | hrun | ⟨hrun, e, he, hexp⟩
      · exact Or.inl hlt
      · exact Or.inr (Or.inl (mt (cancelRow_running now row).mp hrun))
      · exact Or.inr (Or.inr ⟨(cancelRow_running now row).mpr hrun, e, he, hexp⟩)
  | renew hlive =>
      rcases h with hlt | hrun | hexp
      · exact Or.inl hlt
      · exact absurd hlive.1 hrun
      · exact absurd hexp hlive.not_expired
  | progress stats hlive =>
      rcases h with hlt | hrun | hexp
      · exact Or.inl hlt
      · exact absurd hlive.1 hrun
      · exact absurd hexp hlive.not_expired
  | claim workerId _ _ =>
      exact Or.inl (Nat.lt_succ_of_le hgen)
  | exhaust _ _ =>
      exact Or.inr (Or.inl (JobStatus.ne_running_of_terminal (exhaustedStatus_terminal row)))
  | finish status _ _ _ hs => exact Or.inr (Or.inl (finishStatus_ne_running hs))

theorem Job.LapsedAt.not_owned {l : Ledger} (hrow : l.jobs.get? job.id = some row)
    (h : job.LapsedAt now row) : ownedRow now l job = none := by
  cases howned : ownedRow now l job with
  | none => rfl
  | some r =>
      obtain rfl : row = r := Option.some.inj (hrow.symm.trans (ownedRow_eq_some.mp howned).1)
      have hlive := ownedRow_live howned
      have hgen := ownedRow_generation howned
      rcases h with hlt | hrun | hexp
      · omega
      · exact absurd hlive.1 hrun
      · exact absurd hexp hlive.not_expired

end

namespace Coord

variable {cfg : Settings} {s t : Coord} {job : Job}

/-- The handle's lease has passed, was taken over, or its job runs no more. -/
def Lapsed (s : Coord) (job : Job) : Prop :=
  ∃ row, s.db.jobs.get? job.id = some row ∧ job.LapsedAt s.now row

theorem Lapsed.step (hreach : (system cfg).Reachable s) (hjob : job ∈ s.handles)
    (h : s.Lapsed job) {a : Action} (hstep : (system cfg).step s a t) :
    job ∈ t.handles ∧ t.Lapsed job := by
  obtain ⟨hnow, jobs, hhandles, -⟩ := step_serves (reachable_ok hreach) hstep
  obtain ⟨row, hrow, hlapsed⟩ := h
  obtain ⟨r, hr, hfollows⟩ := (reachable_ok hreach).handles job hjob
  obtain rfl : row = r := Option.some.inj (hrow.symm.trans hr)
  obtain ⟨row', hrow', hcase⟩ := step_job hreach hstep hrow
  have hle : s.now ≤ t.now := now_le_of_run (.single hstep)
  refine ⟨?_, row', hrow', ?_⟩
  · rw [hhandles]
    exact List.mem_append_right _ hjob
  · rcases hcase with rfl | hjobstep
    · exact hlapsed.mono hle
    · exact (hlapsed.step hfollows hjobstep).mono hle

/-- A lapsed handle owns nothing, so each operation that is called with it
raises `LeaseLost` and leaves every table as it is. -/
theorem Lapsed.refused (h : s.Lapsed job) {a : Action} (ha : a.handle? = some job) :
    (∃ message, s.answer cfg a = .error (.leaseLost message)) ∧ (s.next cfg a).db = s.db := by
  obtain ⟨row, hrow, hlapsed⟩ := h
  obtain ⟨message, hans⟩ : ∃ message, s.answer cfg a = .error (.leaseLost message) :=
    tx_lost ha (hlapsed.not_owned hrow)
  refine ⟨⟨message, hans⟩, ?_⟩
  unfold next
  rw [hans]

/-- Once lapsed, a handle is refused at every later point of every run. -/
theorem stale_handle_powerless (hreach : (system cfg).Reachable s) (hjob : job ∈ s.handles)
    (h : s.Lapsed job) {as : List Action} (hrun : (system cfg).Run s as t) {a : Action}
    (ha : a.handle? = some job) :
    (∃ message, t.answer cfg a = .error (.leaseLost message)) ∧ (t.next cfg a).db = t.db := by
  have hkeep : ∀ u b v, (system cfg).Reachable u → job ∈ u.handles ∧ u.Lapsed job →
      (system cfg).step u b v → job ∈ v.handles ∧ v.Lapsed job :=
    fun u b v hu ⟨hmem, hlapsed⟩ hstep => hlapsed.step hu hmem hstep
  have hlater : job ∈ t.handles ∧ t.Lapsed job := hrun.stable hkeep hreach ⟨hjob, h⟩
  exact hlater.2.refused ha

/-- The lease of the claimed job is over; its owner comes back later still. -/
theorem stale_handle_powerless_expired :
    (∃ message, (((empty 0).exec .default (oneClaim ++ [.advance 30000000])).exec .default
        [.advance 5]).answer .default (.completeJob oneClaimJob false) =
      .error (.leaseLost message)) ∧
    ((((empty 0).exec .default (oneClaim ++ [.advance 30000000])).exec .default
        [.advance 5]).next .default (.completeJob oneClaimJob false)).db =
      (((empty 0).exec .default (oneClaim ++ [.advance 30000000])).exec .default
        [.advance 5]).db := by
  have hlapsed : ((empty 0).exec .default (oneClaim ++ [.advance 30000000])).Lapsed
      oneClaimJob := by
    refine ⟨oneClaimJob, by decide, Or.inr (Or.inr ⟨rfl, 30000000, rfl, ?_⟩)⟩
    decide
  exact stale_handle_powerless (reachable_exec (by decide)) (by decide) hlapsed
    (run_exec (by decide)) rfl

end Coord

end RepoMesh
