import RepoMesh.Backoff
import RepoMesh.Insertions
import RepoMesh.TableSums

/-!
# Bounded overtaking

The claim query takes the first claimable job, so a job that is due can be passed over
only by jobs in front of it. What is submitted later with no higher priority queues
behind it, and so does a retry, whose `available_at` is moved on; what stays in front
spends one attempt of its budget with each claim. `ahead` adds up those budgets, and
`overtaking_bounded` says that no run passes the job over more often than that.
-/

namespace RepoMesh

/-- How often `row` can still be claimed in front of `j`. -/
def ahead (j row : Job) : ℕ :=
  if row.status.terminal = false ∧ claimOrder row < claimOrder j then
    row.maxAttempts - row.attempt
  else 0

section

variable {cfg : Settings} {now : Time} {i j row row' : Job}

theorem claimOrder_lt_iff : claimOrder i < claimOrder j ↔
    j.priority < i.priority ∨ i.priority = j.priority ∧
      toLex (i.availableAt, toLex (i.createdAt, i.id)) <
        toLex (j.availableAt, toLex (j.createdAt, j.id)) := by
  show (toLex (OrderDual.toDual i.priority, toLex (i.availableAt, toLex (i.createdAt, i.id))) :
    ℤᵒᵈ ×ₗ ℤ ×ₗ ℤ ×ₗ String) < toLex (OrderDual.toDual j.priority,
      toLex (j.availableAt, toLex (j.createdAt, j.id))) ↔ _
  rw [Prod.Lex.toLex_lt_toLex]
  simp only [OrderDual.toDual_lt_toDual, OrderDual.toDual_inj]

/-- A job with a later `available_at` needs a higher priority to be in front. -/
theorem priority_lt_of_ahead (havailable : j.availableAt < row.availableAt)
    (h : claimOrder row < claimOrder j) : j.priority < row.priority := by
  rcases claimOrder_lt_iff.mp h with hlt | ⟨-, hrest⟩
  · exact hlt
  · rcases Prod.Lex.toLex_lt_toLex.mp hrest with hlt | ⟨heq, -⟩
    · exact absurd hlt (not_lt_of_gt havailable)
    · exact absurd heq (ne_of_gt havailable)

theorem ahead_of_terminal (h : row.status.terminal = true) : ahead j row = 0 := by
  simp [ahead, h]

/-- A step that keeps the columns of the claim order and spends no less budget. -/
theorem ahead_le (hterm : row.status.terminal = false)
    (horder : claimOrder row' < claimOrder j → claimOrder row < claimOrder j)
    (hbudget : row'.maxAttempts - row'.attempt ≤ row.maxAttempts - row.attempt) :
    ahead j row' ≤ ahead j row := by
  unfold ahead
  by_cases hfront : row'.status.terminal = false ∧ claimOrder row' < claimOrder j
  · rw [if_pos hfront, if_pos ⟨hterm, horder hfront.2⟩]
    exact hbudget
  · rw [if_neg hfront]
    exact Nat.zero_le _

/-- No step brings a job nearer to the front, or its budget back. -/
theorem JobStep.ahead_le (h : JobStep cfg now row row') (hnow : j.availableAt < now)
    (hdue : row.status = .running → row'.status = .retrying → now < row'.availableAt) :
    ahead j row' ≤ ahead j row := by
  cases h with
  | cancel hterm => exact RepoMesh.ahead_le hterm (fun h => h) (le_refl _)
  | renew hlive => exact RepoMesh.ahead_le hlive.not_terminal (fun h => h) (le_refl _)
  | progress _ hlive => exact RepoMesh.ahead_le hlive.not_terminal (fun h => h) (le_refl _)
  | claim workerId hrunnable _ =>
      refine RepoMesh.ahead_le hrunnable.not_terminal (fun h => h) ?_
      show row.maxAttempts - (row.attempt + 1) ≤ row.maxAttempts - row.attempt
      omega
  | exhaust _ _ =>
      rw [ahead_of_terminal (exhaustedStatus_terminal row)]
      exact Nat.zero_le _
  | finish status error delay hlive hs =>
      cases hterm : (finishRow now status error delay row).status.terminal with
      | true =>
          rw [ahead_of_terminal hterm]
          exact Nat.zero_le _
      | false =>
          have hretry : (finishRow now status error delay row).status = .retrying := by
            have hne : (finishRow now status error delay row).status ≠ .running :=
              finishStatus_ne_running hs
            have hstep : JobStep cfg now row (finishRow now status error delay row) :=
              .finish status error delay hlive hs
            have hq := hstep.ne_queued
            cases hst : (finishRow now status error delay row).status with
            | retrying => rfl
            | running => exact absurd hst hne
            | queued => exact absurd hst hq
            | _ =>
                rw [hst] at hterm
                cases hterm
          refine RepoMesh.ahead_le hlive.not_terminal (fun hfront => ?_) (le_refl _)
          have hlate : j.availableAt < (finishRow now status error delay row).availableAt :=
            lt_trans hnow (hdue hlive.1 hretry)
          have hprio := priority_lt_of_ahead hlate hfront
          exact claimOrder_lt_iff.mpr (Or.inl hprio)

/-- A claim of a job in front spends one attempt. -/
theorem ahead_claimed (hterm : row.status.terminal = false) (hex : exhausted row = false)
    (hfront : claimOrder row < claimOrder j) (workerId : String) :
    ahead j (claimedRow cfg now workerId row) < ahead j row := by
  have hbudget := (exhausted_eq_false.mp hex).2
  have hclaimed : ahead j (claimedRow cfg now workerId row) =
      row.maxAttempts - (row.attempt + 1) :=
    if_pos ⟨rfl, hfront⟩
  rw [hclaimed, ahead, if_pos ⟨hterm, hfront⟩]
  omega

/-- A finalisation on the way leaves another job as claimable as it was. -/
theorem Cleanup.claimable {locked : Job → Bool} {n : ℕ} {l m : Ledger}
    (h : Cleanup now locked n l m) (hok : l.Ok) (hrow : l.jobs.get? j.id = some j)
    (hw : j.status.waiting = true) (hclaim : claimable now l j = true) :
    m.jobs.get? j.id = some j ∧ RepoMesh.claimable now m j = true := by
  induction h with
  | nil l => exact ⟨hrow, hclaim⟩
  | @cons n l m row hcand hexp _ _ ih =>
      have hget := (claimCandidate_eq_some hcand).1
      refine ih (exhaustLedger_ok hok hget hexp) ?_ ?_
      · rw [get?_jobs_exhaustLedger hget, if_neg, hrow]
        intro hid
        rw [hid, hget] at hrow
        obtain rfl := Option.some.inj hrow
        exact JobStatus.ne_running_of_waiting hw hexp.1
      · obtain ⟨e, he, hfree, hrun⟩ := claimable_iff.mp hclaim
        refine claimable_iff.mpr ?_
        rw [exhaustLedger_execution hok hget hexp.1]
        split
        · exact ⟨_, rfl, Or.inl rfl, hrun⟩
        · exact ⟨e, he, hfree, hrun⟩

end

namespace Coord

variable {cfg : Settings} {s t : Coord} {a : Action} {j : Job}

/-- A claim that could take `j` takes another job. -/
def passesOver (cfg : Settings) (j : Job) (s : Coord) : Action → Bool
  | .claimJob workerId session locked =>
      claimable s.now s.db.toLedger j && !locked j &&
        match s.answer cfg (.claimJob workerId session locked) with
        | .ok (.job k, _) => k.id ≠ j.id
        | _ => false
  | _ => false

/-- How often a run passes `j` over. -/
def passes (cfg : Settings) (j : Job) : Coord → List Action → ℕ
  | _, [] => 0
  | s, a :: as => (if passesOver cfg j s a then 1 else 0) + passes cfg j (s.next cfg a) as

/-- What is in front of `j` gets no heavier. -/
theorem weight_ahead_le (h : (system cfg).Reachable s) (hstep : (system cfg).step s a t)
    (hdrawn : a.Drawn cfg) (hnow : j.availableAt < s.now)
    (hrank : ∀ row ∈ t.db.jobs.rows, s.db.jobs.get? row.id = none → row.priority ≤ j.priority)
    (id : String) : t.db.jobs.weight (ahead j) id ≤ s.db.jobs.weight (ahead j) id := by
  cases hrow : s.db.jobs.get? id with
  | none =>
      rw [Table.weight_of_none hrow]
      cases hrow' : t.db.jobs.get? id with
      | none => rw [Table.weight_of_none hrow']
      | some row' =>
          have hborn := (step_births h hstep hrow hrow').availableAt
          have hle := hrank row' (Table.mem_of_get? hrow') (by rw [Table.key_of_get? hrow', hrow])
          rw [Table.weight_of_get? hrow', ahead, if_neg]
          rintro ⟨-, hfront⟩
          have hlt := priority_lt_of_ahead (hborn ▸ hnow) hfront
          omega
  | some row =>
      obtain ⟨row', hrow', rfl | hjob⟩ := step_job h hstep hrow
      · rw [Table.weight_of_get? hrow, Table.weight_of_get? hrow']
      · rw [Table.weight_of_get? hrow, Table.weight_of_get? hrow']
        refine hjob.ahead_le hnow fun hrun hretry => ?_
        have hwindow := (step_due_in_window h hstep hdrawn hrow hrun hrow' hretry).1
        have hpos := (retryDelay_bounds cfg row.attempt (le_refl (0 : Time))).1
        exact lt_of_lt_of_le (lt_add_of_pos_right s.now hpos) hwindow

/-- A claim that passes `j` over takes a job in front of it. -/
theorem weight_ahead_lt (h : (system cfg).Reachable s) (hrow : s.db.jobs.get? j.id = some j)
    (hw : j.status.waiting = true) (hpass : passesOver cfg j s a = true) :
    ∃ id, (s.next cfg a).db.jobs.weight (ahead j) id < s.db.jobs.weight (ahead j) id := by
  have hok := (reachable_ok h).ledger
  cases a with
  | claimJob workerId session locked =>
      simp only [passesOver, Bool.and_eq_true, Bool.not_eq_true'] at hpass
      obtain ⟨⟨hclaim, hlocked⟩, hother⟩ := hpass
      split at hother
      · rename_i k db hans
        simp only [ne_eq, decide_not, Bool.not_eq_true', decide_eq_false_iff_not] at hother
        obtain ⟨r, htx, hreply⟩ := replying_ok hans
        rw [next_of_ok hans]
        unfold claimJob at htx
        split at htx
        swap
        · cases htx
        obtain ⟨n, m, hclean, ⟨rfl, -, -⟩ | ⟨row, -, hcand, hex, rfl, hdb⟩⟩ := claimLoop_cases hok htx
        · cases hreply
        obtain rfl : k = _ := Reply.job.inj hreply
        obtain ⟨hjm, hclaimm⟩ := hclean.claimable hok hrow hw hclaim
        obtain ⟨hget, hclaimrow, -, hfirst⟩ := claimCandidate_eq_some hcand
        obtain ⟨-, -, -, hrunnable⟩ := claimable_iff.mp hclaimrow
        have hfront : claimOrder row < claimOrder j := by
          refine lt_of_le_of_ne (hfirst j (Table.mem_of_get? hjm) hclaimm hlocked) fun heq => ?_
          exact hother (claimOrder_injective heq)
        have hold : s.db.jobs.get? row.id = some row := by
          obtain ⟨done, -, rfl, hfin⟩ := hclean.finalises
          by_cases hmem : row.id ∈ done.map Job.id
          · obtain ⟨r, hr, hid⟩ := List.mem_map.mp hmem
            have hleft := hfin.left r hr
            rw [hid, hget] at hleft
            obtain rfl := Option.some.inj hleft
            have hterm := hrunnable.not_terminal
            rw [show (exhaustedRow s.now r).status.terminal = true from
              exhaustedStatus_terminal r] at hterm
            cases hterm
          · rw [← hfin.others row.id hmem, hget]
        have hnew : db.jobs.get? row.id = some (claimedRow cfg s.now workerId row) := by
          show db.toLedger.jobs.get? row.id = _
          rw [hdb, claimLedger_jobs,
            get?_setJob_of_get? (claimedRow cfg s.now workerId row) hget rfl, if_pos rfl]
        refine ⟨row.id, ?_⟩
        rw [Table.weight_of_get? hold, Table.weight_of_get? hnew]
        exact ahead_claimed hrunnable.not_terminal hex hfront workerId
      · cases hother
  | _ => cases hpass

/-- A waiting job that is found again unchanged was not touched in between. -/
theorem waiting_between (h : (system cfg).Reachable s) (hrow : s.db.jobs.get? j.id = some j)
    (hw : j.status.waiting = true) {u : Coord} (hstep : (system cfg).step s a u)
    {as : List Action} (hrun : (system cfg).Run u as t) (hstill : t.db.jobs.get? j.id = some j) :
    u.db.jobs.get? j.id = some j := by
  obtain ⟨r, hr, rfl | hjob⟩ := step_job h hstep hrow
  · exact hr
  have hu := h.step hstep
  cases hjob with
  | cancel _ =>
      have hcancelled : (cancelRow s.now j).status.terminal = true := by
        simp [cancelRow, hw, JobStatus.terminal]
      rw [terminal_final hu hrun hr hcancelled] at hstill
      have hterm := JobStatus.not_terminal_of_waiting hw
      rw [Option.some.inj hstill] at hcancelled
      rw [hcancelled] at hterm
      cases hterm
  | claim workerId _ _ =>
      obtain ⟨r', hr', -, hgen⟩ := run_job_kept hu hrun hr
      obtain rfl : j = r' := Option.some.inj (hstill.symm.trans hr')
      have hlt : j.leaseGeneration + 1 ≤ j.leaseGeneration := hgen
      omega
  | renew hlive => exact absurd hlive.1 (JobStatus.ne_running_of_waiting hw)
  | progress _ hlive => exact absurd hlive.1 (JobStatus.ne_running_of_waiting hw)
  | exhaust hexp _ => exact absurd hexp.1 (JobStatus.ne_running_of_waiting hw)
  | finish _ _ _ hlive _ => exact absurd hlive.1 (JobStatus.ne_running_of_waiting hw)

/-- A run passes a due job over at most as often as the jobs in front of it can be
claimed. -/
theorem overtaking_bounded (h : (system cfg).Reachable s)
    (hrow : s.db.jobs.get? j.id = some j) (hw : j.status.waiting = true)
    (hdue : j.availableAt < s.now) {as : List Action}
    (hrun : ((system cfg).restrict (Action.Drawn cfg)).Run s as t)
    (hstill : t.db.jobs.get? j.id = some j)
    (hrank : ∀ row ∈ t.db.jobs.rows, s.db.jobs.get? row.id = none →
      row.priority ≤ j.priority) :
    passes cfg j s as + t.db.jobs.total (ahead j) ≤ s.db.jobs.total (ahead j) := by
  induction hrun with
  | nil s => rw [passes, Nat.zero_add]
  | @cons s u t a as hstep hrest ih =>
      obtain ⟨hstep, hdrawn⟩ := hstep
      have hu := h.step hstep
      have hle : s.now ≤ u.now := now_le_of_run (.single hstep)
      have hrowu := waiting_between h hrow hw hstep hrest.of_restrict hstill
      have hafter := ih hu hrowu (lt_of_lt_of_le hdue hle) hstill fun row hmem hnone =>
        hrank row hmem (run_get?_none h (.single hstep) hnone)
      have hweight := weight_ahead_le h hstep hdrawn hdue fun row hmem hnone => by
        obtain ⟨row', hrow', hkept, -⟩ :=
          run_job_kept hu hrest.of_restrict (Table.get?_of_mem hmem)
        have hprio := hrank row' (Table.mem_of_get? hrow') (by rw [hkept.id, hnone])
        rw [← hkept.priority]
        exact hprio
      obtain rfl : u = s.next cfg a := hstep.2
      rw [passes]
      cases hpass : passesOver cfg j s a with
      | false =>
          have htotal := Table.total_le hweight
          simp only [Bool.false_eq_true, if_false]
          omega
      | true =>
          obtain ⟨id, hlt⟩ := weight_ahead_lt h hrow hw hpass
          have htotal := Table.total_lt hweight hlt
          simp only [if_true]
          omega

/-- Two jobs are due and one worker claims: the second job is passed over once. -/
theorem overtaking_bounded_two :
    let s := (empty 0).exec .default [.submitJob "job-1" "repo-1" "full" none 0,
      .submitJob "job-2" "repo-2" "full" none 0,
      .registerWorker "session-1" "worker-1" "host" 1 "1", .advance 1]
    let j := submittedRow .default 0 "job-2" "repo-2" .full none 0
    let claim := Action.claimJob "worker-1" "session-1" fun _ => false
    passes .default j s [claim] = 1 ∧ s.db.jobs.total (ahead j) = 3 ∧
      passes .default j s [claim] + (s.next .default claim).db.jobs.total (ahead j) ≤
        s.db.jobs.total (ahead j) := by
  have hadmits : (empty 0).Admits .default [.submitJob "job-1" "repo-1" "full" none 0,
      .submitJob "job-2" "repo-2" "full" none 0,
      .registerWorker "session-1" "worker-1" "host" 1 "1", .advance 1] := by decide
  refine ⟨by decide, by decide, overtaking_bounded (reachable_exec hadmits) (by decide)
    (by decide) (by decide) (.single ⟨⟨admissible_of_no_handle rfl, rfl⟩, trivial⟩)
    (by decide) ?_⟩
  decide

end Coord

end RepoMesh
