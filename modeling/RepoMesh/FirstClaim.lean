import RepoMesh.Progress

/-!
# Which job a claim takes

The finalisations of one call, as a list of distinct jobs (`Finalises`), and the job that
the call takes: the first claimable one of the ledger they leave (`ClaimEnds`).
-/

namespace RepoMesh

section

variable {cfg : Settings} {now : Time} {locked : Job → Bool} {l m : Ledger} {row : Job}

/-- The ledger after `done` were finalised, in this order. -/
def finalised (now : Time) (done : List Job) (l : Ledger) : Ledger :=
  done.foldl (fun l row => exhaustLedger now row l) l

/-- The jobs `done`, each found expired and exhausted, are finalised, and no other. -/
structure Finalises (now : Time) (l : Ledger) (done : List Job) : Prop where
  distinct : (done.map Job.id).Nodup
  found : ∀ row ∈ done, l.jobs.get? row.id = some row ∧ Expired now row ∧ exhausted row = true
  left : ∀ row ∈ done, (finalised now done l).jobs.get? row.id = some (exhaustedRow now row)
  others : ∀ id, id ∉ done.map Job.id →
    (finalised now done l).jobs.get? id = l.jobs.get? id

theorem Finalises.nil (now : Time) (l : Ledger) : Finalises now l [] where
  distinct := List.nodup_nil
  found := by simp
  left := by simp
  others := fun _ _ => rfl

/-- One finalisation before the others: what it leaves is not found again. -/
theorem Finalises.cons {done : List Job} (hrow : l.jobs.get? row.id = some row)
    (hexp : Expired now row) (hex : exhausted row = true)
    (h : Finalises now (exhaustLedger now row l) done) : Finalises now l (row :: done) := by
  have hfound : ∀ r ∈ done, r.id ≠ row.id ∧ l.jobs.get? r.id = some r := by
    intro r hr
    obtain ⟨hget, hrun, -⟩ := h.found r hr
    rw [get?_jobs_exhaustLedger hrow] at hget
    split at hget
    · obtain rfl := Option.some.inj hget
      exact absurd hrun.1 (JobStatus.ne_running_of_terminal (exhaustedStatus_terminal row))
    · rename_i hid
      exact ⟨hid, hget⟩
  have hnot : row.id ∉ done.map Job.id := by
    intro hmem
    obtain ⟨r, hr, hid⟩ := List.mem_map.mp hmem
    exact (hfound r hr).1 hid
  refine ⟨List.nodup_cons.mpr ⟨hnot, h.distinct⟩, fun r hr => ?_, fun r hr => ?_, fun id hid => ?_⟩
  · rcases List.mem_cons.mp hr with rfl | hr
    · exact ⟨hrow, hexp, hex⟩
    · exact ⟨(hfound r hr).2, (h.found r hr).2⟩
  · rcases List.mem_cons.mp hr with rfl | hr
    · show (finalised now done (exhaustLedger now r l)).jobs.get? r.id = _
      rw [h.others r.id hnot, get?_jobs_exhaustLedger hrow, if_pos rfl]
    · exact h.left r hr
  · rw [List.map_cons, List.mem_cons, not_or] at hid
    show (finalised now done (exhaustLedger now row l)).jobs.get? id = _
    rw [h.others id hid.2, get?_jobs_exhaustLedger hrow, if_neg hid.1]

theorem Cleanup.finalises {n : Nat} (h : Cleanup now locked n l m) :
    ∃ done, done.length = n ∧ m = finalised now done l ∧ Finalises now l done := by
  induction h with
  | nil l => exact ⟨[], rfl, rfl, .nil now l⟩
  | cons hcand hexp hex _ ih =>
      obtain ⟨done, hlen, hm, hfin⟩ := ih
      exact ⟨_ :: done, congrArg Nat.succ hlen, hm,
        hfin.cons (claimCandidate_eq_some hcand).1 hexp hex⟩

theorem Cleanup.ok {n : Nat} (h : Cleanup now locked n l m) (hok : l.Ok) : m.Ok := by
  induction h with
  | nil l => exact hok
  | cons hcand hexp _ _ ih => exact ih (exhaustLedger_ok hok (claimCandidate_eq_some hcand).1 hexp)

/-- How a finalised job ends. -/
theorem Finalises.status {done : List Job} (h : Finalises now l done) (hrow : row ∈ done) :
    row.cancelRequested = true ∧ exhaustedStatus row = .cancelled ∨
      row.cancelRequested = false ∧ row.maxAttempts ≤ row.attempt ∧
        exhaustedStatus row = .failed := by
  have hex := (h.found row hrow).2.2
  simp only [exhausted, Bool.or_eq_true, decide_eq_true_eq] at hex
  cases hc : row.cancelRequested with
  | true => exact Or.inl ⟨rfl, by simp [exhaustedStatus, hc]⟩
  | false =>
      refine Or.inr ⟨rfl, ?_, by simp [exhaustedStatus, hc]⟩
      rcases hex with htrue | hbudget
      · rw [hc] at htrue
        cases htrue
      · exact hbudget

/-! ## The job that is taken -/

/-- The claim order tells jobs apart. -/
theorem claimOrder_injective {i j : Job} (h : claimOrder i = claimOrder j) : i.id = j.id :=
  congrArg (fun key : ℤᵒᵈ ×ₗ Time ×ₗ Time ×ₗ String => (ofLex (ofLex (ofLex key).2).2).2) h

/-- How a claim ends on the ledger that `n` finalisations left. -/
inductive ClaimEnds (cfg : Settings) (now : Time) (workerId : String) (n : ℕ) (m : Ledger) :
    Option Job → Ledger → Prop where
  | claimed (row : Job) :
      m.jobs.get? row.id = some row → claimable now m row = true →
      row.cancelRequested = false → row.attempt < row.maxAttempts →
      (∀ j ∈ m.jobs.rows, j.repositoryId = row.repositoryId → j.status = .running → j = row) →
      (∀ j ∈ m.jobs.rows, claimable now m j = true → j ≠ row → claimOrder row < claimOrder j) →
      ClaimEnds cfg now workerId n m (some (claimedRow cfg now workerId row))
        (claimLedger cfg now workerId row m)
  | idle : (n = 32 ∨ ∀ j ∈ m.jobs.rows, claimable now m j = false) →
      ClaimEnds cfg now workerId n m none m

/-- A claimable job is the only running one of its repository, if it runs. -/
theorem alone_of_claimable (hok : m.Ok) (hrow : m.jobs.get? row.id = some row)
    (hclaim : claimable now m row = true) {j : Job} (hj : j ∈ m.jobs.rows)
    (hrepo : j.repositoryId = row.repositoryId) (hrun : j.status = .running) : j = row := by
  obtain ⟨e, he, hfree, -⟩ := claimable_iff.mp hclaim
  have hactive := hok.running (Table.get?_of_mem hj) hrun
  rw [hrepo, he] at hactive
  have hid : e.activeJobId = some j.id := congrArg Execution.activeJobId (Option.some.inj hactive)
  rcases hfree with hnone | hsame
  · rw [hnone] at hid
    cases hid
  · exact Table.eq_of_key hj (Table.mem_of_get? hrow) (Option.some.inj (hid.symm.trans hsame))

/-- The first candidate, when it is not exhausted, is what a claim may take. -/
theorem ClaimEnds.of_candidate (hok : m.Ok) {n : ℕ} (workerId : String)
    (hcand : claimCandidate now (fun _ => false) m = some row) (hex : exhausted row = false) :
    ClaimEnds cfg now workerId n m (some (claimedRow cfg now workerId row))
      (claimLedger cfg now workerId row m) := by
  obtain ⟨hrow, hclaim, -, hfirst⟩ := claimCandidate_eq_some hcand
  obtain ⟨hcancel, hbudget⟩ := exhausted_eq_false.mp hex
  refine .claimed row hrow hclaim hcancel hbudget
    (fun j hj => alone_of_claimable hok hrow hclaim hj) fun j hj hclaimj hne => ?_
  refine lt_of_le_of_ne (hfirst j hj hclaimj rfl) fun heq => hne ?_
  exact (Table.eq_of_key (Table.mem_of_get? hrow) hj (claimOrder_injective heq)).symm

end

namespace Coord

variable {cfg : Settings} {s : Coord}

/-- A claim takes the first job there is to take. -/
theorem claim_takes_first (h : (system cfg).Reachable s) (workerId session : String) :
    (sessionLive s.db workerId session = true →
      ∃ done reply db, s.answer cfg (.claimJob workerId session fun _ => false) =
          .ok (.ofJob? reply, db) ∧
        done.length ≤ 32 ∧ Finalises s.now s.db.toLedger done ∧
        (∀ row ∈ done, ∃ row', db.jobs.get? row.id = some row' ∧
          (row.cancelRequested = true ∧ row'.status = .cancelled ∨
            row.cancelRequested = false ∧ row.maxAttempts ≤ row.attempt ∧
              row'.status = .failed)) ∧
        ClaimEnds cfg s.now workerId done.length (finalised s.now done s.db.toLedger) reply
          db.toLedger) ∧
    ∀ e, s.answer cfg (.claimJob workerId session fun _ => false) = .error e →
      (∃ message, e = .leaseLost message) ∧
        (s.next cfg (.claimJob workerId session fun _ => false)).db = s.db := by
  have hok := (reachable_ok h).ledger
  refine ⟨fun hlive => ?_, fun e he => ⟨?_, next_of_error he⟩⟩
  · obtain ⟨reply, db, hloop, -⟩ : ∃ reply db,
        claimLoop cfg s.now workerId session (fun _ => false) 32 s.db = .ok (reply, db) ∧
          sessionLive db workerId session = true := claimLoop_ok hok hlive
    have hans : s.answer cfg (.claimJob workerId session fun _ => false) =
        .ok (.ofJob? reply, db) := by
      refine replying_of_ok .ofJob? ?_
      rw [claimJob, if_pos hlive, hloop]
    obtain ⟨n, m, hclean, hend⟩ := claimLoop_cases hok hloop
    obtain ⟨done, rfl, rfl, hfin⟩ := hclean.finalises
    have hends : ClaimEnds cfg s.now workerId done.length (finalised s.now done s.db.toLedger) reply
        db.toLedger := by
      rcases hend with ⟨rfl, hdb, hidle⟩ | ⟨row, -, hcand, hex, rfl, hdb⟩
      · rw [hdb]
        refine .idle (hidle.imp_right fun hnone j hj => ?_)
        by_contra hclaim
        have hlocked := claimCandidate_eq_none hnone.2 j hj (by simpa using hclaim)
        cases hlocked
      · rw [hdb]
        exact .of_candidate (hclean.ok hok) workerId hcand hex
    refine ⟨done, reply, db, hans, ?_, hfin, fun row hrow => ?_, hends⟩
    · rcases hend with ⟨-, -, hn | ⟨hn, -⟩⟩ | ⟨-, hn, -⟩ <;> omega
    · have hleft := hfin.left row hrow
      have hkept : db.jobs.get? row.id = some (exhaustedRow s.now row) := by
        rcases hend with ⟨-, hdb, -⟩ | ⟨row', -, hcand, -, -, hdb⟩
        · rw [hdb]
          exact hleft
        · obtain ⟨hrow', hclaim, -, -⟩ := claimCandidate_eq_some hcand
          obtain ⟨-, -, -, hrun⟩ := claimable_iff.mp hclaim
          rw [hdb, claimLedger_jobs,
            get?_setJob_of_get? (claimedRow cfg s.now workerId row') hrow' rfl,
            if_neg, hleft]
          intro hid
          rw [hid, hrow'] at hleft
          obtain rfl := Option.some.inj hleft
          have hterm : (exhaustedStatus row).terminal = false := hrun.not_terminal
          rw [exhaustedStatus_terminal row] at hterm
          cases hterm
      refine ⟨_, hkept, ?_⟩
      exact hfin.status hrow
  · have herr := replying_error.mp he
    unfold claimJob at herr
    split at herr
    · exact ⟨_, claimLoop_error hok herr⟩
    · exact ⟨_, (Except.error.inj herr).symm⟩

/-- One attempt a job. -/
def onceSettings : Settings :=
  { Settings.default with jobMaxRetries := 1, retries_pos := by decide }

/-- A job whose only attempt expired, and two jobs of lower priority that nobody has claimed,
the second before the first. -/
def expiredBeforeTwo : List Action :=
  [.submitJob "job-1" "repo-1" "full" none 9, .registerWorker "session-1" "worker-1" "host" 1 "1",
    .claimJob "worker-1" "session-1" fun _ => false, .submitJob "job-2" "repo-2" "full" none 0,
    .submitJob "job-3" "repo-3" "full" none 5, .advance 30000001]

/-- The expired job is finalised, and of the others the one of the higher priority is taken. -/
theorem claim_takes_first_of_two :
    ∃ done reply db, ((empty 0).exec onceSettings expiredBeforeTwo).answer onceSettings
        (.claimJob "worker-1" "session-1" fun _ => false) = .ok (.ofJob? reply, db) ∧
      db.jobs.rows.map (fun j => (j.id, j.status)) =
        [("job-1", .failed), ("job-2", .queued), ("job-3", .running)] ∧
      ClaimEnds onceSettings 30000001 "worker-1" (List.length done)
        (finalised 30000001 done ((empty 0).exec onceSettings expiredBeforeTwo).db.toLedger) reply
        db.toLedger := by
  have hreach : (system onceSettings).Reachable ((empty 0).exec onceSettings expiredBeforeTwo) :=
    reachable_exec (by decide)
  obtain ⟨done, reply, db, hans, -, -, -, hends⟩ :=
    (claim_takes_first hreach "worker-1" "session-1").1 (by decide)
  have hrows : (((empty 0).exec onceSettings expiredBeforeTwo).answer onceSettings
      (.claimJob "worker-1" "session-1" fun _ => false)).toOption.map
        (fun r => r.2.jobs.rows.map fun j => (j.id, j.status)) =
      some [("job-1", .failed), ("job-2", .queued), ("job-3", .running)] := by decide +kernel
  rw [hans] at hrows
  exact ⟨done, reply, db, hans, Option.some.inj hrows, hends⟩

end Coord

end RepoMesh
