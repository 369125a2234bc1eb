import RepoMesh.UniqueColumn

/-!
# Idempotent submission

What `submit_job` answers (`submitJob_cases`), and what follows for the calls of a run
that name the same key: they get the same job, inserted once, or are refused with
nothing changed.
-/

namespace RepoMesh

section

variable {cfg : Settings} {now : Time} {uuid repositoryId mode : String} {key : Option String}
  {priority : Int} {db : Db}

/-- A submission that the method refuses. -/
inductive Refused (jobs : Table Job.id) (repositoryId mode : String) (key : Option String)
    (priority : Int) : Prop where
  | mode : Mode.ofText mode = none → Refused jobs repositoryId mode key priority
  | key : key = some "" → Refused jobs repositoryId mode key priority
  | mismatch (id : String) (row : Job) : jobs.get? id = some row → key.isSome = true →
      row.idempotencyKey = key → ¬ (row.repositoryId = repositoryId ∧
        Mode.ofText mode = some row.mode ∧ row.priority = priority) →
      Refused jobs repositoryId mode key priority

/-- A key that is held is an arbiter conflict of the insertion. -/
theorem key_conflict {l : Ledger} {row : Job} (hkey : row.idempotencyKey.isSome = true) {id : String}
    {other : Job} (hother : l.jobs.get? id = some other)
    (hheld : other.idempotencyKey = row.idempotencyKey) :
    .jobsIdempotencyKey ∈ l.conflicts row := by
  have hany : l.jobs.rows.any (·.idempotencyKey = row.idempotencyKey) = true :=
    List.any_eq_true.mpr ⟨other, Table.mem_of_get? hother, by simpa using hheld⟩
  simp [Ledger.conflicts, hkey, hany]

/-- A refused submission raises `ValueError`. -/
theorem submitJob_refused (hu : UniqueOn Job.idempotencyKey db.jobs)
    (h : Refused db.jobs repositoryId mode key priority) :
    ∃ message, submitJob cfg now uuid repositoryId mode key priority db =
      .error (.valueError message) := by
  unfold submitJob
  cases hmode : Mode.ofText mode with
  | none => exact ⟨_, rfl⟩
  | some m =>
      simp only
      split
      · exact ⟨_, rfl⟩
      · rename_i hempty
        cases h with
        | mode hnone =>
            rw [hmode] at hnone
            cases hnone
        | key heq => exact absurd heq hempty
        | mismatch id row hrow hkey hheld hne =>
            have hconflict : .jobsIdempotencyKey ∈ (db.toLedger.reserveRow repositoryId).conflicts
                (submittedRow cfg now uuid repositoryId m key priority) :=
              key_conflict hkey hrow hheld
            rw [insertJob_held (submittedRow_fresh uuid repositoryId m key priority) hconflict
              (by simp)]
            have hfind : db.jobs.rows.find? (fun j => key.isSome && j.idempotencyKey = key) =
                some row :=
              hu.find hkey (fun j hj => by simpa [hkey] using hj) hrow (by simp [hkey, hheld])
            simp only [Ledger.reserveRow_jobs]
            rw [hfind]
            have hne' : (row.repositoryId, row.mode, row.priority) ≠ (repositoryId, m, priority) := by
              intro heq
              simp only [Prod.mk.injEq] at heq
              exact hne ⟨heq.1, by rw [hmode, heq.2.1], heq.2.2⟩
            simp only [if_pos hne']
            exact ⟨_, rfl⟩

/-- What a submission that succeeds does: it inserts a row, or returns the one that holds
its key. -/
inductive Submits (cfg : Settings) (now : Time) (db : Db) (uuid repositoryId : String) (mode : Mode)
    (key : Option String) (priority : Int) : Job → Db → Prop where
  | inserted (l : Ledger) :
      db.jobs.get? uuid = none →
      l.jobs.rows = db.jobs.rows ++ [submittedRow cfg now uuid repositoryId mode key priority] →
      Submits cfg now db uuid repositoryId mode key priority
        (submittedRow cfg now uuid repositoryId mode key priority) { db with toLedger := l }
  | returned (old : Job) :
      key.isSome = true → db.jobs.get? old.id = some old → old.idempotencyKey = key →
      old.repositoryId = repositoryId → old.mode = mode → old.priority = priority →
      Submits cfg now db uuid repositoryId mode key priority old
        { db with toLedger := db.toLedger.reserveRow repositoryId }

theorem submitJob_cases {job : Job} {db' : Db}
    (h : submitJob cfg now uuid repositoryId mode key priority db = .ok (job, db')) :
    ∃ m, Mode.ofText mode = some m ∧ key ≠ some "" ∧
      Submits cfg now db uuid repositoryId m key priority job db' := by
  unfold submitJob at h
  cases hmode : Mode.ofText mode with
  | none =>
      rw [hmode] at h
      cases h
  | some m =>
      rw [hmode] at h
      simp only at h
      split at h
      · cases h
      rename_i hempty
      refine ⟨m, rfl, hempty, ?_⟩
      split at h
      · cases h
      · rename_i l' hins
        obtain ⟨hconf, -, rfl⟩ := insertJob_some hins
        cases h
        refine .inserted _ (conflicts_id hconf) ?_
        exact Table.insertNew_rows (conflicts_id hconf)
      · split at h
        · cases h
        · rename_i old hfind
          split at h
          · cases h
          · rename_i hsame
            cases h
            have hfound := List.find?_some hfind
            simp only [Bool.and_eq_true, decide_eq_true_eq] at hfound
            have htriple := not_not.mp hsame
            simp only [Prod.mk.injEq] at htriple
            exact .returned _ hfound.1 (Table.get?_of_mem (List.mem_of_find?_eq_some hfind))
              hfound.2 htriple.1 htriple.2.1 htriple.2.2

end

namespace Coord

variable {cfg : Settings} {s s₀ t u : Coord} {as : List Action}

/-- Some action of the run was `a`, taken in `u` and answered by `reply`. -/
def Answered (cfg : Settings) (s₀ : Coord) (as : List Action) (u : Coord) (a : Action)
    (reply : Reply) : Prop :=
  ∃ bs cs db, as = bs ++ a :: cs ∧ (system cfg).Run s₀ bs u ∧ u.answer cfg a = .ok (reply, db)

/-- How many actions of the run insert a job with this id. -/
def births (cfg : Settings) (id : String) : Coord → List Action → ℕ
  | _, [] => 0
  | s, a :: as =>
      (if (s.db.jobs.get? id).isNone ∧ ((s.next cfg a).db.jobs.get? id).isSome then 1 else 0) +
        births cfg id (s.next cfg a) as

/-- A run continues from each of its points as it did. -/
theorem run_split {bs cs : List Action} (hrun : (system cfg).Run s (bs ++ cs) t)
    (hbs : (system cfg).Run s bs u) : (system cfg).Run u cs t := by
  induction hbs with
  | nil _ => exact hrun
  | cons hstep _ ih =>
      rw [List.cons_append] at hrun
      cases hrun with
      | cons hstep' hrest =>
          obtain ⟨-, rfl⟩ := hstep
          obtain ⟨-, rfl⟩ := hstep'
          exact ih hrest

theorem step_keeps_job (h : (system cfg).Reachable s) {a : Action} (hstep : (system cfg).step s a t)
    {id : String} (hsome : (s.db.jobs.get? id).isSome = true) :
    (t.db.jobs.get? id).isSome = true := by
  obtain ⟨row, hrow⟩ := Option.isSome_iff_exists.mp hsome
  obtain ⟨row', hrow', -⟩ := step_job h hstep hrow
  rw [hrow']
  rfl

/-- A job that is there at the end and was not there at the start is inserted once; one that
was there is not inserted again. -/
theorem births_eq (h : (system cfg).Reachable s) (hrun : (system cfg).Run s as t) {id : String}
    (ht : (t.db.jobs.get? id).isSome = true) :
    births cfg id s as = if (s.db.jobs.get? id).isNone then 1 else 0 := by
  induction hrun with
  | nil s =>
      have hnone : (s.db.jobs.get? id).isNone = false := by
        rw [← Option.not_isSome, ht]
        rfl
      rw [births, hnone]
      rfl
  | @cons s m t a as hstep hrest ih =>
      have hm := ih (h.step hstep) ht
      obtain rfl : m = s.next cfg a := hstep.2
      rw [births, hm]
      by_cases hs : (s.db.jobs.get? id).isSome = true
      · have hafter := step_keeps_job h hstep hs
        simp [Option.isSome_iff_ne_none.mp hs, Option.isSome_iff_ne_none.mp hafter]
      · by_cases hafter : ((s.next cfg a).db.jobs.get? id).isSome = true
        · have hnone : s.db.jobs.get? id = none := by simpa using hs
          simp [hnone, hafter, Option.isSome_iff_ne_none.mp hafter]
        · have hnone : s.db.jobs.get? id = none := by simpa using hs
          have hnone' : (s.next cfg a).db.jobs.get? id = none := by simpa using hafter
          simp [hnone, hnone']

/-- What a call with a key left behind. -/
theorem answered_submission (h₀ : (system cfg).init s₀) (hrun : (system cfg).Run s₀ as t)
    {uuid repositoryId mode key : String} {priority : Int} {job : Job}
    (hcall : Answered cfg s₀ as u (.submitJob uuid repositoryId mode (some key) priority)
      (.job job)) :
    ∃ row, t.db.jobs.get? job.id = some row ∧ row.idempotencyKey = some key ∧
      row.repositoryId = repositoryId ∧ Mode.ofText mode = some row.mode ∧
      row.priority = priority := by
  obtain ⟨bs, cs, db, rfl, hbs, hans⟩ := hcall
  have hu : (system cfg).Reachable u := ⟨s₀, bs, h₀, hbs⟩
  obtain ⟨job', heq, hreply⟩ := replying_ok hans
  obtain rfl : job = job' := Reply.job.inj hreply
  obtain ⟨m, hmode, -, hsubmits⟩ := submitJob_cases heq
  have hrest := run_split hrun hbs
  cases hrest with
  | @cons _ v _ _ _ hstep hcs =>
      have hv := hu.step hstep
      obtain rfl : v = u.next cfg _ := hstep.2
      have hget : db.jobs.get? job.id = some job ∧ job.request =
          (repositoryId, m, priority, some key) := by
        cases hsubmits with
        | inserted l hnone hrows =>
            refine ⟨Table.get?_eq_some.mpr ⟨?_, rfl⟩, rfl⟩
            rw [hrows]
            simp
        | returned _ _ hold hkey hrepo hm hprio =>
            exact ⟨hold, by rw [Job.request, hkey, hrepo, hm, hprio]⟩
      rw [← next_of_ok hans] at hget
      obtain ⟨row, hrow, hrequest⟩ := run_column JobStep.request_eq hv hcs hget.1
      rw [hget.2] at hrequest
      simp only [Job.request, Prod.mk.injEq] at hrequest
      obtain ⟨hrepo, hm, hprio, hkey⟩ := hrequest
      exact ⟨row, hrow, hkey, hrepo, by rw [hmode, hm], hprio⟩

/-- Submission is idempotent in the key. -/
theorem submissions_idempotent (h₀ : (system cfg).init s₀) (hrun : (system cfg).Run s₀ as t) :
    (∀ u uuid repositoryId mode key priority job,
      Answered cfg s₀ as u (.submitJob uuid repositoryId mode (some key) priority) (.job job) →
      (∃ row, t.db.jobs.get? job.id = some row ∧ row.repositoryId = repositoryId ∧
        Mode.ofText mode = some row.mode ∧ row.priority = priority) ∧
      births cfg job.id s₀ as = 1 ∧
      ∀ u' uuid' repositoryId' mode' priority' job',
        Answered cfg s₀ as u' (.submitJob uuid' repositoryId' mode' (some key) priority')
          (.job job') → job'.id = job.id) ∧
    (∀ uuid repositoryId mode key priority,
      Refused t.db.jobs repositoryId mode key priority →
      (∃ message, t.answer cfg (.submitJob uuid repositoryId mode key priority) =
        .error (.valueError message)) ∧
      (t.next cfg (.submitJob uuid repositoryId mode key priority)).db = t.db) ∧
    ∀ uuid repositoryId mode priority reply db,
      t.answer cfg (.submitJob uuid repositoryId mode none priority) = .ok (reply, db) →
      ∃ row, reply = .job row ∧ db.jobs.rows = t.db.jobs.rows ++ [row] := by
  have ht : (system cfg).Reachable t := ⟨s₀, as, h₀, hrun⟩
  refine ⟨?_, ?_, ?_⟩
  · intro u uuid repositoryId mode key priority job hcall
    obtain ⟨row, hrow, hkey, hrepo, hmode, hprio⟩ := answered_submission h₀ hrun hcall
    refine ⟨⟨row, hrow, hrepo, hmode, hprio⟩, ?_, ?_⟩
    · rw [births_eq (.init h₀) hrun (by rw [hrow]; rfl), h₀.1]
      rfl
    · intro u' uuid' repositoryId' mode' priority' job' hcall'
      obtain ⟨row', hrow', hkey', -⟩ := answered_submission h₀ hrun hcall'
      exact reachable_unique uniqueColumn_idempotencyKey ht hrow' hrow (by rw [hkey']; rfl)
        (hkey'.trans hkey.symm)
  · intro uuid repositoryId mode key priority hrefused
    obtain ⟨message, hans⟩ : ∃ message,
        t.answer cfg (.submitJob uuid repositoryId mode key priority) =
          .error (.valueError message) := by
      obtain ⟨message, herror⟩ :=
        submitJob_refused (reachable_unique uniqueColumn_idempotencyKey ht) hrefused
      exact ⟨message, replying_error.mpr herror⟩
    exact ⟨⟨message, hans⟩, next_of_error hans⟩
  · intro uuid repositoryId mode priority reply db hans
    obtain ⟨job, heq, rfl⟩ := replying_ok hans
    obtain ⟨m, -, -, hsubmits⟩ := submitJob_cases heq
    cases hsubmits with
    | inserted l _ hrows => exact ⟨_, rfl, hrows⟩
    | returned _ hkey => cases hkey

/-- The key is submitted again while its job waits. -/
theorem submissions_idempotent_twice :
    births .default "job-1" (empty 0) [.submitJob "job-1" "repo" "full" (some "key") 0,
      .submitJob "job-2" "repo" "full" (some "key") 0] = 1 := by
  have hrun : (system .default).Run (empty 0) [.submitJob "job-1" "repo" "full" (some "key") 0,
      .submitJob "job-2" "repo" "full" (some "key") 0] _ := run_exec (by decide)
  refine ((submissions_idempotent ⟨rfl, rfl⟩ hrun).1 (empty 0) "job-1" "repo" "full" "key" 0
    (submittedRow .default 0 "job-1" "repo" .full (some "key") 0) ?_).2.1
  exact ⟨[], _, _, rfl, .nil _, by rfl⟩

end Coord

end RepoMesh
