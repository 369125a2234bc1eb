import RepoMesh.FirstClaim
import RepoMesh.Registry
import RepoMesh.UniqueColumn

/-!
# Worker counters

`completed_jobs` and `failed_jobs` of a registry row against the attempts of its worker.
A settlement gives an attempt its final outcome; it bumps the counter of the attempt's
worker where the registry row still names the job. So the counters fall behind by the
settlements that find another name there, and never catch up (`step_balance`).
-/

namespace RepoMesh

/-- The two counters of a registry row. -/
inductive Counter where
  | completed
  | failed

namespace Counter

/-- The final statuses that a counter counts. -/
def counts : Counter → JobStatus → Bool
  | .completed, .completed | .completed, .completedWithErrors | .failed, .failed => true
  | _, _ => false

def column : Counter → WorkerRow → ℕ
  | .completed => WorkerRow.completedJobs
  | .failed => WorkerRow.failedJobs

/-- The attempt is one of the worker's, with an outcome that the counter counts. -/
def counted (C : Counter) (workerId : String) (a : Attempt) : Bool :=
  a.workerId = workerId && a.outcome.any fun
    | .status status => C.counts status
    | .expired => false

/-- What the attempt rows say. -/
def attempts (C : Counter) (l : Ledger) (workerId : String) : ℕ :=
  l.attempts.rows.countP (C.counted workerId)

/-- What the registry says; a worker without a row has counted nothing. -/
def registry (C : Counter) (db : Db) (workerId : String) : ℕ :=
  ((db.workers.get? workerId).map C.column).getD 0

end Counter

/-- The registry agrees with the attempts. -/
def CountersMatch (db : Db) : Prop :=
  ∀ (C : Counter) (workerId : String), C.registry db workerId = C.attempts db.toLedger workerId

/-- The registry row of the job's worker names the job. -/
def names (db : Db) (row : Job) : Bool :=
  (row.workerId.bind db.workers.get?).any (·.currentJobId = some row.id)

/-! ## Settlements -/

/-- The rows that the cleanup branch of a claim finalises with `n` iterations left. -/
def cleanups (now : Time) (locked : Job → Bool) : ℕ → Ledger → List Job
  | 0, _ => []
  | n + 1, l =>
      match claimCandidate now locked l with
      | none => []
      | some row =>
          if exhausted row then row :: cleanups now locked n (exhaustLedger now row l) else []

/-- A finish settles the attempt of the handle, if it owns the job. -/
def settling (s : Coord) (job : Job) (status : JobStatus) : List (Job × JobStatus) :=
  (ownedRow s.now s.db.toLedger job).toList.map fun row => (row, finishStatus status row)

/-- The attempts that an action settles: the job row it finds and the status it writes. -/
def settlements (s : Coord) : Action → List (Job × JobStatus)
  | .completeJob job withErrors =>
      settling s job (if withErrors then .completedWithErrors else .completed)
  | .cancelJob job => settling s job .cancelled
  | .failJob job _ => settling s job .failed
  | .scheduleRetry job _ _ =>
      settling s job (if job.maxAttempts ≤ job.attempt then .failed else .retrying)
  | .claimJob workerId session locked =>
      if sessionLive s.db workerId session then
        (cleanups s.now locked 32 s.db.toLedger).map fun row => (row, exhaustedStatus row)
      else []
  | _ => []

/-- A settlement of the worker that the counter should count and cannot. -/
def Counter.misses (C : Counter) (db : Db) (workerId : String) (settled : Job × JobStatus) : Bool :=
  settled.1.workerId = some workerId && C.counts settled.2 && !names db settled.1

/-! ## Who holds the attempt of a running job -/

/-- The current attempt of a running job is its worker's. -/
def Ledger.Held (l : Ledger) : Prop :=
  ∀ row : Job, l.jobs.get? row.id = some row → row.status = .running →
    ∃ a, l.attempts.get? (row.id, row.leaseGeneration) = some a ∧ row.workerId = some a.workerId

section

variable {R : Rights} {cfg : Settings} {now : Time} {l l' : Ledger} {row : Job}

/-- Attempts stay with their worker. -/
theorem Effect.attempt_worker (h : Effect R cfg now l l') (hok : l.Ok) {k : String × Nat}
    {a : Attempt} (ha : l.attempts.get? k = some a) :
    ∃ a', l'.attempts.get? k = some a' ∧ a'.workerId = a.workerId := by
  cases h with
  | prelude h =>
      cases h with
      | reserve | insert => exact ⟨a, ha, rfl⟩
      | exhaust _ hexp _ =>
          rw [get?_exhaustLedger hexp.1, ha]
          refine ⟨_, rfl, ?_⟩
          split <;> rfl
  | cancel _ _ => exact ⟨a, ha, rfl⟩
  | progress _ _ _ => exact ⟨a, ha, rfl⟩
  | renew _ _ =>
      rw [renewLedger, Ledger.get?_updateAttempt, Ledger.setJob_attempts, ha]
      refine ⟨_, rfl, ?_⟩
      split <;> rfl
  | @claim row e workerId _ hrow _ _ _ _ =>
      rw [get?_claimLedger cfg hok hrow, if_neg, get?_expireAttempt, ha]
      · refine ⟨_, rfl, ?_⟩
        dsimp only
        split <;> rfl
      · intro hk
        obtain ⟨r, hr, -, hle⟩ := (hok.attempts k.1 k.2).mp (by rw [ha]; rfl)
        obtain ⟨hid, hgen⟩ := Prod.mk.inj hk
        rw [hid, hrow] at hr
        obtain rfl := Option.some.inj hr
        omega
  | finish _ _ _ _ _ _ =>
      rw [get?_finishLedger, ha]
      refine ⟨_, rfl, ?_⟩
      split <;> rfl

theorem Effect.held (h : Effect R cfg now l l') (hok : l.Ok) (hheld : l.Held) : l'.Held := by
  intro r' hr' hrun
  have hkeep : ∀ {r : Job}, l.jobs.get? r.id = some r → r.status = .running → r'.id = r.id →
      r'.leaseGeneration = r.leaseGeneration → r'.workerId = r.workerId →
      ∃ a, l'.attempts.get? (r'.id, r'.leaseGeneration) = some a ∧ r'.workerId = some a.workerId := by
    intro r hr hrun hid hgen hworker
    obtain ⟨a, ha, hw⟩ := hheld r hr hrun
    obtain ⟨a', ha', hw'⟩ := h.attempt_worker hok ha
    exact ⟨a', by rw [hid, hgen, ha'], by rw [hworker, hw, hw']⟩
  have hmove : ∀ {row : Job} (row' : Job), l.jobs.get? row.id = some row → row'.id = row.id →
      l'.jobs = (l.setJob row').jobs →
      (row'.status = .running → row.status = .running ∧
        row'.leaseGeneration = row.leaseGeneration ∧ row'.workerId = row.workerId) →
      ∃ a, l'.attempts.get? (r'.id, r'.leaseGeneration) = some a ∧
        r'.workerId = some a.workerId := by
    intro row row' hrow hid hjobs hsame
    rw [hjobs, get?_setJob_of_get? row' hrow hid] at hr'
    split at hr'
    · obtain rfl := Option.some.inj hr'
      obtain ⟨hwas, hgen, hworker⟩ := hsame hrun
      exact hkeep hrow hwas hid hgen hworker
    · exact hkeep hr' hrun rfl rfl rfl
  cases h with
  | prelude h =>
      cases h with
      | reserve => exact hkeep hr' hrun rfl rfl rfl
      | @insert row hfresh _ hconf _ =>
          rw [Table.get?_insertNew] at hr'
          split at hr'
          · rename_i hid
            rw [← hid, conflicts_id hconf, Option.getD_none] at hr'
            obtain rfl := Option.some.inj hr'
            exact absurd hrun hfresh.not_running
          · exact hkeep hr' hrun rfl rfl rfl
      | @exhaust row hrow _ _ =>
          refine hmove (exhaustedRow now row) hrow rfl (exhaustLedger_jobs _ _ _) fun hr => ?_
          exact absurd hr (JobStatus.ne_running_of_terminal (exhaustedStatus_terminal row))
  | @cancel row hrow _ =>
      exact hmove (cancelRow now row) hrow rfl rfl fun hr =>
        ⟨(cancelRow_running now row).mp hr, rfl, rfl⟩
  | @renew row hrow hlive =>
      exact hmove (renewedRow cfg now row) hrow rfl (renewLedger_jobs _ _ _ _) fun _ =>
        ⟨hlive.1, rfl, rfl⟩
  | @progress row stats hrow hlive =>
      exact hmove (progressRow now stats row) hrow rfl rfl fun _ => ⟨hlive.1, rfl, rfl⟩
  | @claim row e workerId _ hrow _ _ _ _ =>
      rw [claimLedger_jobs, get?_setJob_of_get? (claimedRow cfg now workerId row) hrow rfl] at hr'
      split at hr'
      · obtain rfl := Option.some.inj hr'
        exact ⟨claimAttempt cfg now workerId row, by rw [get?_claimLedger cfg hok hrow]; exact if_pos rfl,
          rfl⟩
      · exact hkeep hr' hrun rfl rfl rfl
  | @finish row status error delay hrow _ hs =>
      refine hmove (finishRow now status error delay row) hrow rfl (finishLedger_jobs _ _ _ _ _ _)
        fun hr => ?_
      exact absurd hr (finishStatus_ne_running hs)

/-! ## One settlement -/

theorem Ledger.Held.empty : Ledger.empty.Held := by
  intro row hrow
  cases hrow

/-- The attempt under which a job runs: its worker's, and not counted yet. -/
theorem Ledger.Held.open (hheld : l.Held) (htime : l.Timeline now)
    (hrow : l.jobs.get? row.id = some row) (hrun : row.status = .running) :
    ∃ a, l.attempts.get? (row.id, row.leaseGeneration) = some a ∧
      row.workerId = some a.workerId ∧ a.outcome = none := by
  obtain ⟨a, ha, hworker⟩ := hheld row hrow hrun
  have hopen : a.endedAt = none := (htime.current ha).mpr ⟨row, hrow, hrun, rfl⟩
  refine ⟨a, ha, hworker, ?_⟩
  have hsome := htime.outcome ha
  rw [hopen, Option.isSome_none] at hsome
  simpa using hsome

variable {C : Counter} {db db' : Db} {workerId : String} {status : JobStatus}

theorem counted_of_outcome_none {a : Attempt} (h : a.outcome = none) :
    C.counted workerId a = false := by
  simp [Counter.counted, h]

theorem counted_settled {a : Attempt} (h : a.outcome = some (.status status)) :
    C.counted workerId a = (a.workerId = workerId && C.counts status) := by
  simp [Counter.counted, h]

/-- A settlement moves the attempts by one where the counter counts the status, and the
registry by as much unless it misses the settlement. -/
theorem settle_balance (hheld : db.toLedger.Held) (htime : db.toLedger.Timeline now)
    (hrow : db.jobs.get? row.id = some row) (hrun : row.status = .running)
    (g : Attempt → Attempt) (hkey : ∀ a, (g a).key = a.key)
    (hg : ∀ a, (g a).workerId = a.workerId ∧ (g a).outcome = some (.status status))
    (hattempts : ∀ k, db'.attempts.get? k = (db.attempts.get? k).map fun a =>
      if k = (row.id, row.leaseGeneration) then g a else a)
    (f : WorkerRow → WorkerRow) (hf : ∀ w, (f w).workerId = w.workerId)
    (hcolumn : ∀ w, C.column (f w) = C.column w + (C.counts status).toNat)
    (hworkers : db'.workers = db.workers.update
      (fun w => some w.workerId = row.workerId && w.currentJobId = some row.id) f hf) :
    C.attempts db'.toLedger workerId + C.registry db workerId =
      C.attempts db.toLedger workerId + C.registry db' workerId +
        (C.misses db workerId (row, status)).toNat := by
  obtain ⟨a, ha, hworker, hnone⟩ := hheld.open htime hrow hrun
  have hrows := Table.countP_of_get? ha g hkey hattempts (C.counted workerId)
  rw [counted_of_outcome_none hnone, counted_settled (hg a).2, (hg a).1] at hrows
  have hregistry : C.registry db' workerId = C.registry db workerId +
      (a.workerId = workerId && C.counts status && names db row).toNat := by
    simp only [Counter.registry, hworkers, Table.get?_update, names, hworker, Option.bind_some]
    cases hget : db.workers.get? workerId with
    | none =>
        by_cases hw : a.workerId = workerId
        · simp [hw, hget]
        · simp [hw]
    | some w =>
        have hwid : w.workerId = workerId := Table.key_of_get? hget
        by_cases hw : a.workerId = workerId
        · by_cases hnames : w.currentJobId = some row.id
          · simp [hw, hget, hwid, hnames, hcolumn]
          · simp [hw, hget, hnames]
        · simp [hw, hwid, Ne.symm hw]
  have hsplit : (a.workerId = workerId && C.counts status).toNat =
      (a.workerId = workerId && C.counts status && names db row).toNat +
        (C.misses db workerId (row, status)).toNat := by
    have hsame : decide (some a.workerId = some workerId) = decide (a.workerId = workerId) := by simp
    simp only [Counter.misses, hworker, hsame]
    cases decide (a.workerId = workerId) <;> cases C.counts status <;> cases names db row <;> rfl
  simp only [Counter.attempts]
  rw [Bool.toNat_false] at hrows
  omega

/-- A finish is a settlement. -/
theorem finish_balance (hok : db.toLedger.Ok) (hheld : db.toLedger.Held)
    (htime : db.toLedger.Timeline now) {job : Job} (hfollows : job.Follows row)
    (howned : ownedRow now db.toLedger job = some row) (hstatus : Finishing row status)
    {error : Option String} {delay : Time} {job' : Job}
    (h : finish now job status error delay db = .ok (job', db')) :
    C.attempts db'.toLedger workerId + C.registry db workerId =
      C.attempts db.toLedger workerId + C.registry db' workerId +
        (C.misses db workerId (row, finishStatus status row)).toNat := by
  rw [finish_eq hok hfollows howned hstatus] at h
  obtain ⟨-, rfl⟩ := Prod.mk.inj (Except.ok.inj h)
  obtain ⟨-, howner⟩ := ownedRow_eq_some.mp howned
  have hlive := ownedRow_live howned
  refine settle_balance hheld htime (ownedRow_get? howned) hlive.1
    (finishedAttempt now status error row) (fun _ => rfl) (fun _ => ⟨rfl, rfl⟩)
    (get?_finishLedger status error delay)
    (fun w => { w with
      completedJobs := w.completedJobs +
        (if finishStatus status row = .completed ∨ finishStatus status row = .completedWithErrors
          then 1 else 0)
      failedJobs := w.failedJobs + (if finishStatus status row = .failed then 1 else 0)
      status := .idle
      currentJobId := none })
    (fun _ => rfl) (fun w => ?_) ?_
  · cases C <;> cases finishStatus status row <;> rfl
  · show finishWorkers job (finishStatus status row) db.workers = _
    rw [finishWorkers, ownedRow_id howned, (owned_iff.mp howner).2.2.1]

/-- A finalisation is a settlement. -/
theorem exhaust_balance (hheld : db.toLedger.Held) (htime : db.toLedger.Timeline now)
    (hrow : db.jobs.get? row.id = some row) (hexp : Expired now row)
    (hdb : db' = { db with
      toLedger := exhaustLedger now row db.toLedger
      workers := exhaustWorkers row db.workers }) :
    C.attempts db'.toLedger workerId + C.registry db workerId =
      C.attempts db.toLedger workerId + C.registry db' workerId +
        (C.misses db workerId (row, exhaustedStatus row)).toNat := by
  subst hdb
  refine settle_balance hheld htime hrow hexp.1 (exhaustedAttempt now row) (fun _ => rfl)
    (fun _ => ⟨rfl, rfl⟩) (get?_exhaustLedger hexp.1)
    (fun w => { w with
      failedJobs := w.failedJobs + (if exhaustedStatus row = .failed then 1 else 0)
      currentJobId := none
      status := .idle })
    (fun _ => rfl) (fun w => ?_) rfl
  unfold exhaustedStatus
  cases C <;> cases row.cancelRequested <;> rfl

/-! ## Writes that settle nothing -/

theorem attempts_updateAttempt {jobId : String} {generation : ℕ} {p : Attempt → Bool}
    {f : Attempt → Attempt} {hf : ∀ a, (f a).key = a.key}
    (h : ∀ a ∈ l.attempts.rows, p a = true → C.counted workerId (f a) = C.counted workerId a) :
    C.attempts (l.updateAttempt jobId generation p f hf) workerId = C.attempts l workerId := by
  refine Table.countP_update hf fun a ha hp => h a ha ?_
  rw [Bool.and_eq_true] at hp
  exact hp.2

theorem registry_update {p : WorkerRow → Bool} {f : WorkerRow → WorkerRow}
    (hf : ∀ w, (f w).workerId = w.workerId) (hcolumn : ∀ w, C.column (f w) = C.column w)
    (h : db'.workers = db.workers.update p f hf) :
    C.registry db' workerId = C.registry db workerId := by
  rw [Counter.registry, h, Table.get?_update, Counter.registry]
  cases db.workers.get? workerId with
  | none => rfl
  | some w =>
      simp only [Option.map_some, Option.getD_some]
      split
      · exact hcolumn w
      · rfl

/-- An attempt that is reclaimed ends without an outcome of its own. -/
theorem attempts_expireAttempt (htime : l.Timeline now) :
    C.attempts (expireAttempt now row l) workerId = C.attempts l workerId := by
  unfold expireAttempt
  split
  · refine attempts_updateAttempt fun a ha hopen => ?_
    have hsome := htime.outcome (Table.get?_of_mem ha)
    rw [of_decide_eq_true hopen, Option.isSome_none] at hsome
    have hnone : a.outcome = none := by simpa using hsome
    rw [counted_of_outcome_none hnone]
    simp [Counter.counted]
  · rfl

theorem attempts_claimLedger (hok : l.Ok) (htime : l.Timeline now)
    (hrow : l.jobs.get? row.id = some row) (claimer : String) :
    C.attempts (claimLedger cfg now claimer row l) workerId = C.attempts l workerId := by
  have hnew := claimAttempt_new cfg now hok hrow claimer
  have hrows : (claimLedger cfg now claimer row l).attempts.rows =
      (reserveLedger cfg now claimer row l).attempts.rows ++ [claimAttempt cfg now claimer row] :=
    Table.insertNew_rows hnew
  rw [Counter.attempts, hrows, List.countP_append]
  have hzero : [claimAttempt cfg now claimer row].countP (C.counted workerId) = 0 := by
    simp [Counter.counted, claimAttempt]
  rw [hzero, Nat.add_zero]
  exact attempts_expireAttempt htime

/-! ## The cleanups of a claim -/

variable {locked : Job → Bool}

theorem mem_cleanups {n : ℕ} (hok : l.Ok) (h : row ∈ cleanups now locked n l) :
    l.jobs.get? row.id = some row ∧ Expired now row := by
  induction n generalizing l with
  | zero => cases h
  | succ n ih =>
      rw [cleanups] at h
      split at h
      · cases h
      rename_i r hcand
      obtain ⟨hr, hclaim, -, -⟩ := claimCandidate_eq_some hcand
      obtain ⟨-, -, -, hrun⟩ := claimable_iff.mp hclaim
      split at h
      · rename_i hex
        have hexp := hrun.expired_of_exhausted (hok.rows hr) hex
        rcases List.mem_cons.mp h with rfl | h
        · exact ⟨hr, hexp⟩
        · obtain ⟨hrow, hrowexp⟩ := ih (exhaustLedger_ok hok hr hexp) h
          rw [get?_jobs_exhaustLedger hr] at hrow
          split at hrow
          · obtain rfl := Option.some.inj hrow
            exact absurd hrowexp.1 (JobStatus.ne_running_of_terminal (exhaustedStatus_terminal r))
          · exact ⟨hrow, hrowexp⟩
      · cases h

/-- A finalisation clears no name but the job's own. -/
theorem names_exhaustWorkers {m : Ledger} {r : Job} (hid : r.id ≠ row.id) :
    names { db with toLedger := m, workers := exhaustWorkers row db.workers } r = names db r := by
  unfold names
  cases r.workerId with
  | none => rfl
  | some w =>
      simp only [Option.bind_some, exhaustWorkers, Table.get?_update]
      cases db.workers.get? w with
      | none => rfl
      | some v =>
          simp only [Option.map_some, Option.any_some]
          split
          · rename_i hp
            simp only [Bool.and_eq_true, decide_eq_true_eq] at hp
            simp [hp.2, Ne.symm hid]
          · rfl

/-- What the later cleanups miss is not changed by a finalisation before them. -/
theorem misses_cleanups {mid : Db} {n : ℕ} (hok : (exhaustLedger now row db.toLedger).Ok)
    (hrow : db.jobs.get? row.id = some row)
    (hmid : mid = { db with
      toLedger := exhaustLedger now row db.toLedger
      workers := exhaustWorkers row db.workers }) :
    ((cleanups now locked n mid.toLedger).map fun row => (row, exhaustedStatus row)).countP
        (C.misses mid workerId) =
      ((cleanups now locked n mid.toLedger).map fun row => (row, exhaustedStatus row)).countP
        (C.misses db workerId) := by
  refine List.countP_congr fun x hx => ?_
  obtain ⟨r, hr, rfl⟩ := List.mem_map.mp hx
  have hledger : mid.toLedger = exhaustLedger now row db.toLedger := by rw [hmid]
  rw [hledger] at hr
  obtain ⟨hget, hrexp⟩ := mem_cleanups hok hr
  have hid : r.id ≠ row.id := by
    intro hid
    rw [get?_jobs_exhaustLedger hrow, if_pos hid] at hget
    obtain rfl := Option.some.inj hget
    exact absurd hrexp.1 (JobStatus.ne_running_of_terminal (exhaustedStatus_terminal row))
  rw [Counter.misses, Counter.misses, hmid, names_exhaustWorkers hid]

/-- A claim that takes a job counts nothing. -/
theorem takeJob_balance {claimer session : String} {job : Job} (hok : db.toLedger.Ok)
    (htime : db.toLedger.Timeline now) (hcand : claimCandidate now locked db.toLedger = some row)
    (hex : exhausted row = false)
    (h : takeJob cfg now claimer session row db = .ok (job, db')) :
    C.attempts db'.toLedger workerId = C.attempts db.toLedger workerId ∧
      C.registry db' workerId = C.registry db workerId := by
  obtain ⟨hrow, hclaim, -, -⟩ := claimCandidate_eq_some hcand
  rw [takeJob_eq hok hrow hclaim hex] at h
  split at h
  · cases h
  split at h
  · obtain ⟨-, rfl⟩ := Prod.mk.inj (Except.ok.inj h)
    refine ⟨attempts_claimLedger hok htime hrow claimer, ?_⟩
    refine registry_update
      (f := fun w => { w with status := .busy, currentJobId := some row.id, lastSeenAt := now })
      (fun _ => rfl) (fun w => ?_) rfl
    cases C <;> rfl
  · cases h

theorem claimLoop_balance {n : ℕ} {claimer session : String} {r : Option Job}
    (hok : db.toLedger.Ok) (hheld : db.toLedger.Held) (htime : db.toLedger.Timeline now)
    (h : claimLoop cfg now claimer session locked n db = .ok (r, db')) :
    C.attempts db'.toLedger workerId + C.registry db workerId =
      C.attempts db.toLedger workerId + C.registry db' workerId +
        ((cleanups now locked n db.toLedger).map fun row => (row, exhaustedStatus row)).countP
          (C.misses db workerId) := by
  induction n generalizing db with
  | zero =>
      obtain ⟨-, rfl⟩ := Prod.mk.inj (Except.ok.inj h)
      rfl
  | succ n ih =>
      cases hcand : claimCandidate now locked db.toLedger with
      | none =>
          simp only [claimLoop, hcand] at h
          obtain ⟨-, rfl⟩ := Prod.mk.inj (Except.ok.inj h)
          simp only [cleanups, hcand]
          rfl
      | some row =>
          obtain ⟨hrow, hclaim, -, -⟩ := claimCandidate_eq_some hcand
          obtain ⟨e, he, hfree, hrun⟩ := claimable_iff.mp hclaim
          cases hex : exhausted row with
          | true =>
              simp only [claimLoop, hcand, hex, if_true] at h
              simp only [cleanups, hcand, hex, if_true, List.map_cons, List.countP_cons]
              have hexp := hrun.expired_of_exhausted (hok.rows hrow) hex
              rw [exhaustJob_eq hok hrow hexp] at h
              have heff : Effect .none cfg now db.toLedger (exhaustLedger now row db.toLedger) :=
                .prelude (.exhaust hrow hexp hex)
              obtain ⟨mid, hmid⟩ : ∃ mid : Db, mid = { db with
                  toLedger := exhaustLedger now row db.toLedger
                  workers := exhaustWorkers row db.workers } := ⟨_, rfl⟩
              simp only [← hmid] at h
              have hledger : mid.toLedger = exhaustLedger now row db.toLedger := by rw [hmid]
              have hone : C.attempts mid.toLedger workerId + C.registry db workerId =
                  C.attempts db.toLedger workerId + C.registry mid workerId +
                    (C.misses db workerId (row, exhaustedStatus row)).toNat :=
                exhaust_balance hheld htime hrow hexp hmid
              have hokm := heff.ok hok
              have hrest := ih (hledger ▸ hokm) (hledger ▸ heff.held hok hheld)
                (hledger ▸ heff.timeline hok htime) h
              rw [misses_cleanups hokm hrow hmid, hledger] at hrest
              have hbit : (if C.misses db workerId (row, exhaustedStatus row) = true then 1 else 0) =
                  (C.misses db workerId (row, exhaustedStatus row)).toNat := by
                cases C.misses db workerId (row, exhaustedStatus row) <;> rfl
              rw [hledger] at hone
              rw [hbit]
              omega
          | false =>
              simp only [claimLoop, hcand, hex, Bool.false_eq_true, if_false] at h
              simp only [cleanups, hcand, hex, Bool.false_eq_true, if_false, List.map_nil,
                List.countP_nil]
              split at h
              · cases h
              · rename_i htake
                obtain ⟨-, rfl⟩ := Prod.mk.inj (Except.ok.inj h)
                obtain ⟨hattempts, hregistry⟩ := takeJob_balance hok htime hcand hex htake
                rw [hattempts, hregistry, Nat.add_zero]

end

namespace Coord

variable {cfg : Settings} {s t : Coord} {a : Action} {C : Counter} {workerId : String}

theorem reachable_held (h : (system cfg).Reachable s) : s.db.toLedger.Held := by
  refine h.induct (I := fun s => s.db.toLedger.Held) ?_ ?_
  · rintro s₀ ⟨hdb, -⟩
    rw [hdb]
    exact Ledger.Held.empty
  · intro u a v hu hheld hstep
    obtain ⟨-, jobs, -, hserves⟩ := step_serves (reachable_ok hu) hstep
    have hkeeps := hserves.commit.keeps (P := fun l => l.Ok ∧ l.Held)
      (fun heff hand => ⟨heff.ok hand.1, heff.held hand.1 hand.2⟩)
      ⟨(reachable_ok hu).ledger, hheld⟩
    exact hkeeps.2

/-- The settlements of an action that a counter misses. -/
def missed (C : Counter) (s : Coord) (a : Action) (workerId : String) : ℕ :=
  (settlements s a).countP (C.misses s.db workerId)

theorem finishing_scheduleRetry {now : Time} {l : Ledger} {job row : Job}
    (hfollows : job.Follows row) (howned : ownedRow now l job = some row) :
    Finishing row (if job.maxAttempts ≤ job.attempt then .failed else .retrying) := by
  split
  · exact Or.inl rfl
  · rename_i hbudget
    exact Or.inr ⟨rfl, hfollows.attempt_lt howned hbudget⟩

/-- A finish by whoever holds the handle. -/
theorem finish_tx_balance (h : (system cfg).Reachable s) {job : Job} (hjob : job ∈ s.handles)
    {status : JobStatus} (hstatus : ∀ row, job.Follows row →
      ownedRow s.now s.db.toLedger job = some row → Finishing row status) {error : Option String}
    {delay : Time} {job' : Job} {db' : Db}
    (heq : finish s.now job status error delay s.db = .ok (job', db')) :
    C.attempts db'.toLedger workerId + C.registry s.db workerId =
      C.attempts s.db.toLedger workerId + C.registry db' workerId +
        (settling s job status).countP (C.misses s.db workerId) := by
  have hok := reachable_ok h
  obtain ⟨row, hrow, hfollows⟩ := hok.handles job hjob
  cases howned : ownedRow s.now s.db.toLedger job with
  | none =>
      rw [finish_lost howned] at heq
      cases heq
  | some r =>
      obtain rfl : row = r := Option.some.inj (hrow.symm.trans (ownedRow_eq_some.mp howned).1)
      rw [finish_balance hok.ledger (reachable_held h) (reachable_timeline h) hfollows howned
        (hstatus row hfollows howned) heq, settling, howned]
      simp only [Option.toList_some, List.map_cons, List.map_nil, List.countP_cons,
        List.countP_nil, Nat.zero_add]
      cases C.misses s.db workerId (row, finishStatus status row) <;> rfl

/-- A registration counts nothing, and a new row starts at zero. -/
theorem registry_registerWorker {now : Time} {db db' : Db} {session claimer hostname version r : String}
    {pid : Int} (h : registerWorker cfg now session claimer hostname pid version db = .ok (r, db')) :
    C.registry db' workerId = C.registry db workerId := by
  unfold registerWorker at h
  split at h
  · rename_i hnone
    obtain ⟨-, rfl⟩ := Prod.mk.inj (Except.ok.inj h)
    simp only [Counter.registry, Table.get?_insertNew]
    split
    · rename_i hid
      obtain rfl : claimer = workerId := hid
      rw [hnone]
      cases C <;> rfl
    · rfl
  · split at h
    · obtain ⟨-, rfl⟩ := Prod.mk.inj (Except.ok.inj h)
      refine registry_update (f := fun w => { w with
        sessionId := session, hostname := hostname, pid := pid, version := version,
        status := .idle, startedAt := now, lastSeenAt := now, currentJobId := none })
        (fun _ => rfl) (fun w => ?_) rfl
      cases C <;> rfl
    · cases h

theorem registry_heartbeatWorker {now : Time} {db db' : Db} {claimer session : String}
    {currentJob : Option String}
    (h : heartbeatWorker now claimer session currentJob db = .ok ((), db')) :
    C.registry db' workerId = C.registry db workerId := by
  unfold heartbeatWorker at h
  split at h
  · obtain ⟨-, rfl⟩ := Prod.mk.inj (Except.ok.inj h)
    refine registry_update (f := fun w => { w with
      lastSeenAt := now
      status := if currentJob.any (· ≠ "") then .busy else .idle
      currentJobId := currentJob }) (fun _ => rfl) (fun w => ?_) rfl
    cases C <;> rfl
  · cases h

theorem registry_stopWorker {now : Time} {db db' : Db} {claimer session : String}
    (h : stopWorker now claimer session db = .ok ((), db')) :
    C.registry db' workerId = C.registry db workerId := by
  obtain ⟨-, rfl⟩ := Prod.mk.inj (Except.ok.inj h)
  refine registry_update (f := fun w =>
    { w with status := .stopped, currentJobId := none, lastSeenAt := now })
    (fun _ => rfl) (fun w => ?_) rfl
  cases C <;> rfl

/-- An action that settles nothing moves neither side. -/
theorem balance_of_same {db : Db} (hset : settlements s a = [])
    (hattempts : C.attempts db.toLedger workerId = C.attempts s.db.toLedger workerId)
    (hregistry : C.registry db workerId = C.registry s.db workerId) :
    C.attempts db.toLedger workerId + C.registry s.db workerId =
      C.attempts s.db.toLedger workerId + C.registry db workerId + missed C s a workerId := by
  rw [missed, hset, hattempts, hregistry]
  rfl

/-- What an answer does to the counters and to what they count. -/
theorem answer_balance (h : (system cfg).Reachable s) (hadm : s.Admissible a) {reply : Reply}
    {db : Db} (hans : s.answer cfg a = .ok (reply, db)) :
    C.attempts db.toLedger workerId + C.registry s.db workerId =
      C.attempts s.db.toLedger workerId + C.registry db workerId + missed C s a workerId := by
  have hok := reachable_ok h
  have htime := reachable_timeline h
  cases ha : a.writesRegistry with
  | false =>
      have hframe := answer_frame ha hans
      refine balance_of_same ?_ (by rw [Counter.attempts, hframe.attempts]; rfl)
        (by rw [Counter.registry, hframe.workers]; rfl)
      cases a <;> first | rfl | cases ha
  | true =>
      unfold answer at hans
      cases a with
      | registerWorker _ _ _ _ _ =>
          obtain ⟨_, heq, -⟩ := replying_ok hans
          exact balance_of_same rfl (by rw [registerWorker_ledger heq]) (registry_registerWorker heq)
      | heartbeatWorker _ _ _ =>
          obtain ⟨_, heq, -⟩ := replying_ok hans
          exact balance_of_same rfl (by rw [heartbeatWorker_ledger heq]) (registry_heartbeatWorker heq)
      | stopWorker _ _ =>
          simp only [Action.tx] at hans
          obtain ⟨_, heq, -⟩ := replying_ok hans
          have hledger : db.toLedger = s.db.toLedger := by
            obtain ⟨-, rfl⟩ := Prod.mk.inj (Except.ok.inj heq)
            rfl
          exact balance_of_same rfl (by rw [hledger]) (registry_stopWorker heq)
      | claimJob claimer session locked =>
          obtain ⟨r, heq, -⟩ := replying_ok hans
          unfold claimJob at heq
          split at heq
          · rename_i hlive
            rw [missed, settlements, if_pos hlive]
            exact claimLoop_balance hok.ledger (reachable_held h) htime heq
          · cases heq
      | renewLease job =>
          rcases hok.owner hadm rfl with ⟨-, _, herr⟩ | ⟨row, _, _, howned, -, -⟩
          · rw [answer, hans] at herr
            cases herr
          · obtain ⟨_, heq, -⟩ := replying_ok hans
            rw [renewLease_eq hok.ledger howned] at heq
            obtain ⟨-, rfl⟩ := Prod.mk.inj (Except.ok.inj heq)
            refine balance_of_same rfl ?_ rfl
            exact attempts_updateAttempt fun _ _ _ => rfl
      | completeJob job withErrors =>
          obtain ⟨_, heq, -⟩ := replying_ok hans
          exact (finish_tx_balance h (hadm job rfl) fun _ _ _ =>
            Or.inl (by cases withErrors <;> rfl)) heq
      | cancelJob job =>
          obtain ⟨_, heq, -⟩ := replying_ok hans
          exact (finish_tx_balance h (hadm job rfl) fun _ _ _ => Or.inl rfl) heq
      | failJob job error =>
          obtain ⟨_, heq, -⟩ := replying_ok hans
          exact (finish_tx_balance h (hadm job rfl) fun _ _ _ => Or.inl rfl) heq
      | scheduleRetry job error jitter =>
          obtain ⟨_, heq, -⟩ := replying_ok hans
          rw [scheduleRetry_eq] at heq
          exact (finish_tx_balance h (hadm job rfl) fun _ hfollows howned =>
            finishing_scheduleRetry hfollows howned) heq
      | _ => cases ha

/-- An action that raises settles nothing. -/
theorem settlements_of_error (h : (system cfg).Reachable s) (hadm : s.Admissible a) {e : Error}
    (hans : s.answer cfg a = .error e) : settlements s a = [] := by
  have hok := reachable_ok h
  have hsettling : ∀ {job : Job} (status : JobStatus), a.handle? = some job →
      settling s job status = [] := by
    intro job status ha
    rcases hok.owner hadm ha with ⟨hlost, -⟩ | ⟨_, _, _, -, heq, -⟩
    · rw [settling, hlost]
      rfl
    · rw [hans] at heq
      cases heq
  cases a with
  | completeJob _ _ | cancelJob _ | failJob _ _ | scheduleRetry _ _ _ => exact hsettling _ rfl
  | claimJob claimer session locked =>
      rw [settlements]
      split
      · rename_i hlive
        obtain ⟨r, db, hloop, -⟩ : ∃ r db,
            claimLoop cfg s.now claimer session locked 32 s.db = .ok (r, db) ∧
              sessionLive db claimer session = true := claimLoop_ok hok.ledger hlive
        have herr := replying_error.mp hans
        rw [claimJob, if_pos hlive, hloop] at herr
        cases herr
      · rfl
  | _ => rfl

/-- What a step does to the counters and to what they count. -/
theorem step_balance (h : (system cfg).Reachable s) (hstep : (system cfg).step s a t) :
    C.attempts t.db.toLedger workerId + C.registry s.db workerId =
      C.attempts s.db.toLedger workerId + C.registry t.db workerId + missed C s a workerId := by
  obtain ⟨hadm, rfl⟩ := hstep
  cases hans : s.answer cfg a with
  | error e =>
      rw [next_of_error hans]
      exact balance_of_same (settlements_of_error h hadm hans) rfl rfl
  | ok result =>
      obtain ⟨reply, db⟩ := result
      rw [next_of_ok hans]
      exact answer_balance h hadm hans

/-! ## Runs -/

/-- Every settlement that a counter counts finds the registry row of its worker naming the
job. -/
def NamesSettled (s : Coord) (a : Action) : Prop :=
  ∀ settled ∈ settlements s a, (∃ C : Counter, C.counts settled.2 = true) →
    names s.db settled.1 = true

/-- So does every step of the run. -/
def RunNames (cfg : Settings) : Coord → List Action → Prop
  | _, [] => True
  | s, a :: as => NamesSettled s a ∧ RunNames cfg (s.next cfg a) as

/-- What a counter misses in a run. -/
def missedRun (cfg : Settings) (C : Counter) (workerId : String) : Coord → List Action → ℕ
  | _, [] => 0
  | s, a :: as => missed C s a workerId + missedRun cfg C workerId (s.next cfg a) as

/-- A job whose attempt is settled runs. -/
theorem settlements_running (h : (system cfg).Reachable s) {settled : Job × JobStatus}
    (hmem : settled ∈ settlements s a) : settled.1.workerId.isSome = true := by
  have hok := (reachable_ok h).ledger
  have hsettling : ∀ {job : Job} {status : JobStatus}, settled ∈ settling s job status →
      settled.1.workerId.isSome = true := by
    intro job status hmem
    obtain ⟨row, hrow, rfl⟩ := List.mem_map.mp hmem
    have howned : ownedRow s.now s.db.toLedger job = some row := by simpa using hrow
    exact (hok.rows (ownedRow_get? howned)).worker.mpr (ownedRow_live howned).1
  cases a with
  | completeJob _ _ | cancelJob _ | failJob _ _ | scheduleRetry _ _ _ => exact hsettling hmem
  | claimJob claimer session locked =>
      rw [settlements] at hmem
      split at hmem
      · obtain ⟨row, hrow, rfl⟩ := List.mem_map.mp hmem
        obtain ⟨hget, hexp⟩ := mem_cleanups hok hrow
        exact (hok.rows hget).worker.mpr hexp.1
      · cases hmem
  | _ => cases hmem

theorem namesSettled_iff (h : (system cfg).Reachable s) :
    NamesSettled s a ↔ ∀ C workerId, missed C s a workerId = 0 := by
  simp only [missed, List.countP_eq_zero]
  constructor
  · intro hnames C workerId settled hmem hmiss
    simp only [Counter.misses, Bool.and_eq_true, Bool.not_eq_true'] at hmiss
    have hnamed := hnames settled hmem ⟨C, hmiss.1.2⟩
    rw [hmiss.2] at hnamed
    cases hnamed
  · rintro hzero settled hmem ⟨C, hcounts⟩
    obtain ⟨workerId, hworker⟩ := Option.isSome_iff_exists.mp (settlements_running h hmem)
    have hmiss := hzero C workerId settled hmem
    simpa [Counter.misses, hworker, hcounts] using hmiss

theorem runNames_iff (h : (system cfg).Reachable s) {as : List Action}
    (hrun : (system cfg).Run s as t) :
    RunNames cfg s as ↔ ∀ C workerId, missedRun cfg C workerId s as = 0 := by
  induction hrun with
  | nil s => simp [RunNames, missedRun]
  | @cons s m t a as hstep _ ih =>
      obtain rfl : m = s.next cfg a := hstep.2
      rw [RunNames, namesSettled_iff h, ih (h.step hstep)]
      simp only [missedRun, Nat.add_eq_zero_iff, forall_and]

theorem run_balance (h : (system cfg).Reachable s) {as : List Action}
    (hrun : (system cfg).Run s as t) :
    C.attempts t.db.toLedger workerId + C.registry s.db workerId =
      C.attempts s.db.toLedger workerId + C.registry t.db workerId +
        missedRun cfg C workerId s as := by
  induction hrun with
  | nil s => rfl
  | @cons s m t a as hstep _ ih =>
      obtain rfl : m = s.next cfg a := hstep.2
      have hone : C.attempts (s.next cfg a).db.toLedger workerId + C.registry s.db workerId =
          C.attempts s.db.toLedger workerId + C.registry (s.next cfg a).db workerId +
            missed C s a workerId := step_balance h hstep
      have hrest := ih (h.step hstep)
      rw [missedRun]
      omega

/-- The counters agree with the attempts after a run whose settlements are all counted, and
after no other. -/
theorem countersMatch_iff {s₀ : Coord} (h₀ : (system cfg).init s₀) {as : List Action}
    (hrun : (system cfg).Run s₀ as t) : CountersMatch t.db ↔ RunNames cfg s₀ as := by
  have hbalance : ∀ C workerId, C.attempts t.db.toLedger workerId =
      C.registry t.db workerId + missedRun cfg C workerId s₀ as := by
    intro C workerId
    have hrun' : C.attempts t.db.toLedger workerId + C.registry s₀.db workerId =
        C.attempts s₀.db.toLedger workerId + C.registry t.db workerId +
          missedRun cfg C workerId s₀ as := run_balance (.init h₀) hrun
    have hzero : C.registry s₀.db workerId = 0 ∧ C.attempts s₀.db.toLedger workerId = 0 := by
      rw [h₀.1]
      exact ⟨rfl, rfl⟩
    omega
  rw [runNames_iff (.init h₀) hrun]
  constructor
  · intro hmatch C workerId
    have heq := hmatch C workerId
    have hdiff := hbalance C workerId
    omega
  · intro hzero C workerId
    rw [hbalance, hzero, Nat.add_zero]

end Coord

end RepoMesh
