import RepoMesh.AttemptHistory

/-!
# No job is stranded

What one fresh worker does to a store that everybody else has left: it waits
until every lease and every retry delay is over, claims, and completes what it
got. As long as some job is not terminal, the claim finds a candidate: a waiting
job can be kept from running only by a running one of its repository, which is
then a candidate itself. Every candidate that is finalised or claimed uses up
some of `potential`.
-/

namespace RepoMesh

/-! ## What is left to do -/

/-- The claims and finalisations a job has left. -/
def Job.potential (row : Job) : ℕ :=
  if row.status.terminal then 0 else row.maxAttempts - row.attempt + 1

def Ledger.potential (l : Ledger) : ℕ :=
  (l.jobs.rows.map Job.potential).sum

/-- The number of jobs that are not terminal. -/
def Ledger.unfinished (l : Ledger) : ℕ :=
  (l.jobs.rows.map fun row => if row.status.terminal then 0 else 1).sum

/-- Every lease has expired and every delay is over. -/
def Ledger.Due (now : Time) (l : Ledger) : Prop :=
  ∀ row ∈ l.jobs.rows, row.availableAt ≤ now ∧ ∀ e, row.leaseExpiresAt = some e → e ≤ now

section

variable {cfg : Settings} {now : Time} {l m : Ledger} {row : Job}

theorem sum_setJob (row' : Job) (hrow : l.jobs.get? row.id = some row) (hid : row'.id = row.id)
    (μ : Job → ℕ) :
    ((l.setJob row').jobs.rows.map μ).sum + μ row = (l.jobs.rows.map μ).sum + μ row' := by
  have hmem := Table.mem_of_get? hrow
  have honly : ∀ x ∈ l.jobs.rows, decide (x.id = row'.id) = true ↔ x = row := by
    intro x hx
    rw [decide_eq_true_iff, hid]
    constructor
    · intro heq
      exact Table.eq_of_key hx hmem heq
    · rintro rfl
      rfl
  have hsum : ((l.setJob row').jobs.rows.map μ).sum + μ row =
      (l.jobs.rows.map μ).sum + μ { row' with id := row.id } :=
    Table.sum_update (fun j : Job => ({ row' with id := j.id } : Job)) (fun _ => rfl) hmem honly μ
  have hrow' : ({ row' with id := row.id } : Job) = row' := by rw [← hid]
  rw [hrow'] at hsum
  exact hsum

/-- A job step never adds to what is left of a job, and takes some unless it is
a renewal, a progress update or a cancellation. -/
theorem potential_claim (workerId : String) (hterm : row.status.terminal = false)
    (hex : exhausted row = false) :
    (claimedRow cfg now workerId row).potential < row.potential := by
  have hlt := (exhausted_eq_false.mp hex).2
  have hclaimed : (claimedRow cfg now workerId row).potential =
      row.maxAttempts - (row.attempt + 1) + 1 := rfl
  rw [hclaimed, Job.potential, hterm, if_neg Bool.false_ne_true]
  omega

theorem potential_exhaust (hterm : row.status.terminal = false) :
    (exhaustedRow now row).potential < row.potential := by
  have hzero : (exhaustedRow now row).potential = 0 := if_pos (exhaustedStatus_terminal row)
  rw [hzero, Job.potential, hterm, if_neg Bool.false_ne_true]
  omega

theorem potential_finish {status : JobStatus} {error : Option String} {delay : Time}
    (hterm : row.status.terminal = false) :
    (finishRow now status error delay row).potential ≤ row.potential := by
  have hfinish : (finishRow now status error delay row).potential =
      if (finishStatus status row).terminal then 0 else row.maxAttempts - row.attempt + 1 := rfl
  rw [hfinish, Job.potential, hterm, if_neg Bool.false_ne_true]
  split <;> omega

/-! ## The cleanup -/

theorem exhaustLedger_potential (hrow : l.jobs.get? row.id = some row) (hexp : Expired now row) :
    (exhaustLedger now row l).potential < l.potential ∧
      (exhaustLedger now row l).unfinished + 1 = l.unfinished := by
  have hdrop : (exhaustedRow now row).potential < row.potential :=
    potential_exhaust hexp.not_terminal
  have hpotential := sum_setJob (exhaustedRow now row) hrow rfl Job.potential
  have hunfinished := sum_setJob (exhaustedRow now row) hrow rfl
    fun r => if r.status.terminal then 0 else 1
  have hterm : (exhaustedRow now row).status.terminal = true := exhaustedStatus_terminal row
  simp only [hexp.not_terminal, hterm, if_true, Bool.false_eq_true, if_false] at hunfinished
  unfold Ledger.potential Ledger.unfinished
  rw [exhaustLedger_jobs]
  constructor
  · omega
  · omega

theorem exhaustLedger_due (hrow : l.jobs.get? row.id = some row) (h : l.Due now) :
    (exhaustLedger now row l).Due now := by
  intro r hr
  have hget := Table.get?_of_mem hr
  rw [get?_jobs_exhaustLedger hrow] at hget
  split at hget
  · obtain rfl := Option.some.inj hget
    refine ⟨(h row (Table.mem_of_get? hrow)).1, ?_⟩
    intro e he
    cases he
  · exact h r (Table.mem_of_get? hget)

theorem Cleanup.facts {locked : Job → Bool} {n : ℕ} (h : Cleanup now locked n l m) (hok : l.Ok)
    (hdue : l.Due now) :
    m.Ok ∧ m.Due now ∧ m.potential + n ≤ l.potential ∧ m.unfinished + n = l.unfinished := by
  induction h with
  | nil l => exact ⟨hok, hdue, le_refl _, rfl⟩
  | @cons n l m row hcand hexp _ _ ih =>
      have hrow := (claimCandidate_eq_some hcand).1
      obtain ⟨hokm, hduem, hpot, hleft⟩ :=
        ih (exhaustLedger_ok hok hrow hexp) (exhaustLedger_due hrow hdue)
      obtain ⟨hdrop, hone⟩ := exhaustLedger_potential hrow hexp
      exact ⟨hokm, hduem, by omega, by omega⟩

/-- Without row locks, when everything is due the claim query is empty only if no
job is left. -/
theorem all_terminal_of_no_candidate (hok : l.Ok) (hdue : l.Due now)
    (h : claimCandidate now (fun _ => false) l = none) :
    ∀ row ∈ l.jobs.rows, row.status.terminal = true := by
  have hnot : ∀ j ∈ l.jobs.rows, ∀ e, l.execution.get? j.repositoryId = some e →
      (e.activeJobId = none ∨ e.activeJobId = some j.id) → ¬ Runnable now j := by
    intro j hj e he hfree hrun
    have hlocked := claimCandidate_eq_none h j hj (claimable_iff.mpr ⟨e, he, hfree, hrun⟩)
    cases hlocked
  have hrunning : ∀ j ∈ l.jobs.rows, j.status ≠ .running := by
    intro j hj hrun
    have hget := Table.get?_of_mem hj
    have hexec := hok.running hget hrun
    obtain ⟨e, he⟩ := Option.isSome_iff_exists.mp ((hok.rows hget).lease.mpr hrun)
    exact hnot j hj _ hexec (Or.inr rfl) (Or.inr ⟨hrun, e, he, (hdue j hj).2 e he⟩)
  intro row hrow
  cases hterm : row.status.terminal with
  | true => rfl
  | false =>
      have hget := Table.get?_of_mem hrow
      have hw : row.status.waiting = true :=
        (JobStatus.waiting_or_running_of_not_terminal hterm).resolve_right (hrunning row hrow)
      obtain ⟨e, he⟩ := Option.isSome_iff_exists.mp (hok.reserved hget)
      have hrunnable : Runnable now row := Or.inl ⟨hw, (hdue row hrow).1⟩
      cases hactive : e.activeJobId with
      | none => exact absurd hrunnable (hnot row hrow e he (Or.inl hactive))
      | some id =>
          obtain ⟨j, hj, -, hjrun⟩ := hok.active he hactive
          exact absurd hjrun (hrunning j (Table.mem_of_get? hj))

theorem exists_wait (now : Int) (bounds : List Int) : ∃ wait : ℕ, ∀ b ∈ bounds, b ≤ now + wait := by
  induction bounds with
  | nil =>
      refine ⟨0, ?_⟩
      intro b hb
      cases hb
  | cons x bounds ih =>
      obtain ⟨wait, hwait⟩ := ih
      refine ⟨wait + (x - now).toNat, ?_⟩
      intro b hb
      rcases List.mem_cons.mp hb with rfl | hmem
      · omega
      · have hb := hwait b hmem
        omega

/-- Time passes every lease and every delay. -/
theorem exists_due (l : Ledger) (now : Time) : ∃ wait : ℕ, l.Due (now + wait) := by
  obtain ⟨wait, hwait⟩ := exists_wait now
    (l.jobs.rows.flatMap fun row => row.availableAt :: row.leaseExpiresAt.toList)
  refine ⟨wait, ?_⟩
  intro row hrow
  constructor
  · exact hwait _ (List.mem_flatMap.mpr ⟨row, hrow, List.mem_cons_self⟩)
  · intro e he
    refine hwait _ (List.mem_flatMap.mpr ⟨row, hrow, List.mem_cons_of_mem _ ?_⟩)
    rw [he, Option.toList_some, List.mem_singleton]

/-! ## The claim of a live session -/

variable {db db' : Db} {workerId session : String}

theorem sessionLive_iff : sessionLive db workerId session = true ↔
    ∃ w, db.workers.get? workerId = some w ∧ w.sessionId = session ∧ w.status ≠ .stopped := by
  unfold sessionLive
  cases db.workers.get? workerId <;> simp

/-- No session is renamed or stopped. -/
def KeepsSessions (t t' : Table WorkerRow.workerId) : Prop :=
  ∀ k w, t.get? k = some w → ∃ w', t'.get? k = some w' ∧ w'.sessionId = w.sessionId ∧
    (w.status ≠ .stopped → w'.status ≠ .stopped)

theorem exhaustWorkers_keeps (row : Job) (t : Table WorkerRow.workerId) :
    KeepsSessions t (exhaustWorkers row t) := by
  intro k w hw
  refine ⟨_, by rw [exhaustWorkers, Table.get?_update, hw, Option.map_some], ?_⟩
  split <;> simp

theorem claimWorkers_keeps (now : Time) (workerId jobId : String)
    (t : Table WorkerRow.workerId) : KeepsSessions t (claimWorkers now workerId jobId t) := by
  intro k w hw
  refine ⟨_, by rw [claimWorkers, Table.get?_update, hw, Option.map_some], ?_⟩
  split <;> simp

theorem finishWorkers_keeps (job : Job) (status : JobStatus) (t : Table WorkerRow.workerId) :
    KeepsSessions t (finishWorkers job status t) := by
  intro k w hw
  refine ⟨_, by rw [finishWorkers, Table.get?_update, hw, Option.map_some], ?_⟩
  split <;> simp

theorem KeepsSessions.live (hkeeps : KeepsSessions db.workers db'.workers)
    (h : sessionLive db workerId session = true) :
    sessionLive db' workerId session = true := by
  obtain ⟨w, hw, hid, hrun⟩ := sessionLive_iff.mp h
  obtain ⟨w', hw', hid', hrun'⟩ := hkeeps workerId w hw
  exact sessionLive_iff.mpr ⟨w', hw', hid'.trans hid, hrun' hrun⟩

/-- With a live session the loop always commits, and the session stays live. -/
theorem claimLoop_ok {locked : Job → Bool} {n : ℕ} (hok : db.toLedger.Ok)
    (hlive : sessionLive db workerId session = true) :
    ∃ r db', claimLoop cfg now workerId session locked n db = .ok (r, db') ∧
      sessionLive db' workerId session = true := by
  induction n generalizing db with
  | zero => exact ⟨none, db, rfl, hlive⟩
  | succ n ih =>
      cases hcand : claimCandidate now locked db.toLedger with
      | none => exact ⟨none, db, by simp only [claimLoop, hcand], hlive⟩
      | some row =>
          obtain ⟨hrow, hclaim, -, -⟩ := claimCandidate_eq_some hcand
          obtain ⟨-, -, -, hrun⟩ := claimable_iff.mp hclaim
          cases hex : exhausted row with
          | true =>
              have hexp := hrun.expired_of_exhausted (hok.rows hrow) hex
              obtain ⟨r, db', heq, hlive'⟩ : ∃ r db',
                  claimLoop cfg now workerId session locked n { db with
                    toLedger := exhaustLedger now row db.toLedger
                    workers := exhaustWorkers row db.workers } = .ok (r, db') ∧
                  sessionLive db' workerId session = true := ih
                (exhaustLedger_ok hok hrow hexp)
                ((exhaustWorkers_keeps row db.workers).live hlive)
              refine ⟨r, db', ?_, hlive'⟩
              simp only [claimLoop, hcand, hex, if_true, exhaustJob_eq hok hrow hexp]
              exact heq
          | false =>
              obtain ⟨w, hw, hid, -⟩ := sessionLive_iff.mp hlive
              refine ⟨some (claimedRow cfg now workerId row), { db with
                  toLedger := claimLedger cfg now workerId row db.toLedger
                  workers := claimWorkers now workerId row.id db.workers }, ?_, ?_⟩
              · simp only [claimLoop, hcand, hex, Bool.false_eq_true, if_false,
                  takeJob_eq hok hrow hclaim hex, hw, hid, if_true]
              · exact (claimWorkers_keeps now workerId row.id db.workers).live hlive

/-- A claim without row locks when everything is due: it leaves less to do, or
leaves nothing. Unless it used up its iterations, it returns no job only in the
second case. -/
theorem claimJob_progress (hok : db.toLedger.Ok) (hdue : db.toLedger.Due now)
    (hlive : sessionLive db workerId session = true) :
    ∃ r db', claimJob cfg now workerId session (fun _ => false) db = .ok (r, db') ∧
      sessionLive db' workerId session = true ∧
      (db'.toLedger.potential < db.toLedger.potential ∨
        r = none ∧ ∀ row ∈ db'.jobs.rows, row.status.terminal = true) ∧
      (r = none → db.toLedger.unfinished < db'.toLedger.unfinished + 32 →
        ∀ row ∈ db'.jobs.rows, row.status.terminal = true) := by
  obtain ⟨r, db', heq, hlive'⟩ : ∃ r db',
      claimLoop cfg now workerId session (fun _ => false) 32 db = .ok (r, db') ∧
        sessionLive db' workerId session = true := claimLoop_ok hok hlive
  refine ⟨r, db', ?_, hlive', ?_⟩
  · unfold claimJob
    rw [if_pos hlive, heq]
  obtain ⟨k, m, hclean, hend⟩ := claimLoop_cases hok heq
  obtain ⟨hokm, hduem, hpot, hleft⟩ := hclean.facts hok hdue
  rcases hend with ⟨hr, hdb, rfl | ⟨hk, hnone⟩⟩ | ⟨row, hk, hcand, hex, hr, hdb⟩
  · rw [hdb]
    exact ⟨Or.inl (by omega), fun _ hfew => absurd hfew (by omega)⟩
  · have hall := all_terminal_of_no_candidate hokm hduem hnone
    rw [← hdb] at hall
    exact ⟨Or.inr ⟨hr, hall⟩, fun _ _ => hall⟩
  · obtain ⟨hrow, hclaim, -, -⟩ := claimCandidate_eq_some hcand
    obtain ⟨-, -, -, hrun⟩ := claimable_iff.mp hclaim
    have hdrop : (claimedRow cfg now workerId row).potential < row.potential :=
      potential_claim workerId hrun.not_terminal hex
    have hsum := sum_setJob (claimedRow cfg now workerId row) hrow rfl Job.potential
    have hclaimed : db'.toLedger.potential < m.potential := by
      rw [hdb]
      unfold Ledger.potential
      rw [claimLedger_jobs]
      omega
    exact ⟨Or.inl (by omega), fun hnone => by rw [hr] at hnone; cases hnone⟩

end

/-! ## The last worker -/

/-- What a worker may choose in a round: how long it waits before it claims, how
long the job takes, and how the job ends. -/
structure Round where
  wait : ℕ
  work : ℕ
  withErrors : Bool

namespace Coord

/-- `claim_job` when no other session holds row locks. -/
def claimAlone (workerId session : String) : Action :=
  .claimJob workerId session fun _ => false

/-- One round: wait, claim, work, complete what was claimed. A completion that
comes too late is rejected and the round is over. -/
def round (cfg : Settings) (workerId session : String) (r : Round) (s : Coord) : Coord :=
  let waited := s.next cfg (.advance r.wait)
  let claimed := waited.next cfg (claimAlone workerId session)
  match waited.answer cfg (claimAlone workerId session) with
  | .ok (.job job, _) =>
      (claimed.next cfg (.advance r.work)).next cfg (.completeJob job r.withErrors)
  | _ => claimed

/-- The store after so many rounds. -/
def rounds (cfg : Settings) (workerId session : String) (schedule : ℕ → Round) (s : Coord) :
    ℕ → Coord
  | 0 => s
  | n + 1 => round cfg workerId session (schedule n) (rounds cfg workerId session schedule s n)

variable {cfg : Settings} {workerId session : String} {s : Coord}

theorem completeJob_potential (hok : s.Ok) {job : Job} (hjob : job ∈ s.handles)
    (withErrors : Bool) :
    (s.next cfg (.completeJob job withErrors)).db.toLedger.potential ≤
        s.db.toLedger.potential ∧
      (sessionLive s.db workerId session = true →
        sessionLive (s.next cfg (.completeJob job withErrors)).db workerId session = true) := by
  obtain ⟨row, hrow, hfollows⟩ := hok.handles job hjob
  cases howned : ownedRow s.now s.db.toLedger job with
  | none =>
      obtain ⟨message, hans⟩ : ∃ message,
          s.answer cfg (.completeJob job withErrors) = .error (.leaseLost message) :=
        tx_lost rfl howned
      rw [next, hans]
      exact ⟨le_refl _, id⟩
  | some r =>
      obtain rfl : row = r := Option.some.inj (hrow.symm.trans (ownedRow_eq_some.mp howned).1)
      have hstatus : Finishing row (if withErrors then .completedWithErrors else .completed) :=
        Or.inl (by cases withErrors <;> rfl)
      have hans : s.answer cfg (.completeJob job withErrors) = .ok _ :=
        replying_of_ok _ (finish_eq hok.ledger hfollows howned hstatus none 0)
      rw [next, hans]
      have hget := ownedRow_get? howned
      have hsum := sum_setJob (finishRow s.now
        (if withErrors then .completedWithErrors else .completed) none 0 row) hget rfl Job.potential
      have hdrop : (finishRow s.now (if withErrors then .completedWithErrors else .completed)
          none 0 row).potential ≤ row.potential :=
        potential_finish (ownedRow_live howned).not_terminal
      constructor
      · unfold Ledger.potential
        rw [finishLedger_jobs]
        omega
      · intro hlive
        exact (finishWorkers_keeps job _ s.db.workers).live hlive

/-- One round is a run, keeps the session, and leaves less to do or nothing. -/
theorem round_progress (hreach : (system cfg).Reachable s)
    (hlive : sessionLive s.db workerId session = true) (r : Round)
    (hdue : s.db.toLedger.Due (s.now + r.wait)) :
    (system cfg).Reachable (round cfg workerId session r s) ∧
      sessionLive (round cfg workerId session r s).db workerId session = true ∧
      ((round cfg workerId session r s).db.toLedger.potential < s.db.toLedger.potential ∨
        ∀ row ∈ (round cfg workerId session r s).db.jobs.rows, row.status.terminal = true) := by
  have hwaited : (system cfg).Reachable (s.next cfg (.advance r.wait)) :=
    hreach.step ⟨by simp [Admissible, Action.handle?], rfl⟩
  obtain ⟨reply, db', heq, hlive', hless, -⟩ : ∃ reply db',
      claimJob cfg (s.now + r.wait) workerId session (fun _ => false) s.db = .ok (reply, db') ∧ _ :=
    claimJob_progress (reachable_ok hreach).ledger hdue hlive
  have hans : (s.next cfg (.advance r.wait)).answer cfg (claimAlone workerId session) =
      .ok (Reply.ofJob? reply, db') := replying_of_ok _ heq
  have hclaimed : (system cfg).Reachable
      ((s.next cfg (.advance r.wait)).next cfg (claimAlone workerId session)) :=
    hwaited.step ⟨by simp [Admissible, Action.handle?, claimAlone], rfl⟩
  have hnext : (s.next cfg (.advance r.wait)).next cfg (claimAlone workerId session) =
      ⟨db', s.now + r.wait + (0 : ℕ), (Reply.ofJob? reply).jobs ++ s.handles⟩ := by
    rw [next, hans]
    rfl
  cases reply with
  | none =>
      have hround : round cfg workerId session r s =
          (s.next cfg (.advance r.wait)).next cfg (claimAlone workerId session) := by
        simp only [round, hans, Reply.ofJob?]
      rw [hround]
      refine ⟨hclaimed, ?_, ?_⟩
      · rw [hnext]
        exact hlive'
      · rw [hnext]
        exact hless.imp_right And.right
  | some job =>
      have hround : round cfg workerId session r s =
          (((s.next cfg (.advance r.wait)).next cfg (claimAlone workerId session)).next cfg
            (.advance r.work)).next cfg (.completeJob job r.withErrors) := by
        simp only [round, hans, Reply.ofJob?]
      have hworked := hclaimed.step (a := .advance r.work)
        (show (system cfg).step _ _ _ from ⟨by simp [Admissible, Action.handle?], rfl⟩)
      have hmem : job ∈ (((s.next cfg (.advance r.wait)).next cfg
          (claimAlone workerId session)).next cfg (.advance r.work)).handles := by
        rw [hnext]
        exact List.mem_cons_self
      obtain ⟨hpot, hkeep⟩ := completeJob_potential (reachable_ok hworked) hmem r.withErrors
      rw [hround]
      refine ⟨hworked.step ⟨?_, rfl⟩, hkeep ?_, Or.inl ?_⟩
      · intro j hj
        obtain rfl := Option.some.inj hj
        exact hmem
      · rw [hnext]
        exact hlive'
      · refine lt_of_le_of_lt hpot ?_
        rw [hnext]
        rcases hless with hless | ⟨hnone, -⟩
        · exact hless
        · cases hnone

/-- A fresh worker gets a live session. -/
theorem registerWorker_live (hfresh : s.db.workers.get? workerId = none) (hostname : String)
    (pid : Int) (version : String) :
    sessionLive (s.next cfg (.registerWorker session workerId hostname pid version)).db
      workerId session = true := by
  have heq : ∃ db', registerWorker cfg s.now session workerId hostname pid version s.db =
      .ok (session, db') ∧ sessionLive db' workerId session = true := by
    unfold registerWorker
    rw [hfresh]
    refine ⟨_, rfl, sessionLive_iff.mpr ⟨_, Table.get?_insertNew_self hfresh, rfl, ?_⟩⟩
    simp
  obtain ⟨db', heq, hlive⟩ := heq
  have hans : s.answer cfg (.registerWorker session workerId hostname pid version) =
      .ok (.session session, db') := replying_of_ok _ heq
  rw [next, hans]
  exact hlive

theorem rounds_progress (hreach : (system cfg).Reachable s)
    (hlive : sessionLive s.db workerId session = true) (schedule : ℕ → Round)
    (hdue : ∀ n, (rounds cfg workerId session schedule s n).db.toLedger.Due
      ((rounds cfg workerId session schedule s n).now + (schedule n).wait)) (n : ℕ) :
    (system cfg).Reachable (rounds cfg workerId session schedule s n) ∧
      sessionLive (rounds cfg workerId session schedule s n).db workerId session = true ∧
      ((∃ m, ∀ row ∈ (rounds cfg workerId session schedule s m).db.jobs.rows,
          row.status.terminal = true) ∨
        (rounds cfg workerId session schedule s n).db.toLedger.potential + n ≤
          s.db.toLedger.potential) := by
  induction n with
  | zero => exact ⟨hreach, hlive, Or.inr (le_refl _)⟩
  | succ n ih =>
      obtain ⟨hreachn, hliven, hpot⟩ := ih
      obtain ⟨hreach', hlive', hless⟩ := round_progress hreachn hliven (schedule n) (hdue n)
      refine ⟨hreach', hlive', ?_⟩
      rcases hpot with hdone | hpot
      · exact Or.inl hdone
      · rcases hless with hless | hdone
        · right
          show (round cfg workerId session (schedule n)
            (rounds cfg workerId session schedule s n)).db.toLedger.potential + (n + 1) ≤ _
          omega
        · exact Or.inl ⟨n + 1, hdone⟩

/-- No job is ever stranded: the rounds of one fresh worker finish every job, and
a claim that finds nothing, with iterations to spare, finds nothing left. -/
theorem no_job_stranded (hreach : (system cfg).Reachable s)
    (hfresh : s.db.workers.get? workerId = none) (hostname : String) (pid : Int)
    (version : String) :
    (∀ schedule : ℕ → Round,
      (∀ n, (rounds cfg workerId session schedule
          (s.next cfg (.registerWorker session workerId hostname pid version)) n).db.toLedger.Due
        ((rounds cfg workerId session schedule
          (s.next cfg (.registerWorker session workerId hostname pid version)) n).now +
            (schedule n).wait)) →
      ∃ n, ∀ row ∈ (rounds cfg workerId session schedule
          (s.next cfg (.registerWorker session workerId hostname pid version)) n).db.jobs.rows,
        row.status.terminal = true) ∧
    (∀ t : Coord, ∃ wait : ℕ, t.db.toLedger.Due (t.now + wait)) ∧
    ∀ t : Coord, (system cfg).Reachable t → sessionLive t.db workerId session = true →
      t.db.toLedger.Due t.now → ∀ db',
      t.answer cfg (claimAlone workerId session) = .ok (.noJob, db') →
      t.db.toLedger.unfinished < db'.toLedger.unfinished + 32 →
      ∀ row ∈ db'.jobs.rows, row.status.terminal = true := by
  have hstart : (system cfg).Reachable
      (s.next cfg (.registerWorker session workerId hostname pid version)) :=
    hreach.step ⟨by simp [Admissible, Action.handle?], rfl⟩
  have hlive : sessionLive
      (s.next cfg (.registerWorker session workerId hostname pid version)).db
      workerId session = true := registerWorker_live hfresh hostname pid version
  refine ⟨?_, ?_, ?_⟩
  · intro schedule hdue
    obtain ⟨-, -, hdone | hpot⟩ := rounds_progress hstart hlive schedule hdue
      ((s.next cfg (.registerWorker session workerId hostname pid version)).db.toLedger.potential
        + 1)
    · exact hdone
    · omega
  · intro t
    exact exists_due t.db.toLedger t.now
  · intro t ht hlivet hdue db' hans hfew
    obtain ⟨r, db'', heq, -, -, hnone⟩ : ∃ r db'',
        claimJob cfg t.now workerId session (fun _ => false) t.db = .ok (r, db'') ∧ _ :=
      claimJob_progress (reachable_ok ht).ledger hdue hlivet
    have hans' : t.answer cfg (claimAlone workerId session) = .ok (Reply.ofJob? r, db'') :=
      replying_of_ok _ heq
    rw [hans'] at hans
    obtain ⟨hr, rfl⟩ := Prod.mk.inj (Except.ok.inj hans)
    cases r with
    | none => exact hnone rfl hfew
    | some job => cases hr

/-- A worker that waits for the lease of the claimed job, and then not at all. -/
def takeover : ℕ → Round
  | 0 => ⟨30000000, 0, false⟩
  | _ + 1 => ⟨0, 0, false⟩

/-- The worker of `oneClaim` is gone; a second one finishes its job. -/
theorem no_job_stranded_takeover :
    ∃ n, ∀ row ∈ (rounds .default "worker-2" "session-2" takeover
        (((empty 0).exec .default oneClaim).next .default
          (.registerWorker "session-2" "worker-2" "host" 2 "1")) n).db.jobs.rows,
      row.status.terminal = true := by
  refine (no_job_stranded (reachable_exec (by decide)) rfl "host" 2 "1").1 takeover ?_
  intro n
  have hfix : ∀ n, rounds .default "worker-2" "session-2" takeover
      (((empty 0).exec .default oneClaim).next .default
        (.registerWorker "session-2" "worker-2" "host" 2 "1")) (n + 1) =
      rounds .default "worker-2" "session-2" takeover
      (((empty 0).exec .default oneClaim).next .default
        (.registerWorker "session-2" "worker-2" "host" 2 "1")) 1 := by
    intro n
    induction n with
    | zero => rfl
    | succ n ih =>
        show round .default "worker-2" "session-2" ⟨0, 0, false⟩ (rounds _ _ _ _ _ (n + 1)) = _
        rw [ih]
        rfl
  have hrows : ∀ l : Ledger, ∀ now : Time, (l.jobs.rows.all fun row =>
      row.availableAt ≤ now && row.leaseExpiresAt.all (· ≤ now)) = true → l.Due now := by
    intro l now h row hrow
    have hrow := List.all_eq_true.mp h row hrow
    simpa [Option.all_eq_true] using hrow
  cases n with
  | zero => exact hrows _ _ (by decide)
  | succ n =>
      have hwait : takeover (n + 1) = ⟨0, 0, false⟩ := rfl
      rw [hfix, hwait]
      exact hrows _ _ (by decide)

end Coord

end RepoMesh
