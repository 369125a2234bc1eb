import RepoMesh.AttemptEnds
import RepoMesh.Completion
import RepoMesh.Paging

/-!
# The history of a job

`job_history` reads the attempts of a job and the errors that passes over its files met, in
one snapshot. The attempts count the generations up from one, and each was over when the
next one was claimed; the last one is open while the job runs and says afterwards how it
ended. Every error was met under one of them, while it was open.
-/

namespace RepoMesh

/-- `ORDER BY created_at DESC,file_path` -/
def FileError.newestFirst (e : FileError) : Timeᵒᵈ ×ₗ String :=
  toLex (OrderDual.toDual e.createdAt, e.filePath)

structure JobHistory where
  attempts : List Attempt
  fileErrors : List FileError
  fileErrorTotal : ℕ

def jobHistory (jobId : String) (db : Db) : Option JobHistory :=
  if (db.jobs.get? jobId).isSome then
    some {
      attempts := sortBy Attempt.leaseGeneration (db.attempts.rows.filter (·.jobId = jobId))
      fileErrors := (sortBy FileError.newestFirst (db.fileErrors.filter (·.jobId = jobId))).take 200
      fileErrorTotal := db.fileErrors.countP (·.jobId = jobId) }
  else none

def wasReclaimed (job : Job) (l : Ledger) : Bool :=
  (l.attempts.get? job.lease).any (·.reclaimed)

/-! ## The order of the attempts and the end of the last one -/

/-- The attempts of a job follow each other, and the last one ended as the job shows. A job that
waits for a retry is cancelled without another attempt. -/
structure Ledger.Told (l : Ledger) : Prop where
  order : ∀ {id g g' a b}, l.attempts.get? (id, g) = some a → l.attempts.get? (id, g') = some b →
    g < g' → a.Before b
  last : ∀ {id row a}, l.jobs.get? id = some row → row.status ≠ .running →
    l.attempts.get? (id, row.leaseGeneration) = some a →
    a.outcome = some (.status row.status) ∨
      row.status = .cancelled ∧ a.outcome = some (.status .retrying)

theorem Ledger.Told.empty : Ledger.empty.Told where
  order := by
    intro id g g' a b h
    cases h
  last := by
    intro id row a h
    cases h

section

variable {R : Rights} {cfg : Settings} {now : Time} {l l' : Ledger}

theorem attempt_of_get? {id : String} {g : ℕ} {a : Attempt}
    (ha : l.attempts.get? (id, g) = some a) : a.jobId = id ∧ a.leaseGeneration = g :=
  Prod.mk.inj (show a.key = (id, g) from Table.key_of_get? ha)

/-- Only the last attempt of a job can be open. -/
theorem Ledger.Ok.ended_of_lt (hok : l.Ok) (htime : l.Timeline now) {id : String} {g g' : ℕ}
    {a b : Attempt} (ha : l.attempts.get? (id, g) = some a)
    (hb : l.attempts.get? (id, g') = some b) (hlt : g < g') : ∃ e, a.endedAt = some e := by
  cases he : a.endedAt with
  | some e => exact ⟨e, rfl⟩
  | none =>
      obtain ⟨row, hrow, -, hgen⟩ := (htime.current ha).mp he
      obtain ⟨r, hr, -, hle⟩ := (hok.attempts id g').mp (by rw [hb]; rfl)
      obtain rfl := Option.some.inj (hrow.symm.trans hr)
      omega

theorem Effect.told_order (h : Effect R cfg now l l') (hok : l.Ok) (htime : l.Timeline now)
    (ht : l.Told) {id : String} {g g' : ℕ} {a' b' : Attempt}
    (ha' : l'.attempts.get? (id, g) = some a') (hb' : l'.attempts.get? (id, g') = some b')
    (hlt : g < g') : a'.Before b' := by
  have hok' := h.ok hok
  have htime' := h.timeline hok htime
  obtain ⟨e, he⟩ := hok'.ended_of_lt htime' ha' hb' hlt
  rcases h.attempt_cases hok hb' with ⟨row, workerId, -, -, -, rfl, -⟩ | ⟨b, hb, hkept, -⟩
  · exact ⟨e, he, htime'.ended ha' he⟩
  · obtain ⟨row, hrow, hone, hle⟩ := (hok.attempts id g').mp (by rw [hb]; rfl)
    have hpos : 1 ≤ g := by
      obtain ⟨-, -, hone, -⟩ := (hok'.attempts id g).mp (by rw [ha']; rfl)
      exact hone
    obtain ⟨a, ha⟩ := Option.isSome_iff_exists.mp
      ((hok.attempts id g).mpr ⟨row, hrow, hpos, by omega⟩)
    obtain ⟨e, hend, hclaimed⟩ := ht.order ha hb hlt
    obtain ⟨a'', ha'', -, hfinal⟩ := h.attempt_kept hok htime ha
    obtain rfl : a' = a'' := Option.some.inj (ha'.symm.trans ha'')
    obtain rfl := hfinal (by rw [hend]; rfl)
    exact ⟨e, hend, hkept.claimedAt ▸ hclaimed⟩

theorem Effect.told_last (h : Effect R cfg now l l') (hok : l.Ok) (hs : l.Settled) (ht : l.Told)
    {id : String} {row' : Job} {a' : Attempt} (hrow' : l'.jobs.get? id = some row')
    (hstop : row'.status ≠ .running)
    (ha' : l'.attempts.get? (id, row'.leaseGeneration) = some a') :
    a'.outcome = some (.status row'.status) ∨
      row'.status = .cancelled ∧ a'.outcome = some (.status .retrying) := by
  cases h.touch hok id with
  | still hjobs hatt =>
      rw [hjobs] at hrow'
      rw [hatt] at ha'
      exact ht.last hrow' hstop ha'
  | born hfresh _ hborn hatt =>
      obtain rfl := Option.some.inj (hrow'.symm.trans hborn)
      obtain ⟨-, -, hone, -⟩ := ((h.ok hok).attempts id row'.leaseGeneration).mp (by rw [ha']; rfl)
      rw [hfresh.generation] at hone
      omega
  | @cancel row hrow hterm hnew hatt =>
      obtain rfl := Option.some.inj (hrow'.symm.trans hnew)
      rw [hatt] at ha'
      have hwaiting : row.status.waiting = true := by
        rcases JobStatus.waiting_or_running_of_not_terminal hterm with hw | hrun
        · exact hw
        · have hsame : (cancelRow now row).status = row.status := by
            rw [cancelRow, hrun]
            rfl
          exact absurd (hsame.trans hrun) hstop
      have hcancelled : (cancelRow now row).status = .cancelled := if_pos hwaiting
      refine Or.inr ⟨hcancelled, ?_⟩
      rcases ht.last hrow (JobStatus.ne_running_of_waiting hwaiting) ha' with hout | ⟨hc, -⟩
      · rcases hs.outcome ha' hout with hover | hretry
        · rw [hterm] at hover
          cases hover
        · rw [hout, hretry]
      · rw [hc] at hwaiting
        cases hwaiting
  | progress stats _ hlive hnew _ =>
      obtain rfl := Option.some.inj (hrow'.symm.trans hnew)
      exact absurd hlive.1 hstop
  | renew _ hlive hnew _ =>
      obtain rfl := Option.some.inj (hrow'.symm.trans hnew)
      exact absurd hlive.1 hstop
  | @exhaust row _ _ _ hnew hatt =>
      obtain rfl := Option.some.inj (hrow'.symm.trans hnew)
      rw [hatt] at ha'
      obtain ⟨a, -, rfl⟩ := Option.map_eq_some_iff.mp ha'
      rw [if_pos (show (exhaustedRow now row).leaseGeneration = row.leaseGeneration from rfl)]
      exact Or.inl rfl
  | claim workerId _ _ _ hnew _ =>
      obtain rfl := Option.some.inj (hrow'.symm.trans hnew)
      exact absurd rfl hstop
  | @finish row status error delay _ _ _ hnew hatt =>
      obtain rfl := Option.some.inj (hrow'.symm.trans hnew)
      rw [hatt] at ha'
      obtain ⟨a, -, rfl⟩ := Option.map_eq_some_iff.mp ha'
      rw [if_pos (show (finishRow now status error delay row).leaseGeneration =
        row.leaseGeneration from rfl)]
      exact Or.inl rfl

theorem Effect.told (h : Effect R cfg now l l') (hok : l.Ok) (htime : l.Timeline now)
    (hs : l.Settled) (ht : l.Told) : l'.Told :=
  ⟨h.told_order hok htime ht, h.told_last hok hs ht⟩

/-- Across an effect no attempt is closed in the past. -/
theorem Effect.attempt_ends (h : Effect R cfg now l l') (hok : l.Ok) (htime : l.Timeline now)
    {id : String} {g : ℕ} {a : Attempt} (ha : l.attempts.get? (id, g) = some a) :
    ∃ a', l'.attempts.get? (id, g) = some a' ∧ a.Kept a' ∧
      ∀ e, a'.endedAt = some e → a.endedAt = some e ∨ e = now := by
  obtain ⟨a', ha', hkept, -⟩ := h.attempt_kept hok htime ha
  refine ⟨a', ha', hkept, fun e he => ?_⟩
  cases h.turn hok htime ha ha' with
  | keep hsame _ => exact Or.inl (hsame ▸ he)
  | settle _ hnow _ _ | expire _ hnow _ _ _ =>
      exact Or.inr (Option.some.inj (he.symm.trans hnow))

end

/-! ## Who records file errors -/

section

variable {cfg : Settings} {now : Time} {db db' : Db} {job : Job}

theorem submitJob_fileErrors {uuid repositoryId mode : String} {key : Option String}
    {priority : Int} (h : submitJob cfg now uuid repositoryId mode key priority db = .ok (job, db')) :
    db'.fileErrors = db.fileErrors := by
  unfold submitJob at h
  grind

theorem resubmitJob_fileErrors {uuid jobId : String}
    (h : resubmitJob cfg now uuid jobId db = .ok (job, db')) : db'.fileErrors = db.fileErrors := by
  unfold resubmitJob at h
  grind [Db.trackSuccessor]

theorem registerWorker_fileErrors {session workerId hostname version r : String} {pid : Int}
    (h : registerWorker cfg now session workerId hostname pid version db = .ok (r, db')) :
    db'.fileErrors = db.fileErrors := by
  unfold registerWorker at h
  grind

theorem heartbeatWorker_fileErrors {workerId session : String} {currentJob : Option String}
    (h : heartbeatWorker now workerId session currentJob db = .ok ((), db')) :
    db'.fileErrors = db.fileErrors := by
  unfold heartbeatWorker at h
  grind

theorem claimLoop_fileErrors {workerId session : String} {locked : Job → Bool} {n : Nat}
    {r : Option Job} (h : claimLoop cfg now workerId session locked n db = .ok (r, db')) :
    db'.fileErrors = db.fileErrors := by
  induction n generalizing db with
  | zero =>
      obtain ⟨-, rfl⟩ := Prod.mk.inj (Except.ok.inj h)
      rfl
  | succ n ih =>
      simp only [claimLoop] at h
      grind [exhaustJob, takeJob]

theorem finish_fileErrors {status : JobStatus} {error : Option String} {delay : Time} {job' : Job}
    (h : finish now job status error delay db = .ok (job', db')) :
    db'.fileErrors = db.fileErrors := by
  unfold finish at h
  grind

theorem observe_fileErrors {uuid repositoryId fingerprint : String} {indexed : Option String}
    {reply : Option Job}
    (h : observe cfg now uuid repositoryId fingerprint indexed db = .ok (reply, db')) :
    db'.fileErrors = db.fileErrors := by
  cases observe_cases h <;> rfl

/-- An error recorded with the progress is of the owner's attempt and of this instant. -/
theorem updateProgress_fileErrors {stats : IndexStats} {path error : Option String}
    (h : updateProgress now job stats path error db = .ok ((), db')) {e : FileError}
    (he : e ∈ db'.fileErrors) :
    e ∈ db.fileErrors ∨
      (ownedRow now db.toLedger job).isSome = true ∧ (e.jobId, e.leaseGeneration) = job.lease ∧
        e.createdAt = now := by
  unfold updateProgress at h
  split at h
  · cases h
  rename_i row howned
  split at h
  · cases h
  split at h
  · split at h
    · obtain ⟨-, rfl⟩ := Prod.mk.inj (Except.ok.inj h)
      rcases List.mem_append.mp he with hold | hnew
      · exact Or.inl hold
      · obtain rfl := List.mem_singleton.mp hnew
        exact Or.inr ⟨by rw [howned]; rfl, rfl, rfl⟩
    · obtain ⟨-, rfl⟩ := Prod.mk.inj (Except.ok.inj h)
      exact Or.inl he
  · obtain ⟨-, rfl⟩ := Prod.mk.inj (Except.ok.inj h)
    exact Or.inl he

end

namespace Coord

variable {cfg : Settings} {s t : Coord} {a : Action}

theorem answer_fileErrors {reply : Reply} {db' : Db}
    (hans : s.answer cfg a = .ok (reply, db')) {e : FileError} (he : e ∈ db'.fileErrors) :
    e ∈ s.db.fileErrors ∨ ∃ job stats path error, a = .updateProgress job stats path error ∧
      (ownedRow s.now s.db.toLedger job).isSome = true ∧
      (e.jobId, e.leaseGeneration) = job.lease ∧ e.createdAt = s.now := by
  unfold answer at hans
  have hsame : db'.fileErrors = s.db.fileErrors → e ∈ s.db.fileErrors := fun h => h ▸ he
  cases a with
  | updateProgress job stats path error =>
      obtain ⟨_, heq, -⟩ := replying_ok hans
      exact (updateProgress_fileErrors heq he).imp_right fun hnew => ⟨_, _, _, _, rfl, hnew⟩
  | submitJob _ _ _ _ _ =>
      obtain ⟨_, heq, -⟩ := replying_ok hans
      exact Or.inl (hsame (submitJob_fileErrors heq))
  | resubmitJob _ _ =>
      obtain ⟨_, heq, -⟩ := replying_ok hans
      exact Or.inl (hsame (resubmitJob_fileErrors heq))
  | registerWorker _ _ _ _ _ =>
      obtain ⟨_, heq, -⟩ := replying_ok hans
      exact Or.inl (hsame (registerWorker_fileErrors heq))
  | heartbeatWorker _ _ _ =>
      obtain ⟨_, heq, -⟩ := replying_ok hans
      exact Or.inl (hsame (heartbeatWorker_fileErrors heq))
  | claimJob _ _ _ =>
      obtain ⟨_, heq, -⟩ := replying_ok hans
      unfold claimJob at heq
      split at heq
      · exact Or.inl (hsame (claimLoop_fileErrors heq))
      · cases heq
  | completeJob _ _ | cancelJob _ | failJob _ _ =>
      obtain ⟨_, heq, -⟩ := replying_ok hans
      exact Or.inl (hsame (finish_fileErrors heq))
  | scheduleRetry _ _ _ =>
      obtain ⟨_, heq, -⟩ := replying_ok hans
      rw [scheduleRetry_eq] at heq
      exact Or.inl (hsame (finish_fileErrors heq))
  | observe _ _ _ _ =>
      obtain ⟨_, heq, -⟩ := replying_ok hans
      exact Or.inl (hsame (observe_fileErrors heq))
  | assertOwnership _ | enterGuard _ | requestCancel _ | renewLease _ | importLegacyJobs _ =>
      obtain ⟨_, heq, -⟩ := replying_ok hans
      refine Or.inl (hsame ?_)
      grind [RepoMesh.assertOwnership, RepoMesh.enterGuard, RepoMesh.requestCancel,
        RepoMesh.renewLease, RepoMesh.importLegacyJobs]
  | getJob _ | stopWorker _ _ | ensure _ _ | setEnabled _ _ | recordError _ _ =>
      simp only [Action.tx] at hans
      obtain ⟨_, heq, -⟩ := replying_ok hans
      obtain ⟨-, rfl⟩ := Prod.mk.inj (Except.ok.inj heq)
      exact Or.inl he
  | advance _ =>
      obtain ⟨-, rfl⟩ := Prod.mk.inj (Except.ok.inj hans)
      exact Or.inl he

/-- The error was met under an attempt, while it was open. -/
def Met (s : Coord) (e : FileError) : Prop :=
  e.createdAt ≤ s.now ∧ ∃ a, s.db.attempts.get? (e.jobId, e.leaseGeneration) = some a ∧
    a.claimedAt ≤ e.createdAt ∧ ∀ ended, a.endedAt = some ended → e.createdAt ≤ ended

theorem reachable_told (h : (system cfg).Reachable s) : s.db.toLedger.Told := by
  refine h.induct (I := fun u => u.db.toLedger.Told) ?_ ?_
  · rintro s₀ ⟨hdb, -⟩
    rw [hdb]
    exact Ledger.Told.empty
  · intro u a v hu ht hstep
    obtain ⟨-, jobs, -, hserves⟩ := step_serves (reachable_ok hu) hstep
    refine (hserves.commit.induct (I := fun l => l.Settled ∧ l.Told) (reachable_ok hu).ledger
      (reachable_timeline hu) ⟨reachable_settled hu, ht⟩ ?_).2
    rintro m n heff hok htime ⟨hs, ht⟩
    exact ⟨heff.settled hok htime hs, heff.told hok htime hs ht⟩

/-- Across a step no attempt is closed in the past. -/
theorem step_attempt_ends (h : (system cfg).Reachable s) (hstep : (system cfg).step s a t)
    {k : Lease} {b : Attempt} (hb : s.db.attempts.get? k = some b) :
    ∃ b', t.db.attempts.get? k = some b' ∧ b.Kept b' ∧
      ∀ e, b'.endedAt = some e → b.endedAt = some e ∨ e = s.now := by
  obtain ⟨-, jobs, -, hserves⟩ := step_serves (reachable_ok h) hstep
  refine hserves.commit.induct (I := fun l => ∃ b', l.attempts.get? k = some b' ∧ b.Kept b' ∧
    ∀ e, b'.endedAt = some e → b.endedAt = some e ∨ e = s.now) (reachable_ok h).ledger
    (reachable_timeline h) ⟨b, hb, .refl b, fun _ => Or.inl⟩ ?_
  rintro m n heff hok htime ⟨c, hc, hkept, hends⟩
  obtain ⟨c', hc', hkept', hends'⟩ := heff.attempt_ends hok htime hc
  exact ⟨c', hc', hkept.trans hkept', fun e he => (hends' e he).elim (hends e) Or.inr⟩

theorem step_met (h : (system cfg).Reachable s) (hstep : (system cfg).step s a t)
    (hmet : ∀ e ∈ s.db.fileErrors, s.Met e) : ∀ e ∈ t.db.fileErrors, t.Met e := by
  have hnow := step_now hstep
  intro e he
  have hcase : e ∈ s.db.fileErrors ∨ ∃ job : Job, a.handle? = some job ∧
      (ownedRow s.now s.db.toLedger job).isSome = true ∧
      (e.jobId, e.leaseGeneration) = job.lease ∧ e.createdAt = s.now := by
    obtain ⟨-, rfl⟩ := hstep
    cases hans : s.answer cfg a with
    | error err =>
        rw [next_of_error hans] at he
        exact Or.inl he
    | ok result =>
        obtain ⟨reply, db⟩ := result
        rw [next_of_ok hans] at he
        rcases answer_fileErrors hans he with hold | ⟨job, _, _, _, rfl, hnew⟩
        · exact Or.inl hold
        · exact Or.inr ⟨job, rfl, hnew⟩
  rcases hcase with hold | ⟨job, hjob, howned, hkey, hcreated⟩
  · obtain ⟨hle, b, hb, hclaimed, hends⟩ := hmet e hold
    obtain ⟨b', hb', hkept, hends'⟩ := step_attempt_ends h hstep hb
    refine ⟨le_trans hle hnow, b', hb', hkept.claimedAt ▸ hclaimed, fun ended hended => ?_⟩
    rcases hends' ended hended with hsame | rfl
    · exact hends ended hsame
    · exact hle
  · obtain ⟨-, b, hb, hopen⟩ := owned_open h (hstep.1 job hjob) howned
    obtain ⟨b', hb', hkept, hends⟩ := step_attempt_ends h hstep hb
    refine ⟨hcreated ▸ hnow, b', hkey ▸ hb', ?_, fun ended hended => ?_⟩
    · rw [hkept.claimedAt, hcreated]
      exact (reachable_timeline h).claimed hb
    · rcases hends ended hended with hsame | rfl
      · rw [hopen] at hsame
        cases hsame
      · exact hcreated.le

theorem reachable_met (h : (system cfg).Reachable s) : ∀ e ∈ s.db.fileErrors, s.Met e := by
  refine h.induct (I := fun u => ∀ e ∈ u.db.fileErrors, u.Met e) ?_ ?_
  · rintro s₀ ⟨hdb, -⟩ e he
    rw [hdb] at he
    cases he
  · intro u a v hu hmet hstep
    exact step_met hu hstep hmet

section

variable {jobId : String} {history : JobHistory} {row : Job}

theorem jobHistory_eq (hget : jobHistory jobId s.db = some history) :
    ∃ row, s.db.jobs.get? jobId = some row ∧
      history.attempts =
        sortBy Attempt.leaseGeneration (s.db.attempts.rows.filter (·.jobId = jobId)) ∧
      history.fileErrors =
        (sortBy FileError.newestFirst (s.db.fileErrors.filter (·.jobId = jobId))).take 200 ∧
      history.fileErrorTotal = s.db.fileErrors.countP (·.jobId = jobId) := by
  unfold jobHistory at hget
  split at hget
  · rename_i hsome
    obtain ⟨row, hrow⟩ := Option.isSome_iff_exists.mp hsome
    obtain rfl := Option.some.inj hget
    exact ⟨row, hrow, rfl, rfl, rfl⟩
  · cases hget

/-- An attempt is shown under its generation. -/
theorem mem_attempts (hget : jobHistory jobId s.db = some history) {a : Attempt} :
    a ∈ history.attempts ↔ s.db.attempts.get? (jobId, a.leaseGeneration) = some a := by
  obtain ⟨-, -, hattempts, -, -⟩ := jobHistory_eq hget
  rw [hattempts, mem_sortBy, List.mem_filter, decide_eq_true_eq]
  constructor
  · rintro ⟨ha, rfl⟩
    exact Table.get?_of_mem ha
  · intro ha
    exact ⟨Table.mem_of_get? ha, (attempt_of_get? ha).1⟩

theorem attempts_sorted (hget : jobHistory jobId s.db = some history) :
    history.attempts.Pairwise fun a b => a.leaseGeneration < b.leaseGeneration := by
  obtain ⟨-, -, hattempts, -, -⟩ := jobHistory_eq hget
  rw [hattempts]
  refine pairwise_sortBy_of_nodup ?_
  refine ((s.db.attempts.nodup.of_map Attempt.key).filter _).map_on fun a ha b hb hg => ?_
  obtain ⟨ha, hja⟩ := List.mem_filter.mp ha
  obtain ⟨hb, hjb⟩ := List.mem_filter.mp hb
  have hid : a.jobId = b.jobId := (of_decide_eq_true hja).trans (of_decide_eq_true hjb).symm
  exact Table.eq_of_key ha hb (Prod.ext hid hg)

/-- The generations are counted up from one. -/
theorem attempts_generations (h : (system cfg).Reachable s)
    (hget : jobHistory jobId s.db = some history) (hrow : s.db.jobs.get? jobId = some row) :
    history.attempts.map (·.leaseGeneration) = List.range' 1 row.leaseGeneration := by
  have hsorted : (history.attempts.map (·.leaseGeneration)).Pairwise (· < ·) :=
    List.pairwise_map.mpr (attempts_sorted hget)
  have hrange : (List.range' 1 row.leaseGeneration).Pairwise (· < ·) := List.pairwise_lt_range'
  refine List.Perm.eq_of_pairwise (fun _ _ _ _ hlt hgt => absurd hgt (lt_asymm hlt))
    hsorted hrange ?_
  refine (List.perm_ext_iff_of_nodup (hsorted.imp ne_of_lt) (hrange.imp ne_of_lt)).mpr fun g => ?_
  rw [List.mem_range'_1, List.mem_map]
  constructor
  · rintro ⟨a, ha, rfl⟩
    obtain ⟨r, hr, hone, hle⟩ := ((reachable_ok h).ledger.attempts jobId a.leaseGeneration).mp
      (by rw [(mem_attempts hget).mp ha]; rfl)
    obtain rfl := Option.some.inj (hrow.symm.trans hr)
    omega
  · rintro ⟨hone, hlt⟩
    obtain ⟨a, ha⟩ := Option.isSome_iff_exists.mp
      (((reachable_ok h).ledger.attempts jobId g).mpr ⟨row, hrow, hone, by omega⟩)
    have hg : a.leaseGeneration = g := (attempt_of_get? ha).2
    exact ⟨a, (mem_attempts hget).mpr (hg.symm ▸ ha), hg⟩

/-- A claim took a job over if the attempt before it expired. -/
theorem wasReclaimed_iff (h : (system cfg).Reachable s)
    (hget : jobHistory jobId s.db = some history) {job : Job} (hjob : job.id = jobId) :
    wasReclaimed job s.db.toLedger = true ↔ ∃ a ∈ history.attempts,
      a.leaseGeneration + 1 = job.leaseGeneration ∧ a.outcome = some .expired := by
  subst hjob
  have hs := reachable_settled h
  rw [wasReclaimed, Option.any_eq_true]
  constructor
  · rintro ⟨b, hb, hrec⟩
    obtain ⟨g, a, hg, ha, hout⟩ := hs.reclaimed hb hrec
    have hga : a.leaseGeneration = g := (attempt_of_get? ha).2
    exact ⟨a, (mem_attempts hget).mpr (hga.symm ▸ ha), by rw [hga, hg], hout⟩
  · rintro ⟨a, ha, hg, hout⟩
    obtain ⟨b, hb, hrec⟩ := hs.expired ((mem_attempts hget).mp ha) hout
    refine ⟨b, ?_, hrec⟩
    rw [Job.lease, ← hg]
    exact hb

/-- What a history tells. -/
theorem job_history_tells (h : (system cfg).Reachable s)
    (hget : jobHistory jobId s.db = some history) :
    ∃ row, s.db.jobs.get? jobId = some row ∧
      history.attempts.map (·.leaseGeneration) = List.range' 1 row.leaseGeneration ∧
      history.attempts.Pairwise Attempt.Before ∧
      (∀ a ∈ history.attempts,
        (a.endedAt = none ↔ row.status = .running ∧ a.leaseGeneration = row.leaseGeneration) ∧
        (a.leaseGeneration = row.leaseGeneration → row.status ≠ .running →
          a.outcome = some (.status row.status) ∨
            row.status = .cancelled ∧ a.outcome = some (.status .retrying))) ∧
      (∀ job : Job, job.id = jobId → (wasReclaimed job s.db.toLedger = true ↔
        ∃ a ∈ history.attempts,
          a.leaseGeneration + 1 = job.leaseGeneration ∧ a.outcome = some .expired)) ∧
      (∀ e ∈ history.fileErrors, ∃ a ∈ history.attempts, a.leaseGeneration = e.leaseGeneration ∧
        a.claimedAt ≤ e.createdAt ∧ ∀ ended, a.endedAt = some ended → e.createdAt ≤ ended) ∧
      history.fileErrors.length = min 200 history.fileErrorTotal ∧
      ∀ e ∈ s.db.fileErrors, e.jobId = jobId →
        ∀ shown ∈ history.fileErrors, shown.createdAt < e.createdAt → e ∈ history.fileErrors := by
  obtain ⟨row, hrow, hattempts, herrors, htotal⟩ := jobHistory_eq hget
  have ht := reachable_told h
  refine ⟨row, hrow, attempts_generations h hget hrow, ?_, ?_,
    fun job => wasReclaimed_iff h hget, ?_, ?_, ?_⟩
  · exact (attempts_sorted hget).imp_of_mem fun ha hb hlt =>
      ht.order ((mem_attempts hget).mp ha) ((mem_attempts hget).mp hb) hlt
  · intro a ha
    have ha := (mem_attempts hget).mp ha
    constructor
    · rw [(reachable_timeline h).current ha]
      constructor
      · rintro ⟨r, hr, hrun, hgen⟩
        obtain rfl := Option.some.inj (hrow.symm.trans hr)
        exact ⟨hrun, hgen.symm⟩
      · rintro ⟨hrun, hgen⟩
        exact ⟨row, hrow, hrun, hgen.symm⟩
    · intro hgen hstop
      exact ht.last hrow hstop (hgen ▸ ha)
  · intro e he
    rw [herrors] at he
    obtain ⟨he, hid⟩ := List.mem_filter.mp (mem_sortBy.mp (List.mem_of_mem_take he))
    obtain ⟨-, a, ha, hclaimed, hends⟩ := reachable_met h e he
    have hgen : a.leaseGeneration = e.leaseGeneration := (attempt_of_get? ha).2
    refine ⟨a, (mem_attempts hget).mpr ?_, hgen, hclaimed, hends⟩
    rw [hgen, ← of_decide_eq_true hid]
    exact ha
  · rw [herrors, htotal, List.length_take, (sortBy_perm _ _).length_eq,
      List.countP_eq_length_filter]
  · intro e he hid shown hshown hlt
    rw [herrors] at hshown ⊢
    refine mem_take_sortBy_of_lt (List.mem_filter.mpr ⟨he, decide_eq_true hid⟩) hshown ?_
    exact Prod.Lex.toLex_lt_toLex.mpr (Or.inl (OrderDual.toDual_lt_toDual.mpr hlt))

end

/-- A lease runs out after an error was recorded, and the job is taken over. -/
theorem job_history_tells_takeover :
    let s := (empty 0).exec .default (oneClaim ++
      [.updateProgress oneClaimJob {} (some "a.py") (some "unreadable"), .advance 30000000,
        .claimJob "worker-1" "session-1" fun _ => false])
    ∃ history, jobHistory "job-1" s.db = some history ∧
      history.attempts.map (fun a => (a.leaseGeneration, a.outcome)) =
        [(1, some .expired), (2, none)] ∧
      history.fileErrors.map (·.filePath) = ["a.py"] ∧
      history.attempts.Pairwise Attempt.Before := by
  intro s
  have hreach : (system .default).Reachable s := reachable_exec (by decide)
  have hshown : (jobHistory "job-1" s.db).map (fun history =>
      (history.attempts.map (fun a => (a.leaseGeneration, a.outcome)),
        history.fileErrors.map (·.filePath))) =
      some ([(1, some .expired), (2, none)], ["a.py"]) := by decide +kernel
  obtain ⟨history, hget, hfacts⟩ := Option.map_eq_some_iff.mp hshown
  obtain ⟨hattempts, herrors⟩ := Prod.mk.inj hfacts
  obtain ⟨-, -, -, hordered, -⟩ := job_history_tells hreach hget
  exact ⟨history, hget, hattempts, herrors, hordered⟩

end Coord

end RepoMesh
