import RepoMesh.Invariant

/-!
# What one transaction does to a watch row

`observe_cases` says how an observation ends. `WatchMove` lists the moves of one
watch row with what each contributes to the history of its repository: an
observation, a submission, a re-enabling. `step_watch` says that a step of the
coordination store is one of them.
-/

namespace RepoMesh

/-! ## Observations -/

/-- The row both UPDATEs of `observe` leave. -/
def observationRow (now : Time) (l : Ledger) (fingerprint : String) (indexed : Option String)
    (w : WatchRow) : WatchRow :=
  observedRow now fingerprint (reconciledRow l fingerprint indexed w)

/-- The row a submission leaves. -/
def submittedWatch (fingerprint uuid : String) (w : WatchRow) : WatchRow :=
  { w with
    submittedFingerprint := some fingerprint
    lastJobId := some uuid
    pendingSince := none }

section

variable {cfg : Settings} {now : Time}

theorem enabledRow_key (now : Time) (enabled : Bool) (w : WatchRow) :
    (enabledRow now enabled w).repositoryId = w.repositoryId := rfl

@[simp] theorem reconciledRow_repositoryId (l : Ledger) (fingerprint : String)
    (indexed : Option String) (w : WatchRow) :
    (reconciledRow l fingerprint indexed w).repositoryId = w.repositoryId := by
  unfold reconciledRow
  split <;> rfl

@[simp] theorem observationRow_repositoryId (l : Ledger) (fingerprint : String)
    (indexed : Option String) (w : WatchRow) :
    (observationRow now l fingerprint indexed w).repositoryId = w.repositoryId :=
  reconciledRow_repositoryId l fingerprint indexed w

theorem get?_putWatch (db : Db) (w : WatchRow) (r : String) :
    (db.putWatch w).watches.get? r =
      if r = w.repositoryId then (db.watches.get? r).map fun _ => w else db.watches.get? r := by
  rw [Db.putWatch, Table.get?_update]
  cases hget : db.watches.get? r with
  | none => simp
  | some x =>
      have hkey : x.repositoryId = r := Table.key_of_get? hget
      by_cases hr : r = w.repositoryId
      · subst hr
        simp [hkey]
      · simp [hkey, hr]

/-- How `observe` ends. -/
inductive Observes (cfg : Settings) (now : Time) (uuid repositoryId fingerprint : String)
    (indexed : Option String) (db : Db) : Option Job → Db → Prop where
  | absent : db.watches.get? repositoryId = none →
      Observes cfg now uuid repositoryId fingerprint indexed db none db
  | paused {w : WatchRow} : db.watches.get? repositoryId = some w → w.enabled = false →
      Observes cfg now uuid repositoryId fingerprint indexed db none db
  | recorded {w : WatchRow} : db.watches.get? repositoryId = some w → w.enabled = true →
      watchReady cfg now db.toLedger (observationRow now db.toLedger fingerprint indexed w) = false →
      Observes cfg now uuid repositoryId fingerprint indexed db none
        (db.putWatch (observationRow now db.toLedger fingerprint indexed w))
  | submitted {w : WatchRow} {l : Ledger} :
      db.watches.get? repositoryId = some w → w.enabled = true →
      watchReady cfg now db.toLedger (observationRow now db.toLedger fingerprint indexed w) = true →
      db.toLedger.insertJob (watchJobRow cfg now uuid repositoryId) (fun _ => false) =
        .ok (some l) →
      Observes cfg now uuid repositoryId fingerprint indexed db
        (some (watchJobRow cfg now uuid repositoryId))
        ({ db with toLedger := l }.putWatch
          (submittedWatch fingerprint uuid (observationRow now db.toLedger fingerprint indexed w)))

theorem observe_cases {uuid repositoryId fingerprint : String} {indexed : Option String}
    {db db' : Db} {job : Option Job}
    (h : observe cfg now uuid repositoryId fingerprint indexed db = .ok (job, db')) :
    Observes cfg now uuid repositoryId fingerprint indexed db job db' := by
  unfold observe at h
  split at h
  · rename_i hget
    obtain ⟨rfl, rfl⟩ := Prod.mk.inj (Except.ok.inj h)
    exact .absent hget
  rename_i w hget
  split at h
  · rename_i hen
    obtain ⟨rfl, rfl⟩ := Prod.mk.inj (Except.ok.inj h)
    exact .paused hget (by simpa using hen)
  rename_i hen
  rw [not_not] at hen
  simp only at h
  split at h
  · rename_i hready
    obtain ⟨rfl, rfl⟩ := Prod.mk.inj (Except.ok.inj h)
    exact .recorded hget hen (by simpa [observationRow] using hready)
  rename_i hready
  rw [not_not] at hready
  split at h
  · cases h
  · cases h
  · rename_i l hins
    obtain ⟨rfl, rfl⟩ := Prod.mk.inj (Except.ok.inj h)
    exact .submitted hget hen hready hins

/-! ## Retry successors -/

/-- `successor` is the retry of `parent`. -/
def Parent (jobs : Table Job.id) (parent successor : String) : Prop :=
  ∃ row, jobs.get? successor = some row ∧ row.parentJobId = some parent

/-- `last` is `first` or comes from it by retries. -/
abbrev Descends (jobs : Table Job.id) : String → String → Prop :=
  Relation.ReflTransGen (Parent jobs)

/-! ## Transactions that leave the watches alone -/

section

variable {db db' : Db} {job : Job}

theorem submitJob_watches {uuid repositoryId mode : String} {key : Option String} {priority : Int}
    (h : submitJob cfg now uuid repositoryId mode key priority db = .ok (job, db')) :
    db'.watches = db.watches := by
  unfold submitJob at h
  split at h
  · cases h
  split at h
  · cases h
  simp only at h
  split at h
  · cases h
  · obtain ⟨-, rfl⟩ := Prod.mk.inj (Except.ok.inj h)
    rfl
  · split at h
    · cases h
    split at h
    · cases h
    · obtain ⟨-, rfl⟩ := Prod.mk.inj (Except.ok.inj h)
      rfl

theorem resubmitJob_watches {uuid jobId : String}
    (h : resubmitJob cfg now uuid jobId db = .ok (job, db')) :
    ∃ successor, Parent db'.jobs jobId successor ∧
      db'.watches = (db.trackSuccessor jobId successor).watches := by
  unfold resubmitJob at h
  split at h
  · cases h
  rename_i old hold
  obtain rfl := Table.key_of_get? hold
  split at h
  · cases h
  simp only at h
  split at h
  · cases h
  · rename_i l hins
    obtain ⟨-, rfl⟩ := Prod.mk.inj (Except.ok.inj h)
    obtain ⟨hconf, -, rfl⟩ := insertJob_some hins
    exact ⟨uuid, ⟨_, Table.get?_insertNew_self (conflicts_id hconf), rfl⟩, rfl⟩
  · split at h
    · cases h
    · rename_i child hfind
      obtain ⟨-, rfl⟩ := Prod.mk.inj (Except.ok.inj h)
      have hparent : child.parentJobId = some old.id := by simpa using List.find?_some hfind
      exact ⟨child.id, ⟨child, Table.get?_of_mem (List.mem_of_find?_eq_some hfind), hparent⟩, rfl⟩

theorem registerWorker_watches {session workerId hostname version r : String} {pid : Int}
    (h : registerWorker cfg now session workerId hostname pid version db = .ok (r, db')) :
    db'.watches = db.watches := by
  unfold registerWorker at h
  split at h
  · obtain ⟨-, rfl⟩ := Prod.mk.inj (Except.ok.inj h)
    rfl
  · split at h
    · obtain ⟨-, rfl⟩ := Prod.mk.inj (Except.ok.inj h)
      rfl
    · cases h

theorem heartbeatWorker_watches {workerId session : String} {currentJob : Option String}
    (h : heartbeatWorker now workerId session currentJob db = .ok ((), db')) :
    db'.watches = db.watches := by
  unfold heartbeatWorker at h
  split at h
  · obtain ⟨-, rfl⟩ := Prod.mk.inj (Except.ok.inj h)
    rfl
  · cases h

theorem exhaustJob_watches {row : Job} (h : exhaustJob now row db = .ok ((), db')) :
    db'.watches = db.watches := by
  unfold exhaustJob at h
  split at h
  · cases h
  simp only at h
  split at h
  · obtain ⟨-, rfl⟩ := Prod.mk.inj (Except.ok.inj h)
    rfl
  · obtain ⟨-, rfl⟩ := Prod.mk.inj (Except.ok.inj h)
    rfl

theorem takeJob_watches {workerId session : String} {row : Job}
    (h : takeJob cfg now workerId session row db = .ok (job, db')) :
    db'.watches = db.watches := by
  unfold takeJob at h
  simp only at h
  split at h
  · cases h
  split at h
  · cases h
  split at h
  · cases h
  split at h
  · obtain ⟨-, rfl⟩ := Prod.mk.inj (Except.ok.inj h)
    rfl
  · cases h

theorem claimLoop_watches {workerId session : String} {locked : Job → Bool} {n : Nat}
    {r : Option Job} (h : claimLoop cfg now workerId session locked n db = .ok (r, db')) :
    db'.watches = db.watches := by
  induction n generalizing db with
  | zero =>
      obtain ⟨-, rfl⟩ := Prod.mk.inj (Except.ok.inj h)
      rfl
  | succ n ih =>
      simp only [claimLoop] at h
      split at h
      · obtain ⟨-, rfl⟩ := Prod.mk.inj (Except.ok.inj h)
        rfl
      split at h
      · split at h
        · cases h
        · rename_i hex
          rw [ih h, exhaustJob_watches hex]
      · split at h
        · cases h
        · rename_i htake
          obtain ⟨-, rfl⟩ := Prod.mk.inj (Except.ok.inj h)
          exact takeJob_watches htake

theorem claimJob_watches {workerId session : String} {locked : Job → Bool} {r : Option Job}
    (h : claimJob cfg now workerId session locked db = .ok (r, db')) :
    db'.watches = db.watches := by
  unfold claimJob at h
  split at h
  · exact claimLoop_watches h
  · cases h

theorem assertOwnership_watches {b : Bool} (h : assertOwnership now job db = .ok (b, db')) :
    db'.watches = db.watches := by
  unfold assertOwnership at h
  split at h
  · cases h
  · obtain ⟨-, rfl⟩ := Prod.mk.inj (Except.ok.inj h)
    rfl

theorem renewLease_watches {b : Bool} (h : renewLease cfg now job db = .ok (b, db')) :
    db'.watches = db.watches := by
  unfold renewLease at h
  split at h
  · cases h
  split at h
  · cases h
  · obtain ⟨-, rfl⟩ := Prod.mk.inj (Except.ok.inj h)
    rfl

theorem updateProgress_watches {stats : IndexStats} {path error : Option String}
    (h : updateProgress now job stats path error db = .ok ((), db')) :
    db'.watches = db.watches := by
  unfold updateProgress at h
  split at h
  · cases h
  split at h
  · cases h
  split at h
  · split at h
    · obtain ⟨-, rfl⟩ := Prod.mk.inj (Except.ok.inj h)
      rfl
    · obtain ⟨-, rfl⟩ := Prod.mk.inj (Except.ok.inj h)
      rfl
  · obtain ⟨-, rfl⟩ := Prod.mk.inj (Except.ok.inj h)
    rfl

theorem enterGuard_watches (h : enterGuard now job db = .ok ((), db')) :
    db'.watches = db.watches := by
  unfold enterGuard at h
  split at h
  · cases h
  split at h
  · cases h
  split at h
  · cases h
  · rename_i hassert
    obtain ⟨-, rfl⟩ := Prod.mk.inj (Except.ok.inj h)
    exact assertOwnership_watches hassert

theorem requestCancel_watches {jobId : String}
    (h : requestCancel now jobId db = .ok (job, db')) : db'.watches = db.watches := by
  unfold requestCancel at h
  split at h
  · cases h
  split at h
  · obtain ⟨-, rfl⟩ := Prod.mk.inj (Except.ok.inj h)
    rfl
  split at h
  · cases h
  · obtain ⟨-, rfl⟩ := Prod.mk.inj (Except.ok.inj h)
    rfl

theorem finish_watches {status : JobStatus} {error : Option String} {delay : Time} {job' : Job}
    (h : finish now job status error delay db = .ok (job', db')) : db'.watches = db.watches := by
  unfold finish at h
  split at h
  · cases h
  simp only at h
  split at h
  · cases h
  · obtain ⟨-, rfl⟩ := Prod.mk.inj (Except.ok.inj h)
    rfl

theorem scheduleRetry_watches {error : String} {jitter : Time} {job' : Job}
    (h : scheduleRetry cfg now job error jitter db = .ok (job', db')) :
    db'.watches = db.watches := by
  unfold scheduleRetry at h
  split at h
  · exact finish_watches h
  · exact finish_watches h

theorem importLegacyJobs_watches {rows : List LegacyRow} {n : Nat}
    (h : importLegacyJobs cfg now rows db = .ok (n, db')) : db'.watches = db.watches := by
  unfold importLegacyJobs at h
  split at h
  · cases h
  · obtain ⟨-, rfl⟩ := Prod.mk.inj (Except.ok.inj h)
    rfl

end

end

/-! ## The history of a watch -/

/-- What the history of a repository's watch records. -/
inductive WatchEvent where
  | observed (fingerprint : String) (instant : Time)
  | divergent (fingerprint : String)
  | submitted (fingerprint jobId : String)
  | reenabled
  deriving DecidableEq, Repr

/-- The index differs from what is observed, after successful work and with
nobody at work. -/
def divergence (l : Ledger) (fingerprint : String) (indexed : Option String) (w : WatchRow) :
    List WatchEvent :=
  if indexed.any (· ≠ fingerprint) ∧ lastJobCompleted l w ∧ ¬ busy l w.repositoryId then
    [.divergent fingerprint]
  else []

/-- What an action adds to the history of a repository's watch, newest first. -/
def watchEvents (cfg : Settings) (repositoryId : String) (s : Coord) (a : Action) :
    List WatchEvent :=
  match a, s.db.watches.get? repositoryId, s.answer cfg a with
  | .observe _ r fingerprint indexed, some w, .ok (reply, _) =>
      if r = repositoryId ∧ w.enabled then
        (reply.jobs.map fun job => .submitted fingerprint job.id) ++
          divergence s.db.toLedger fingerprint indexed w ++ [.observed fingerprint s.now]
      else []
  | .setEnabled r true, some w, _ =>
      if r = repositoryId ∧ ¬ w.enabled then [.reenabled] else []
  | _, _, _ => []

/-- The columns of a watch row that its history speaks of. -/
structure WatchRow.Same (w w' : WatchRow) : Prop where
  repositoryId : w'.repositoryId = w.repositoryId
  enabled : w'.enabled = w.enabled
  observedFingerprint : w'.observedFingerprint = w.observedFingerprint
  submittedFingerprint : w'.submittedFingerprint = w.submittedFingerprint
  stableSince : w'.stableSince = w.stableSince
  pendingSince : w'.pendingSince = w.pendingSince

theorem WatchRow.Same.refl (w : WatchRow) : w.Same w :=
  ⟨rfl, rfl, rfl, rfl, rfl, rfl⟩

/-- A move of a watch row, with the events it adds; `jobs` is the table after it. -/
inductive WatchMove (cfg : Settings) (now : Time) (l : Ledger) (jobs : Table Job.id) :
    List WatchEvent → WatchRow → WatchRow → Prop where
  | quiet {w w' : WatchRow} : w.Same w' → w'.lastJobId = w.lastJobId →
      WatchMove cfg now l jobs [] w w'
  | tracked {w : WatchRow} {old successor : String} :
      w.lastJobId = some old → Parent jobs old successor →
      WatchMove cfg now l jobs [] w { w with lastJobId := some successor }
  | setEnabled (enabled : Bool) (w : WatchRow) :
      WatchMove cfg now l jobs (if enabled && !w.enabled then [.reenabled] else []) w
        (enabledRow now enabled w)
  | recorded {w : WatchRow} (fingerprint : String) (indexed : Option String) :
      w.enabled = true →
      watchReady cfg now l (observationRow now l fingerprint indexed w) = false →
      WatchMove cfg now l jobs
        (divergence l fingerprint indexed w ++ [.observed fingerprint now]) w
        (observationRow now l fingerprint indexed w)
  | submitted {w : WatchRow} (fingerprint : String) (indexed : Option String) (uuid : String) :
      w.enabled = true →
      watchReady cfg now l (observationRow now l fingerprint indexed w) = true →
      WatchMove cfg now l jobs
        (.submitted fingerprint uuid :: divergence l fingerprint indexed w ++
          [.observed fingerprint now])
        w (submittedWatch fingerprint uuid (observationRow now l fingerprint indexed w))

/-- A move of the watch row of a repository, which only `ensure` creates; `l'` is
the ledger after it. -/
inductive WatchTurn (cfg : Settings) (now : Time) (l l' : Ledger) (repositoryId : String) :
    List WatchEvent → Option WatchRow → Option WatchRow → Prop where
  | absent : WatchTurn cfg now l l' repositoryId [] none none
  | ensured (enabled : Bool) : (l'.execution.get? repositoryId).isSome = true →
      WatchTurn cfg now l l' repositoryId [] none (some (.new repositoryId enabled))
  | moved {events : List WatchEvent} {w w' : WatchRow} :
      WatchMove cfg now l l'.jobs events w w' →
      WatchTurn cfg now l l' repositoryId events (some w) (some w')

theorem WatchTurn.same {cfg : Settings} {now : Time} {l l' : Ledger} {repositoryId : String}
    (w : Option WatchRow) : WatchTurn cfg now l l' repositoryId [] w w := by
  cases w with
  | none => exact .absent
  | some w => exact .moved (.quiet (.refl w) rfl)

namespace Coord

variable {cfg : Settings} {s t : Coord} {a : Action} {repositoryId : String}

/-- Only the five operations on watches write a watch row or make history. -/
theorem answer_watches {reply : Reply} {db' : Db} (hans : s.answer cfg a = .ok (reply, db'))
    (hresubmit : ∀ uuid jobId, a ≠ .resubmitJob uuid jobId)
    (hensure : ∀ r enabled, a ≠ .ensure r enabled)
    (henable : ∀ r enabled, a ≠ .setEnabled r enabled)
    (herror : ∀ r error, a ≠ .recordError r error)
    (hobserve : ∀ uuid r fingerprint indexed, a ≠ .observe uuid r fingerprint indexed) :
    db'.watches = s.db.watches := by
  unfold answer at hans
  cases a with
  | submitJob _ _ _ _ _ =>
      obtain ⟨_, heq, -⟩ := replying_ok hans
      exact submitJob_watches heq
  | getJob _ =>
      simp only [Action.tx] at hans
      obtain ⟨_, heq, -⟩ := replying_ok hans
      obtain ⟨-, rfl⟩ := Prod.mk.inj (Except.ok.inj heq)
      rfl
  | resubmitJob uuid jobId => exact absurd rfl (hresubmit uuid jobId)
  | registerWorker _ _ _ _ _ =>
      obtain ⟨_, heq, -⟩ := replying_ok hans
      exact registerWorker_watches heq
  | heartbeatWorker _ _ _ =>
      obtain ⟨_, heq, -⟩ := replying_ok hans
      exact heartbeatWorker_watches heq
  | stopWorker _ _ =>
      simp only [Action.tx] at hans
      obtain ⟨_, heq, -⟩ := replying_ok hans
      obtain ⟨-, rfl⟩ := Prod.mk.inj (Except.ok.inj heq)
      rfl
  | claimJob _ _ _ =>
      obtain ⟨_, heq, -⟩ := replying_ok hans
      exact claimJob_watches heq
  | assertOwnership _ =>
      obtain ⟨_, heq, -⟩ := replying_ok hans
      exact assertOwnership_watches heq
  | renewLease _ =>
      obtain ⟨_, heq, -⟩ := replying_ok hans
      exact renewLease_watches heq
  | updateProgress _ _ _ _ =>
      obtain ⟨_, heq, -⟩ := replying_ok hans
      exact updateProgress_watches heq
  | enterGuard _ =>
      obtain ⟨_, heq, -⟩ := replying_ok hans
      exact enterGuard_watches heq
  | requestCancel _ =>
      obtain ⟨_, heq, -⟩ := replying_ok hans
      exact requestCancel_watches heq
  | completeJob _ _ | cancelJob _ | failJob _ _ =>
      obtain ⟨_, heq, -⟩ := replying_ok hans
      exact finish_watches heq
  | scheduleRetry _ _ _ =>
      obtain ⟨_, heq, -⟩ := replying_ok hans
      exact scheduleRetry_watches heq
  | importLegacyJobs _ =>
      obtain ⟨_, heq, -⟩ := replying_ok hans
      exact importLegacyJobs_watches heq
  | ensure r enabled => exact absurd rfl (hensure r enabled)
  | setEnabled r enabled => exact absurd rfl (henable r enabled)
  | recordError r error => exact absurd rfl (herror r error)
  | observe uuid r fingerprint indexed => exact absurd rfl (hobserve uuid r fingerprint indexed)
  | advance _ =>
      obtain ⟨-, rfl⟩ := Prod.mk.inj (Except.ok.inj hans)
      rfl

theorem observe_turn {uuid r fingerprint : String} {indexed : Option String} {job : Option Job}
    {db' : Db}
    (h : Observes cfg s.now uuid r fingerprint indexed s.db job db')
    (hans : s.answer cfg (.observe uuid r fingerprint indexed) = .ok (.ofJob? job, db'))
    (repositoryId : String) :
    WatchTurn cfg s.now s.db.toLedger db'.toLedger repositoryId
      (watchEvents cfg repositoryId s (.observe uuid r fingerprint indexed))
      (s.db.watches.get? repositoryId) (db'.watches.get? repositoryId) := by
  by_cases hr : r = repositoryId
  swap
  · have hevents : watchEvents cfg repositoryId s (.observe uuid r fingerprint indexed) = [] := by
      cases hget : s.db.watches.get? repositoryId with
      | none => simp [watchEvents, hget]
      | some w => simp [watchEvents, hget, hans, hr]
    have hother : ∀ {w : WatchRow} (db : Db), w.repositoryId = r →
        (db.putWatch w).watches.get? repositoryId = db.watches.get? repositoryId := by
      intro w db hw
      rw [get?_putWatch, if_neg]
      rw [hw]
      exact Ne.symm hr
    rw [hevents]
    cases h with
    | absent _ => exact .same _
    | paused _ _ => exact .same _
    | recorded hget _ _ =>
        rw [hother _ (by simpa using Table.key_of_get? hget)]
        exact .same _
    | submitted hget _ _ _ =>
        rw [hother _ (by simpa [submittedWatch] using Table.key_of_get? hget)]
        exact .same _
  subst hr
  cases h with
  | absent hget =>
      simp only [watchEvents, hget]
      exact .absent
  | @paused w hget hen =>
      simp only [watchEvents, hget, hans, hen, Bool.false_eq_true, and_false, if_false]
      exact .same _
  | @recorded w hget hen hready =>
      have hkey : w.repositoryId = r := Table.key_of_get? hget
      rw [get?_putWatch, observationRow_repositoryId, if_pos hkey.symm, hget]
      simp only [watchEvents, hget, hans, hen, and_self, if_true]
      exact .moved (.recorded fingerprint indexed hen hready)
  | @submitted w l hget hen hready _ =>
      have hkey : w.repositoryId = r := Table.key_of_get? hget
      have hrow : r = (submittedWatch fingerprint uuid
          (observationRow s.now s.db.toLedger fingerprint indexed w)).repositoryId := by
        simpa [submittedWatch] using hkey.symm
      rw [get?_putWatch, if_pos hrow, hget]
      simp only [watchEvents, hget, hans, hen, and_self, if_true]
      exact .moved (.submitted fingerprint indexed uuid hen hready)

theorem step_watch (hstep : (system cfg).step s a t) (repositoryId : String) :
    WatchTurn cfg s.now s.db.toLedger t.db.toLedger repositoryId (watchEvents cfg repositoryId s a)
      (s.db.watches.get? repositoryId) (t.db.watches.get? repositoryId) := by
  obtain ⟨-, rfl⟩ := hstep
  unfold next
  cases a with
  | resubmitJob uuid jobId =>
      cases hans : s.answer cfg (.resubmitJob uuid jobId) with
      | error e => exact .same _
      | ok r =>
          obtain ⟨job, heq, -⟩ := replying_ok hans
          obtain ⟨successor, hparent, hwatches⟩ := resubmitJob_watches heq
          show WatchTurn cfg s.now s.db.toLedger r.2.toLedger repositoryId [] _
            (r.2.watches.get? repositoryId)
          rw [hwatches, Db.trackSuccessor, Table.get?_update]
          cases s.db.watches.get? repositoryId with
          | none => exact .absent
          | some w =>
              dsimp only [Option.map_some]
              split
              · rename_i hlast
                exact .moved (.tracked (of_decide_eq_true hlast) hparent)
              · exact .same _
  | ensure r enabled =>
      show WatchTurn cfg s.now s.db.toLedger (s.db.toLedger.reserveRow r) repositoryId [] _
        ((s.db.watches.insertNew (.new r (enabled.getD cfg.watchDefaultEnabled))).get? repositoryId)
      rw [Table.get?_insertNew]
      split
      · rename_i hr
        obtain rfl : r = repositoryId := hr
        have hreserved : ((s.db.toLedger.reserveRow r).execution.get? r).isSome = true := by
          rw [Ledger.reserveRow, Table.get?_insertNew, if_pos rfl]
          rfl
        cases s.db.watches.get? r with
        | none => exact .ensured _ hreserved
        | some w => exact .same _
      · exact .same _
  | setEnabled r enabled =>
      show WatchTurn cfg s.now s.db.toLedger s.db.toLedger repositoryId _ _
        ((s.db.watches.update (·.repositoryId = r) (enabledRow s.now enabled)
          (enabledRow_key s.now enabled)).get? repositoryId)
      rw [Table.get?_update]
      cases hget : s.db.watches.get? repositoryId with
      | none =>
          have hevents : watchEvents cfg repositoryId s (.setEnabled r enabled) = [] := by
            cases enabled <;> simp [watchEvents, hget]
          rw [hevents]
          exact .absent
      | some w =>
          have hkey : w.repositoryId = repositoryId := Table.key_of_get? hget
          have hevents : watchEvents cfg repositoryId s (.setEnabled r enabled) =
              if r = repositoryId ∧ (enabled && !w.enabled) = true then [.reenabled] else [] := by
            cases enabled <;> simp [watchEvents, hget]
          rw [hevents]
          by_cases hr : r = repositoryId
          · subst hr
            simp only [Option.map_some, hkey, decide_true, if_true, true_and]
            exact .moved (.setEnabled enabled w)
          · have hrow : decide (w.repositoryId = r) = false := by
              simp [hkey, Ne.symm hr]
            simp only [Option.map_some, hrow, hr, false_and, if_false, Bool.false_eq_true]
            exact .same _
  | recordError r error =>
      show WatchTurn cfg s.now s.db.toLedger s.db.toLedger repositoryId [] _
        ((s.db.watches.update (fun w => w.repositoryId = r && w.enabled)
          (fun w => { w with error := some (clip error), lastCheckedAt := some s.now })
          (fun _ => rfl)).get? repositoryId)
      rw [Table.get?_update]
      cases s.db.watches.get? repositoryId with
      | none => exact .absent
      | some w =>
          dsimp only [Option.map_some]
          split
          · exact .moved (.quiet ⟨rfl, rfl, rfl, rfl, rfl, rfl⟩ rfl)
          · exact .same _
  | observe uuid r fingerprint indexed =>
      cases hans : s.answer cfg (.observe uuid r fingerprint indexed) with
      | error e =>
          have hevents : watchEvents cfg repositoryId s (.observe uuid r fingerprint indexed) = [] := by
            simp [watchEvents, hans]
          rw [hevents]
          exact .same _
      | ok result =>
          obtain ⟨reply, db'⟩ := result
          obtain ⟨job, heq, rfl⟩ := replying_ok hans
          exact observe_turn (observe_cases heq) hans repositoryId
  | _ =>
      split
      · exact .same _
      · rename_i hans
        have hwatches := answer_watches hans (by simp) (by simp) (by simp) (by simp) (by simp)
        dsimp only
        rw [hwatches]
        exact .same _

end Coord

end RepoMesh
