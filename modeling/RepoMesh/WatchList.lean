import RepoMesh.AutoSubmit
import RepoMesh.Sorting

/-!
# The list of watches

`WatchRepository.list`: each watch row with the status of the job it tracks, the end of the
last successful job of its repository, and one state that sums it all up. `watch_states_mean`
says what two of the states stand for in any store that can come about: `watching` that the
tree last seen is the tree of the last submission, whose job is completed; `needs_attention`
that no further scan of that tree is going to submit a job.
-/

namespace RepoMesh

inductive WatchState where
  | paused
  | scanError
  | watcherUnavailable
  /-- queued, running or retrying -/
  | active (status : JobStatus)
  | pendingChanges
  | needsAttention
  | watching
  deriving DecidableEq, Repr

/-- An entry of the list. -/
structure WatchView where
  repositoryId : String
  enabled : Bool
  stableSince : Option Time
  pendingSince : Option Time
  lastCheckedAt : Option Time
  lastJobId : Option String
  error : Option String
  jobStatus : Option JobStatus
  lastIndexedAt : Option Time
  watcherOnline : Bool
  state : WatchState
  deriving DecidableEq, Repr

def completedJobs (l : Ledger) (repositoryId : String) : List Job :=
  l.jobs.rows.filter fun j => j.repositoryId = repositoryId && j.status = .completed

/-- `ORDER BY completed_at DESC`; NULL comes first. -/
def Job.endedLast (j : Job) : (WithTop Time)ᵒᵈ :=
  OrderDual.toDual (j.completedAt : WithTop Time)

/-- The subquery `last_success`. -/
def lastSuccess (l : Ledger) (repositoryId : String) : Option Time :=
  (sortBy Job.endedLast (completedJobs l repositoryId)).head?.bind (·.completedAt)

/-- The status of the tracked job. -/
def trackedStatus (l : Ledger) (w : WatchRow) : Option JobStatus :=
  (w.lastJobId.bind l.jobs.get?).map (·.status)

/-- `last_checked_at > clock_timestamp() - max(30, watch_poll_seconds * 3)` -/
def watcherOnline (watchPollSeconds now : Time) (w : WatchRow) : Bool :=
  w.lastCheckedAt.any fun t => now - max 30000000 (watchPollSeconds * 3) < t

/-- The chain of conditions over a row of the query; an empty error text counts as none. -/
def watchState (online : Bool) (status : Option JobStatus) (w : WatchRow) : WatchState :=
  if ¬ w.enabled then .paused
  else if w.error.any (· ≠ "") then .scanError
  else if ¬ online then .watcherUnavailable
  else
    match status with
    | some .queued => .active .queued
    | some .running => .active .running
    | some .retrying => .active .retrying
    | status =>
        if w.observedFingerprint ≠ w.submittedFingerprint then .pendingChanges
        else if status ∈ [some .failed, some .cancelled, some .completedWithErrors] then
          .needsAttention
        else .watching

def watchView (watchPollSeconds now : Time) (l : Ledger) (w : WatchRow) : WatchView where
  repositoryId := w.repositoryId
  enabled := w.enabled
  stableSince := w.stableSince
  pendingSince := w.pendingSince
  lastCheckedAt := w.lastCheckedAt
  lastJobId := w.lastJobId
  error := w.error
  jobStatus := trackedStatus l w
  lastIndexedAt := lastSuccess l w.repositoryId
  watcherOnline := watcherOnline watchPollSeconds now w
  state := watchState (watcherOnline watchPollSeconds now w) (trackedStatus l w) w

/-- `WatchRepository.list`. -/
def listWatches (watchPollSeconds now : Time) (db : Db) : List WatchView :=
  (sortBy (·.repositoryId) db.watches.rows).map (watchView watchPollSeconds now db.toLedger)

/-! ## What the state says of the row -/

section

variable {online : Bool} {status : Option JobStatus} {w : WatchRow}

theorem watchState_watching (h : watchState online status w = .watching) :
    w.enabled = true ∧ w.error.any (· ≠ "") = false ∧ online = true ∧
      w.observedFingerprint = w.submittedFingerprint ∧
      (status = none ∨ status = some .completed) := by
  unfold watchState at h
  split at h
  · cases h
  rename_i hen
  split at h
  · cases h
  rename_i herror
  split at h
  · cases h
  rename_i honline
  split at h <;> try cases h
  split at h
  · cases h
  rename_i hsame
  split at h
  · cases h
  rename_i hnot
  refine ⟨by simpa using hen, by simpa using herror, by simpa using honline, by simpa using hsame, ?_⟩
  rcases status with _ | status
  · exact Or.inl rfl
  · cases status <;> simp_all

theorem watchState_needsAttention (h : watchState online status w = .needsAttention) :
    w.enabled = true ∧ w.observedFingerprint = w.submittedFingerprint ∧
      ∃ x, status = some x ∧ x.terminal = true ∧ x ≠ .completed := by
  unfold watchState at h
  split at h
  · cases h
  rename_i hen
  split at h
  · cases h
  split at h
  · cases h
  split at h <;> try cases h
  split at h
  · cases h
  rename_i hsame
  split at h
  · rename_i hmem
    refine ⟨by simpa using hen, by simpa using hsame, ?_⟩
    rcases status with _ | status
    · simp at hmem
    · refine ⟨status, rfl, ?_⟩
      cases status <;> simp_all [JobStatus.terminal]
  · cases h

end

/-! ## What a watch row rests on -/

/-- The tracked job is there and was submitted on an observation, and a check has left an
observation or an error. -/
structure WatchRow.Grounded (jobs : Table Job.id) (w : WatchRow) : Prop where
  job : ∀ j, w.lastJobId = some j →
    (jobs.get? j).isSome = true ∧ w.observedFingerprint.isSome = true
  checked : w.lastCheckedAt.isSome = true →
    w.observedFingerprint.isSome = true ∨ w.error.isSome = true

namespace WatchRow

variable {jobs jobs' : Table Job.id} {w : WatchRow} {now : Time}

theorem Grounded.mono (hw : w.Grounded jobs)
    (hjobs : ∀ j, (jobs.get? j).isSome = true → (jobs'.get? j).isSome = true) :
    w.Grounded jobs' :=
  ⟨fun j hj => ⟨hjobs j (hw.job j hj).1, (hw.job j hj).2⟩, hw.checked⟩

theorem grounded_new (repositoryId : String) (enabled : Bool) :
    (WatchRow.new repositoryId enabled).Grounded jobs where
  job := fun _ hj => by cases hj
  checked := fun hsome => by cases hsome

theorem Grounded.track (hw : w.Grounded jobs) {old successor : String}
    (hold : w.lastJobId = some old) (h : (jobs.get? successor).isSome = true) :
    Grounded jobs { w with lastJobId := some successor } :=
  ⟨fun _ hj => ⟨Option.some.inj hj ▸ h, (hw.job old hold).2⟩, hw.checked⟩

theorem Grounded.observation (hw : w.Grounded jobs) (l : Ledger) (fingerprint : String)
    (indexed : Option String) : (observationRow now l fingerprint indexed w).Grounded jobs where
  job := by
    intro j hj
    obtain ⟨-, -, -, hlast⟩ := reconciledRow_same l fingerprint indexed w
    exact ⟨(hw.job j (hlast ▸ hj)).1, rfl⟩
  checked := fun _ => Or.inl rfl

end WatchRow

namespace Coord

variable {cfg : Settings} {s t : Coord} {a : Action} {repositoryId : String}

theorem step_grounded (h : (system cfg).Reachable s) (hstep : (system cfg).step s a t)
    (hs : ∀ {w}, s.db.watches.get? repositoryId = some w → w.Grounded s.db.jobs) {w : WatchRow}
    (hw : t.db.watches.get? repositoryId = some w) : w.Grounded t.db.jobs := by
  have hjobs : ∀ j, (s.db.jobs.get? j).isSome = true → (t.db.jobs.get? j).isSome = true := by
    intro j hj
    obtain ⟨row, hrow⟩ := Option.isSome_iff_exists.mp hj
    obtain ⟨row', hrow', -⟩ := step_job h hstep hrow
    rw [hrow']
    rfl
  obtain ⟨hadm, rfl⟩ := hstep
  cases hans : s.answer cfg a with
  | error e =>
      rw [next_of_error hans] at hw
      exact (hs hw).mono hjobs
  | ok result =>
      obtain ⟨reply, db'⟩ := result
      rw [next_of_ok hans] at hw hjobs ⊢
      have hsame : db'.watches = s.db.watches → w.Grounded db'.jobs :=
        fun heq => (hs (heq ▸ hw)).mono hjobs
      have hupdate : ∀ {which f} (hkey : ∀ w : WatchRow, (f w).repositoryId = w.repositoryId),
          db'.watches = s.db.watches.update which f hkey →
          (∀ {w₀ : WatchRow}, which w₀ = true → w₀.Grounded db'.jobs → (f w₀).Grounded db'.jobs) →
          w.Grounded db'.jobs := by
        intro which f hkey heq hf
        rw [heq, Table.get?_update, Option.map_eq_some_iff] at hw
        obtain ⟨w₀, hw₀, rfl⟩ := hw
        have hground := (hs hw₀).mono hjobs
        split
        · exact hf ‹_› hground
        · exact hground
      cases a with
      | resubmitJob uuid jobId =>
          obtain ⟨job, heq, -⟩ := replying_ok hans
          obtain ⟨successor, ⟨row, hrow, -⟩, hwatches⟩ := resubmitJob_watches heq
          exact hupdate (by exact fun _ => rfl) hwatches fun hold hground =>
            hground.track (of_decide_eq_true hold) (by rw [hrow]; rfl)
      | ensure r enabled =>
          obtain ⟨-, rfl⟩ := Prod.mk.inj (Except.ok.inj hans)
          rw [show (s.db.watches.insertNew _).get? repositoryId = _ from
            Table.get?_insertNew _ _ _] at hw
          split at hw
          · cases hget : s.db.watches.get? repositoryId with
            | none =>
                rw [hget] at hw
                exact Option.some.inj hw ▸ WatchRow.grounded_new r _
            | some w₀ =>
                rw [hget] at hw
                exact Option.some.inj hw ▸ (hs hget).mono hjobs
          · exact (hs hw).mono hjobs
      | setEnabled r enabled =>
          obtain ⟨-, rfl⟩ := Prod.mk.inj (Except.ok.inj hans)
          exact hupdate (by exact fun _ => rfl) rfl fun _ hground => ⟨hground.job, hground.checked⟩
      | recordError r error =>
          obtain ⟨-, rfl⟩ := Prod.mk.inj (Except.ok.inj hans)
          exact hupdate (by exact fun _ => rfl) rfl fun _ hground => ⟨hground.job, fun _ => Or.inr rfl⟩
      | observe uuid r fingerprint indexed =>
          obtain ⟨job, heq, rfl⟩ := replying_ok hans
          have hserves := answer_serves (reachable_ok h) hadm hans
          cases observe_cases heq with
          | absent _ => exact (hs hw).mono hjobs
          | paused _ _ => exact (hs hw).mono hjobs
          | recorded hget _ _ =>
              rw [get?_putWatch] at hw
              split at hw
              · rename_i hr
                rw [observationRow_repositoryId, Table.key_of_get? hget] at hr
                rw [hr, hget] at hw
                exact Option.some.inj hw ▸ ((hs (hr ▸ hget)).mono hjobs).observation _ _ _
              · exact (hs hw).mono hjobs
          | submitted hget _ _ _ =>
              have hjob := congrArg Option.isSome
                (hserves.current (watchJobRow cfg s.now uuid r) List.mem_cons_self)
              rw [get?_putWatch] at hw
              split at hw
              · rename_i hr
                have hkey : (observationRow s.now s.db.toLedger fingerprint indexed _).repositoryId =
                    r := (observationRow_repositoryId _ _ _ _).trans (Table.key_of_get? hget)
                have hr' : repositoryId = r := hr.trans hkey
                rw [hr', show ({ s.db with toLedger := _ } : Db).watches = s.db.watches from rfl,
                  hget] at hw
                have hground : (observationRow s.now s.db.toLedger fingerprint indexed _).Grounded _ :=
                  ((hs (hr' ▸ hget)).mono hjobs).observation s.db.toLedger fingerprint indexed
                obtain rfl := Option.some.inj hw
                exact ⟨fun _ hj => ⟨Option.some.inj hj ▸ hjob, rfl⟩, hground.checked⟩
              · exact (hs hw).mono hjobs
      | _ => exact hsame (answer_watches hans (by simp) (by simp) (by simp) (by simp) (by simp))

theorem reachable_grounded (h : (system cfg).Reachable s) {w : WatchRow}
    (hw : s.db.watches.get? repositoryId = some w) : w.Grounded s.db.jobs := by
  have hinv : ∀ {w}, s.db.watches.get? repositoryId = some w → w.Grounded s.db.jobs := by
    refine h.induct (I := fun s => ∀ {w}, s.db.watches.get? repositoryId = some w →
      w.Grounded s.db.jobs) ?_ fun _ _ _ hr hs hstep => step_grounded hr hstep hs
    rintro s₀ ⟨hdb, -⟩ w hw
    rw [hdb] at hw
    cases hw
  exact hinv hw

end Coord

/-! ## The last success -/

/-- The head of a sorted list has the least key. -/
theorem head_sortBy_le {α β : Type*} [LinearOrder β] {key : α → β} {l : List α} {a : α}
    (h : (sortBy key l).head? = some a) {b : α} (hb : b ∈ l) : key a ≤ key b := by
  obtain ⟨rest, hrest⟩ := List.head?_eq_some_iff.mp h
  have hpairwise := sortBy_pairwise key l
  have hmem : b ∈ sortBy key l := mem_sortBy.mpr hb
  rw [hrest] at hpairwise hmem
  rcases List.mem_cons.mp hmem with rfl | hmem
  · exact le_rfl
  · exact List.rel_of_pairwise_cons hpairwise hmem

/-- `t` is when the last of the repository's completed jobs ended, if there is one. -/
structure LastSuccess (l : Ledger) (repositoryId : String) (t : Option Time) : Prop where
  attained : ∀ instant, t = some instant → ∃ row ∈ l.jobs.rows,
    row.repositoryId = repositoryId ∧ row.status = .completed ∧ row.completedAt = some instant
  latest : ∀ row ∈ l.jobs.rows, row.repositoryId = repositoryId → row.status = .completed →
    ∃ instant ended, t = some instant ∧ row.completedAt = some ended ∧ ended ≤ instant

theorem lastSuccess_spec {l : Ledger} (repositoryId : String)
    (hended : ∀ row ∈ l.jobs.rows, row.status = .completed → row.completedAt.isSome = true) :
    LastSuccess l repositoryId (lastSuccess l repositoryId) := by
  have hmem : ∀ row, row ∈ completedJobs l repositoryId ↔
      row ∈ l.jobs.rows ∧ row.repositoryId = repositoryId ∧ row.status = .completed := by
    simp [completedJobs]
  unfold lastSuccess
  cases hhead : (sortBy Job.endedLast (completedJobs l repositoryId)).head? with
  | none =>
      refine ⟨fun _ heq => (by cases heq), fun row hrow hrepo hstatus => ?_⟩
      have hsorted : row ∈ sortBy Job.endedLast (completedJobs l repositoryId) :=
        mem_sortBy.mpr ((hmem row).mpr ⟨hrow, hrepo, hstatus⟩)
      rw [List.head?_eq_none_iff.mp hhead] at hsorted
      cases hsorted
  | some first =>
      obtain ⟨hfirst, hrepo, hstatus⟩ := (hmem first).mp (mem_sortBy.mp (List.mem_of_head? hhead))
      obtain ⟨instant, hinstant⟩ := Option.isSome_iff_exists.mp (hended first hfirst hstatus)
      refine ⟨fun t ht => ⟨first, hfirst, hrepo, hstatus, ht⟩, fun row hrow hr hs => ?_⟩
      obtain ⟨ended, hend⟩ := Option.isSome_iff_exists.mp (hended row hrow hs)
      refine ⟨instant, ended, hinstant, hend, ?_⟩
      have hle := head_sortBy_le hhead ((hmem row).mpr ⟨hrow, hr, hs⟩)
      rw [Job.endedLast, Job.endedLast, hinstant, hend] at hle
      exact WithTop.coe_le_coe.mp (OrderDual.toDual_le_toDual.mp hle)

/-! ## What the state says of the history -/

/-- A submission that stands is there, undisturbed. -/
theorem exists_of_standing {history : List WatchEvent} {fingerprint : String}
    (h : standing history = some fingerprint) :
    ∃ mid jobId older, history = mid ++ .submitted fingerprint jobId :: older ∧
      Undisturbed fingerprint mid := by
  induction history with
  | nil => cases h
  | cons e history ih =>
      have hcons : standing history = some fingerprint → (∀ f j, e ≠ .submitted f j) →
          e ≠ .reenabled → e ≠ .divergent fingerprint →
          ∃ mid jobId older, e :: history = mid ++ .submitted fingerprint jobId :: older ∧
            Undisturbed fingerprint mid := by
        intro hstands hsub hre hdiv
        obtain ⟨mid, jobId, older, rfl, hmid⟩ := ih hstands
        refine ⟨e :: mid, jobId, older, rfl, ⟨fun f j hmem => ?_, fun hmem => ?_, fun hmem => ?_⟩⟩
        · exact (List.mem_cons.mp hmem).elim (fun heq => hsub f j heq.symm) (hmid.submitted f j)
        · exact (List.mem_cons.mp hmem).elim (fun heq => hre heq.symm) hmid.reenabled
        · exact (List.mem_cons.mp hmem).elim (fun heq => hdiv heq.symm) hmid.divergent
      cases e with
      | observed f instant => exact hcons h (by simp) (by simp) (by simp)
      | submitted f j =>
          obtain rfl : f = fingerprint := Option.some.inj h
          exact ⟨[], j, history, rfl, ⟨by simp, by simp, by simp⟩⟩
      | reenabled => cases h
      | divergent f =>
          rw [standing] at h
          split at h
          · cases h
          rename_i hother
          exact hcons h (by simp) (by simp) fun heq =>
            hother (by rw [h, WatchEvent.divergent.inj heq])

/-- The tree last seen is the tree of the last submission, nothing since allows another one of
it, and the job the watch tracks, that submission's or a retry of it, has the status. -/
def Watched.Settled (p : Watched) (view : WatchView) (fingerprint : String)
    (status : JobStatus) : Prop :=
  ∃ mid first older last row, p.history = mid ++ .submitted fingerprint first :: older ∧
    Undisturbed fingerprint mid ∧ lastObserved p.history = some fingerprint ∧
    view.lastJobId = some last ∧ Descends p.coord.db.jobs first last ∧
    p.coord.db.jobs.get? last = some row ∧ row.status = status

namespace Watched

variable {cfg : Settings} {repositoryId : String} {p : Watched}

/-- A row whose last observation is its submission is settled, or has never been observed. -/
theorem settled_of_row (h : (system cfg repositoryId).Reachable p) {w : WatchRow}
    (hw : p.coord.db.watches.get? repositoryId = some w)
    (hsame : w.observedFingerprint = w.submittedFingerprint) (watchPollSeconds now : Time) :
    lastObserved p.history = none ∨
      ∃ fingerprint status, trackedStatus p.coord.db.toLedger w = some status ∧
        p.Settled (watchView watchPollSeconds now p.coord.db.toLedger w) fingerprint status := by
  have hok := reachable_ok h
  have hs := hok.summary hw
  cases hobs : lastObserved p.history with
  | none => exact Or.inl rfl
  | some fingerprint =>
      have hstands : standing p.history = some fingerprint := by
        rw [← hs.submitted, ← hsame, hs.observed, hobs]
      obtain ⟨mid, first, older, hhistory, hmid⟩ := exists_of_standing hstands
      obtain ⟨last, hlast, hdesc⟩ := hs.last first
        (by rw [hhistory]; exact lastJob_of_no_submission hmid.submitted)
      obtain ⟨row, hrow⟩ := Option.isSome_iff_exists.mp
        ((Coord.reachable_grounded hok.coord hw).job last hlast).1
      refine Or.inr ⟨fingerprint, row.status, ?_, mid, first, older, last, row, hhistory, hmid, hobs,
        hlast, hdesc, hrow, rfl⟩
      rw [trackedStatus, hlast, Option.bind_some, hrow]
      rfl

/-- What the list of watches says of a repository. -/
theorem watch_states_mean (h : (system cfg repositoryId).Reachable p) {watchPollSeconds : Time}
    {view : WatchView} (hview : view ∈ listWatches watchPollSeconds p.coord.now p.coord.db)
    (hrepo : view.repositoryId = repositoryId) :
    LastSuccess p.coord.db.toLedger repositoryId view.lastIndexedAt ∧
    (view.state = .watching →
      (lastObserved p.history = none ∧ view.error = some "") ∨
        ∃ fingerprint, p.Settled view fingerprint .completed) ∧
    (view.state = .needsAttention →
      ∃ fingerprint status, p.Settled view fingerprint status ∧ status.terminal = true ∧
        status ≠ .completed ∧
        ∀ uuid indexed job db, p.coord.answer cfg (.observe uuid repositoryId fingerprint indexed) ≠
          .ok (.job job, db)) := by
  have hok := reachable_ok h
  obtain ⟨w, hmem, rfl⟩ := List.mem_map.mp hview
  obtain rfl : w.repositoryId = repositoryId := hrepo
  have hw := Table.get?_of_mem (mem_sortBy.mp hmem)
  have hs := hok.summary hw
  refine ⟨?_, fun hstate => ?_, fun hstate => ?_⟩
  · refine lastSuccess_spec w.repositoryId fun row hrow hstatus => ?_
    have hrowOk := (Coord.reachable_ok hok.coord).ledger.rows (Table.get?_of_mem hrow)
    exact hrowOk.completed.mpr (by rw [hstatus]; rfl)
  · obtain ⟨-, herror, honline, hsame, hstatus⟩ := watchState_watching hstate
    rcases settled_of_row h hw hsame watchPollSeconds p.coord.now with
      hnone | ⟨fingerprint, status, htracked, hsettled⟩
    · have hchecked : w.lastCheckedAt.isSome = true := by
        unfold watcherOnline at honline
        cases hlast : w.lastCheckedAt with
        | none =>
            rw [hlast] at honline
            cases honline
        | some t => rfl
      rcases (Coord.reachable_grounded hok.coord hw).checked hchecked with hobs | herr
      · rw [hs.observed, hnone] at hobs
        cases hobs
      · obtain ⟨error, herr⟩ := Option.isSome_iff_exists.mp herr
        rw [herr] at herror
        exact Or.inl ⟨hnone, by simpa [watchView, herr] using herror⟩
    · rw [htracked] at hstatus
      obtain rfl : status = .completed := by simpa using hstatus
      exact Or.inr ⟨fingerprint, hsettled⟩
  · obtain ⟨-, hsame, x, hx, hterm, hfailed⟩ := watchState_needsAttention hstate
    rcases settled_of_row h hw hsame watchPollSeconds p.coord.now with
      hnone | ⟨fingerprint, status, htracked, hsettled⟩
    · obtain ⟨row, hrow, -⟩ := Option.map_eq_some_iff.mp hx
      obtain ⟨last, hlast, -⟩ := Option.bind_eq_some_iff.mp hrow
      have hobs := ((Coord.reachable_grounded hok.coord hw).job last hlast).2
      rw [hs.observed, hnone] at hobs
      cases hobs
    · obtain rfl : status = x := Option.some.inj (htracked.symm.trans hx)
      refine ⟨fingerprint, status, hsettled, hterm, hfailed, fun uuid indexed job db => ?_⟩
      obtain ⟨mid, first, older, -, -, hhistory, hmid, -⟩ := hsettled
      refine observe_standing h hw ?_ ?_ uuid indexed
      · rw [hhistory]
        exact standing_of_undisturbed hmid
      · unfold trackedStatus at htracked
        unfold lastJobCompleted
        obtain ⟨row, hrow, rfl⟩ := Option.map_eq_some_iff.mp htracked
        rw [hrow]
        simpa using hfailed

/-- The job of one change is completed. -/
def oneSuccess : List Action :=
  oneChange ++
    [.observe "job-1" "repo" "new" none, .registerWorker "session-1" "worker-1" "host" 1 "1",
      .claimJob "worker-1" "session-1" fun _ => false,
      .completeJob (claimedRow .default 2000000 "worker-1"
        (watchJobRow .default 2000000 "job-1" "repo")) false]

theorem watch_states_mean_oneSuccess :
    ∃ view ∈ listWatches 2000000 2000000 (exec .default "repo" oneSuccess).coord.db,
      view.state = .watching ∧
        ((lastObserved (exec .default "repo" oneSuccess).history = none ∧ view.error = some "") ∨
          ∃ fingerprint, (exec .default "repo" oneSuccess).Settled view fingerprint .completed) := by
  have hreach : (system .default "repo").Reachable (exec .default "repo" oneSuccess) :=
    reachable_exec (by decide)
  have hrow : submittedWatch "new" "job-1"
      (observationRow 2000000 (exec .default "repo" oneChange).coord.db.toLedger "new" none
        (observationRow 0 .empty "new" none (.new "repo" true))) ∈
      (exec .default "repo" oneSuccess).coord.db.watches.rows := by decide
  have hview : _ ∈ listWatches 2000000 2000000 (exec .default "repo" oneSuccess).coord.db :=
    List.mem_map.mpr ⟨_, mem_sortBy.mpr hrow, rfl⟩
  exact ⟨_, hview, by decide, (watch_states_mean hreach hview rfl).2.1 (by decide)⟩

end Watched

end RepoMesh
