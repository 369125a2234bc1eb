import RepoMesh.AutoSubmit
import RepoMesh.Chains
import RepoMesh.Submission

/-!
# Retry chains

`parent_job_id` links a job to the one it retries. A step adds at most one link, from a
finished job to a job that it inserts (`step_grows`), so the links make chains that never
cycle and never leave a repository, and `last_job_id` of a watch is the end of the chain
of the newest job that a watch submitted (`Chained`).
-/

namespace RepoMesh

/-! ## What the table says of retries and of watches -/

/-- The links of the job table, oldest successor first. -/
def parentLinks (jobs : Table Job.id) : List (String × String) :=
  jobs.rows.filterMap fun row => row.parentJobId.map (·, row.id)

/-- The id and the creation time of a job that a watch of the repository submitted. -/
def watchStamp (repositoryId : String) (row : Job) : Option (String × Time) :=
  if row.trigger = .watch ∧ row.repositoryId = repositoryId then some (row.id, row.createdAt)
  else none

/-- The jobs that the watch of a repository submitted, in the order of their insertion. -/
def watchJobs (jobs : Table Job.id) (repositoryId : String) : List (String × Time) :=
  jobs.rows.filterMap (watchStamp repositoryId)

/-- The newest of them. -/
def newestWatchJob (jobs : Table Job.id) (repositoryId : String) : Option String :=
  (watchJobs jobs repositoryId).getLast?.map Prod.fst

/-- `last_job_id` is the end of the chain of the newest job of the watch. -/
inductive Tracks (jobs : Table Job.id) (repositoryId : String) : Option String → Prop where
  | none : newestWatchJob jobs repositoryId = none → Tracks jobs repositoryId none
  | last {first last : String} : newestWatchJob jobs repositoryId = some first →
      IsLast (Parent jobs) first last → Tracks jobs repositoryId (some last)

theorem parent_iff {jobs : Table Job.id} {parent successor : String} :
    Parent jobs parent successor ↔ (parent, successor) ∈ parentLinks jobs := by
  simp only [Parent, parentLinks, List.mem_filterMap, Option.map_eq_some_iff, Prod.mk.injEq]
  constructor
  · rintro ⟨row, hrow, hp⟩
    exact ⟨row, Table.mem_of_get? hrow, parent, hp, rfl, Table.key_of_get? hrow⟩
  · rintro ⟨row, hmem, p, hp, rfl, rfl⟩
    exact ⟨row, Table.get?_of_mem hmem, hp⟩

theorem Tracks.congr {jobs jobs' : Table Job.id} {r : String} {last : Option String}
    (h : Tracks jobs r last) (hlinks : parentLinks jobs' = parentLinks jobs)
    (hwatch : watchJobs jobs' r = watchJobs jobs r) : Tracks jobs' r last := by
  have hnewest : newestWatchJob jobs' r = newestWatchJob jobs r := by
    rw [newestWatchJob, hwatch, newestWatchJob]
  cases h with
  | none hnone => exact .none (hnewest.trans hnone)
  | last hfirst hlast =>
      refine .last (hnewest.trans hfirst) (hlast.congr fun x y => ?_)
      rw [parent_iff, parent_iff, hlinks]

/-- Nothing follows the job that is tracked. -/
theorem Tracks.no_successor {jobs : Table Job.id} {r old successor : String}
    (h : Tracks jobs r (some old)) : ¬ Parent jobs old successor := by
  cases h with
  | last _ hlast => exact hlast.2 successor

/-! ## Columns that no step writes -/

section

variable {R : Rights} {cfg : Settings} {now : Time} {l l' : Ledger} {γ : Type}
  {col : Job → Option γ}

theorem JobStep.createdAt_eq {row row' : Job} (h : JobStep cfg now row row') :
    row'.createdAt = row.createdAt := by
  cases h <;> rfl

theorem JobStep.watchStamp_eq {row row' : Job} (r : String) (h : JobStep cfg now row row') :
    watchStamp r row' = watchStamp r row := by
  rw [watchStamp, watchStamp, h.trigger_eq, h.repositoryId_eq, h.id_eq, h.createdAt_eq]

theorem JobStep.parentLink_eq {row row' : Job} (h : JobStep cfg now row row') :
    row'.parentJobId.map (·, row'.id) = row.parentJobId.map (·, row.id) := by
  rw [h.parentJobId_eq, h.id_eq]

/-- A column that no step writes and no inserted row has is the same after an effect. -/
theorem Effect.column (hkept : ∀ {row row'}, JobStep cfg now row row' → col row' = col row)
    (hno : ∀ row, R.inserts row → col row = none) (h : Effect R cfg now l l') :
    l'.jobs.rows.filterMap col = l.jobs.rows.filterMap col := by
  rcases h.jobs_cases with heq | ⟨new, -, hnew, hconf, heq⟩ | ⟨r, r', hr, hstep, heq⟩
  · rw [heq]
  · rw [heq, Table.filterMap_insertNew col (conflicts_id hconf), hno new hnew]
    simp
  · rw [heq]
    show (l.jobs.rows.map _).filterMap col = _
    rw [List.filterMap_map]
    refine List.filterMap_congr fun j hj => ?_
    simp only [Function.comp]
    split
    · rename_i hid
      have hjid : j.id = r.id := (of_decide_eq_true hid).trans hstep.id_eq
      obtain rfl : j = r := Table.eq_of_key hj (Table.mem_of_get? hr) hjid
      have hsame : { r' with id := j.id } = r' := by
        rw [← hstep.id_eq]
      rw [hsame]
      exact hkept hstep
    · rfl

theorem Commit.column (hkept : ∀ {row row'}, JobStep cfg now row row' → col row' = col row)
    (hno : ∀ row, R.inserts row → col row = none) (h : Commit R cfg now l l') :
    l'.jobs.rows.filterMap col = l.jobs.rows.filterMap col := by
  refine h.keeps (P := fun m => m.jobs.rows.filterMap col = l.jobs.rows.filterMap col) ?_ rfl
  intro m m' heff hm
  exact (heff.column hkept hno).trans hm

/-- A row that neither a retry nor a watch inserts. -/
def Job.Plain (row : Job) : Prop :=
  row.trigger ≠ .watch ∧ row.parentJobId = none

theorem Commit.parentLinks (hno : ∀ row, R.inserts row → row.Plain) (h : Commit R cfg now l l') :
    parentLinks l'.jobs = parentLinks l.jobs :=
  h.column (fun hstep => hstep.parentLink_eq) fun row hrow => by rw [(hno row hrow).2]; rfl

theorem Commit.watchJobs (hno : ∀ row, R.inserts row → row.Plain) (h : Commit R cfg now l l')
    (r : String) : watchJobs l'.jobs r = watchJobs l.jobs r :=
  h.column (fun hstep => hstep.watchStamp_eq r) fun row hrow => by
    rw [watchStamp, if_neg fun hand => (hno row hrow).1 hand.1]

end

/-! ## Resubmission -/

section

variable {cfg : Settings} {now : Time} {uuid jobId : String} {db db' : Db} {job : Job}

/-- What a resubmission of the finished job `old` does: it inserts the successor, or returns
the one that is there. -/
inductive Resubmits (cfg : Settings) (now : Time) (db : Db) (uuid : String) (old : Job) :
    Job → Db → Prop where
  | inserted (l : Ledger) :
      db.jobs.get? uuid = none →
      l.jobs = db.jobs.insertNew (successorRow cfg now uuid old) →
      Resubmits cfg now db uuid old (successorRow cfg now uuid old)
        ({ db with toLedger := l }.trackSuccessor old.id uuid)
  | returned (child : Job) :
      db.jobs.get? child.id = some child → child.parentJobId = some old.id →
      Resubmits cfg now db uuid old child (db.trackSuccessor old.id child.id)

theorem resubmitJob_cases (h : resubmitJob cfg now uuid jobId db = .ok (job, db')) :
    ∃ old, db.jobs.get? jobId = some old ∧ old.status.terminal = true ∧
      Resubmits cfg now db uuid old job db' := by
  unfold resubmitJob at h
  split at h
  · cases h
  rename_i old hold
  obtain rfl := Table.key_of_get? hold
  split at h
  · cases h
  rename_i hterm
  refine ⟨old, hold, not_not.mp hterm, ?_⟩
  simp only at h
  split at h
  · cases h
  · rename_i l hins
    obtain ⟨rfl, rfl⟩ := Prod.mk.inj (Except.ok.inj h)
    obtain ⟨hconf, -, rfl⟩ := insertJob_some hins
    exact .inserted _ (conflicts_id hconf) rfl
  · split at h
    · cases h
    · rename_i child hfind
      obtain ⟨rfl, rfl⟩ := Prod.mk.inj (Except.ok.inj h)
      have hparent : child.parentJobId = some old.id := by simpa using List.find?_some hfind
      exact .returned _ (Table.get?_of_mem (List.mem_of_find?_eq_some hfind)) hparent

end

/-! ## How a step grows the chains -/

namespace Coord

variable {cfg : Settings} {s s₀ t : Coord} {a : Action} {repositoryId : String}

/-- Only an observation that inserts a job makes the event of a submission. -/
theorem submitted_mem_watchEvents {fingerprint jobId : String}
    (h : .submitted fingerprint jobId ∈ watchEvents cfg repositoryId s a) :
    ∃ uuid f indexed job db, a = .observe uuid repositoryId f indexed ∧
      s.answer cfg a = .ok (.job job, db) := by
  unfold watchEvents at h
  split at h
  · rename_i uuid r f indexed w reply db hget hans
    split at h
    · rename_i hand
      rw [List.append_assoc, List.mem_append] at h
      rcases h with hnew | hold
      · obtain ⟨job, hjob, -⟩ := List.mem_map.mp hnew
        cases reply with
        | job j => exact ⟨uuid, f, indexed, j, db, by rw [hand.1], hans⟩
        | unit | flag _ | count _ | session _ | noJob => cases hjob
      · exact absurd hold (Watched.divergence_no_submission _ _ _ _ _ _ _)
    · cases h
  · split at h
    · simp at h
    · cases h
  · cases h

/-- What a step does to the chains: nothing, one link to a job it inserts, or a new chain of
the watch of one repository. -/
inductive Grows (cfg : Settings) (s : Coord) (a : Action) (t : Coord) : Prop where
  | quiet : parentLinks t.db.jobs = parentLinks s.db.jobs →
      (∀ r, watchJobs t.db.jobs r = watchJobs s.db.jobs r) →
      (∀ r f j, .submitted f j ∉ watchEvents cfg r s a) → Grows cfg s a t
  | retried (uuid : String) (old : Job) :
      s.db.jobs.get? old.id = some old → old.status.terminal = true →
      s.db.jobs.get? uuid = none →
      t.db.jobs = s.db.jobs.insertNew (successorRow cfg s.now uuid old) →
      t.db.watches = (s.db.trackSuccessor old.id uuid).watches → Grows cfg s a t
  | submitted (uuid : String) (w w' : WatchRow) :
      s.db.watches.get? w.repositoryId = some w → s.db.jobs.get? uuid = none →
      t.db.jobs = s.db.jobs.insertNew (watchJobRow cfg s.now uuid w.repositoryId) →
      w'.repositoryId = w.repositoryId → w'.lastJobId = some uuid →
      t.db.watches = (s.db.putWatch w').watches → Grows cfg s a t

theorem step_grows (h : (system cfg).Reachable s) (hstep : (system cfg).step s a t) :
    Grows cfg s a t := by
  have hok := reachable_ok h
  have hplain : ∀ {R : Rights} {jobs : List Job}, (∀ row, R.inserts row → row.Plain) →
      Serves R cfg s.now s.db jobs t.db →
      (∀ uuid r fingerprint indexed, a ≠ .observe uuid r fingerprint indexed) →
      Grows cfg s a t := by
    intro R jobs hno hserves hobserve
    refine .quiet (hserves.commit.parentLinks hno) (hserves.commit.watchJobs hno) ?_
    intro r f j hmem
    obtain ⟨uuid, f', indexed, _, _, rfl, -⟩ := submitted_mem_watchEvents hmem
    exact hobserve uuid r f' indexed rfl
  obtain ⟨-, jobs, -, hserves⟩ := step_serves hok hstep
  obtain ⟨hadm, rfl⟩ := hstep
  cases hans : s.answer cfg a with
  | error e =>
      have hdb := next_of_error hans
      refine .quiet (by rw [hdb]) (fun r => by rw [hdb]) fun r f j hmem => ?_
      obtain ⟨_, _, _, _, _, -, hsucc⟩ := submitted_mem_watchEvents hmem
      rw [hans] at hsucc
      cases hsucc
  | ok result =>
      obtain ⟨reply, db'⟩ := result
      have hdb := next_of_ok hans
      cases a with
      | submitJob _ _ _ _ _ =>
          obtain ⟨job, heq, -⟩ := replying_ok hans
          refine hplain (fun _ hrow => hrow) (hdb.symm ▸ submitJob_serves (P := Job.Plain)
            (fun _ => ⟨by simp [submittedRow, Job.new], rfl⟩) heq) (by simp)
      | importLegacyJobs _ =>
          obtain ⟨n, heq, -⟩ := replying_ok hans
          refine hplain (fun _ hrow => hrow) (hdb.symm ▸ importLegacyJobs_serves (P := Job.Plain)
            (fun _ _ _ _ => ⟨by simp [LegacyRow.toJob, Job.new], rfl⟩) heq) (by simp)
      | resubmitJob uuid jobId =>
          obtain ⟨job, heq, -⟩ := replying_ok hans
          obtain ⟨old, hold, hterm, hre⟩ := resubmitJob_cases heq
          obtain rfl := Table.key_of_get? hold
          cases hre with
          | inserted l hnone hjobs =>
              exact .retried uuid old hold hterm hnone (by rw [hdb]; exact hjobs) (by rw [hdb]; rfl)
          | returned child _ _ =>
              refine .quiet (by rw [hdb]; rfl) (fun r => by rw [hdb]; rfl) fun r f j hmem => ?_
              obtain ⟨_, _, _, _, _, ha, -⟩ := submitted_mem_watchEvents hmem
              cases ha
      | observe uuid r fingerprint indexed =>
          obtain ⟨job, heq, rfl⟩ := replying_ok hans
          have hquiet : job = none → (s.next cfg (.observe uuid r fingerprint indexed)).db.jobs =
              s.db.jobs → Grows cfg s (.observe uuid r fingerprint indexed)
                (s.next cfg (.observe uuid r fingerprint indexed)) := by
            rintro rfl hjobs
            refine .quiet (by rw [hjobs]) (fun r' => by rw [hjobs]) fun r' f j hmem => ?_
            obtain ⟨_, _, _, _, _, -, hsucc⟩ := submitted_mem_watchEvents hmem
            rw [hans] at hsucc
            cases hsucc
          cases observe_cases heq with
          | absent _ => exact hquiet rfl (by rw [hdb])
          | paused _ _ => exact hquiet rfl (by rw [hdb])
          | recorded _ _ _ => exact hquiet rfl (by rw [hdb]; rfl)
          | @submitted w l hget _ _ hins =>
              obtain ⟨hconf, -, rfl⟩ := insertJob_some hins
              have hkey : w.repositoryId = r := Table.key_of_get? hget
              subst hkey
              refine .submitted uuid w
                (submittedWatch fingerprint uuid
                  (observationRow s.now s.db.toLedger fingerprint indexed w))
                hget (conflicts_id hconf) (by rw [hdb]; rfl) (by simp [submittedWatch]) rfl
                (by rw [hdb]; rfl)
      | _ =>
          refine hplain ?_ hserves (by simp)
          intro row hrow
          exact False.elim hrow

/-! ## The invariant -/

/-- `successor` retries `parent`: a finished job of the same repository. -/
def Linked (jobs : Table Job.id) (parent successor : String) : Prop :=
  ∃ old row, jobs.get? parent = some old ∧ jobs.get? successor = some row ∧
    old.status.terminal = true ∧ row.repositoryId = old.repositoryId

/-- What holds of the chains and of the watches that track them. -/
structure Chained (s : Coord) : Prop where
  linked : ∀ {p c}, Parent s.db.jobs p c → Linked s.db.jobs p c
  acyclic : ∀ id, ¬ Relation.TransGen (Parent s.db.jobs) id id
  ordered : ∀ r, (watchJobs s.db.jobs r).Pairwise fun x y => x.2 ≤ y.2
  created : ∀ r, ∀ x ∈ watchJobs s.db.jobs r, x.2 ≤ s.now
  tracked : ∀ {r w}, s.db.watches.get? r = some w → Tracks s.db.jobs r w.lastJobId
  unwatched : ∀ {r}, s.db.watches.get? r = none → watchJobs s.db.jobs r = []

/-- A link stays, with what it says of its jobs. -/
theorem step_linked (h : (system cfg).Reachable s) (hstep : (system cfg).step s a t) {p c : String}
    (hl : Linked s.db.jobs p c) : Linked t.db.jobs p c := by
  obtain ⟨old, row, hold, hrow, hterm, hrepo⟩ := hl
  obtain ⟨old', hold', rfl | hjob⟩ := step_job h hstep hold
  · obtain ⟨row', hrow', rfl | hjob⟩ := step_job h hstep hrow
    · exact ⟨old', row', hold', hrow', hterm, hrepo⟩
    · exact ⟨old', row', hold', hrow', hterm, hjob.repositoryId_eq.trans hrepo⟩
  · rw [hjob.not_terminal] at hterm
    cases hterm

theorem now_le_of_step (hstep : (system cfg).step s a t) : s.now ≤ t.now :=
  now_le_of_run (.single hstep)

/-- A link from a finished job to a new one. -/
theorem Chained.extends (hc : s.Chained) {uuid : String} {old : Job}
    (hold : s.db.jobs.get? old.id = some old) (hnone : s.db.jobs.get? uuid = none)
    (hjobs : t.db.jobs = s.db.jobs.insertNew (successorRow cfg s.now uuid old)) :
    Extends (Parent s.db.jobs) (Parent t.db.jobs) old.id uuid where
  link x y := by
    rw [hjobs, parent_iff, parentLinks, Table.filterMap_insertNew _ hnone, List.mem_append,
      ← parentLinks, ← parent_iff]
    simp [successorRow, Job.new]
  fresh y hy := by
    obtain ⟨new, -, hnew, -⟩ := hc.linked hy
    rw [hnone] at hnew
    cases hnew
  ne heq := by
    rw [← heq, hnone] at hold
    cases hold

theorem Chained.quiet (hc : s.Chained) (h : (system cfg).Reachable s)
    (hstep : (system cfg).step s a t) (hlinks : parentLinks t.db.jobs = parentLinks s.db.jobs)
    (hwatch : ∀ r, watchJobs t.db.jobs r = watchJobs s.db.jobs r)
    (hevents : ∀ r f j, .submitted f j ∉ watchEvents cfg r s a) : t.Chained := by
  have hparent : ∀ x y, Parent t.db.jobs x y ↔ Parent s.db.jobs x y := by
    intro x y
    rw [parent_iff, hlinks, parent_iff]
  have hturn := step_watch hstep
  refine ⟨fun hp => ?_, fun id hcycle => ?_, fun r => ?_, fun r x hx => ?_, ?_, ?_⟩
  · exact step_linked h hstep (hc.linked ((hparent _ _).mp hp))
  · exact hc.acyclic id (Relation.TransGen.mono (fun x y => (hparent x y).mp) _ _ hcycle)
  · rw [hwatch]
    exact hc.ordered r
  · rw [hwatch] at hx
    exact le_trans (hc.created r x hx) (now_le_of_step hstep)
  · intro r w' hw'
    have hr := hturn r
    rw [hw'] at hr
    generalize hw : s.db.watches.get? r = before at hr
    generalize hev : watchEvents cfg r s a = events at hr
    cases hr with
    | ensured enabled _ =>
        refine .none ?_
        rw [newestWatchJob, hwatch, hc.unwatched hw]
        rfl
    | @moved _ w _ hmove =>
        have htracks := (hc.tracked hw).congr hlinks (hwatch r)
        cases hmove with
        | quiet _ hlast =>
            rw [hlast]
            exact htracks
        | tracked hold hparent =>
            rw [hold] at htracks
            exact absurd hparent htracks.no_successor
        | setEnabled enabled => exact htracks
        | recorded fingerprint indexed _ _ =>
            show Tracks _ r (reconciledRow _ fingerprint indexed w).lastJobId
            rw [(reconciledRow_same _ fingerprint indexed w).2.2.2]
            exact htracks
        | submitted fingerprint indexed uuid _ _ =>
            have hmem := hevents r fingerprint uuid
            rw [hev] at hmem
            simp at hmem
  · intro r hnone
    have hr := hturn r
    rw [hnone] at hr
    rw [hwatch]
    generalize hw : s.db.watches.get? r = before at hr
    generalize watchEvents cfg r s a = events at hr
    cases hr
    exact hc.unwatched hw

theorem Chained.retried (hc : s.Chained) (h : (system cfg).Reachable s)
    (hstep : (system cfg).step s a t) {uuid : String} {old : Job}
    (hold : s.db.jobs.get? old.id = some old) (hterm : old.status.terminal = true)
    (hnone : s.db.jobs.get? uuid = none)
    (hjobs : t.db.jobs = s.db.jobs.insertNew (successorRow cfg s.now uuid old))
    (hwatches : t.db.watches = (s.db.trackSuccessor old.id uuid).watches) : t.Chained := by
  have hext := hc.extends hold hnone hjobs
  have hwatch : ∀ r, watchJobs t.db.jobs r = watchJobs s.db.jobs r := by
    intro r
    rw [hjobs, watchJobs, Table.filterMap_insertNew _ hnone, ← watchJobs]
    simp [watchStamp, successorRow]
  refine ⟨fun hp => ?_, hext.acyclic hc.acyclic, fun r => ?_, fun r x hx => ?_, ?_, ?_⟩
  · rcases (hext.link _ _).mp hp with hp | ⟨hp, hc⟩
    · exact step_linked h hstep (hc.linked hp)
    · rw [hp, hc]
      refine ⟨old, successorRow cfg s.now uuid old, ?_, ?_, hterm, rfl⟩
      · rw [hjobs]
        exact Table.get?_insertNew_of_some hold
      · rw [hjobs]
        exact Table.get?_insertNew_self hnone
  · rw [hwatch]
    exact hc.ordered r
  · rw [hwatch] at hx
    exact le_trans (hc.created r x hx) (now_le_of_step hstep)
  · intro r w' hw'
    rw [hwatches, Db.trackSuccessor, Table.get?_update] at hw'
    obtain ⟨w, hw, rfl⟩ := Option.map_eq_some_iff.mp hw'
    have hnewest : newestWatchJob t.db.jobs r = newestWatchJob s.db.jobs r := by
      rw [newestWatchJob, hwatch, newestWatchJob]
    have htracks := hc.tracked hw
    by_cases hlast : w.lastJobId = some old.id
    · simp only [hlast, decide_true, if_true]
      rw [hlast] at htracks
      cases htracks with
      | last hfirst hend => exact .last (hnewest.trans hfirst) (hext.last hend)
    · simp only [hlast, decide_false, Bool.false_eq_true, if_false]
      cases hid : w.lastJobId with
      | none =>
          rw [hid] at htracks
          cases htracks with
          | none hfirst => exact .none (hnewest.trans hfirst)
      | some last =>
          rw [hid] at htracks
          cases htracks with
          | last hfirst hend =>
              refine .last (hnewest.trans hfirst) (hext.last_of_ne hend fun heq => ?_)
              exact hlast (hid.trans (congrArg some heq))
  · intro r hnone'
    rw [hwatches, Db.trackSuccessor, Table.get?_update, Option.map_eq_none_iff] at hnone'
    rw [hwatch]
    exact hc.unwatched hnone'

theorem Chained.submitted (hc : s.Chained) (h : (system cfg).Reachable s)
    (hstep : (system cfg).step s a t) {uuid : String} {w w' : WatchRow}
    (hw : s.db.watches.get? w.repositoryId = some w) (hnone : s.db.jobs.get? uuid = none)
    (hjobs : t.db.jobs = s.db.jobs.insertNew (watchJobRow cfg s.now uuid w.repositoryId))
    (hrepo : w'.repositoryId = w.repositoryId) (hlast : w'.lastJobId = some uuid)
    (hwatches : t.db.watches = (s.db.putWatch w').watches) : t.Chained := by
  have hlinks : parentLinks t.db.jobs = parentLinks s.db.jobs := by
    rw [hjobs, parentLinks, Table.filterMap_insertNew _ hnone, ← parentLinks]
    simp [watchJobRow, Job.new]
  have hparent : ∀ x y, Parent t.db.jobs x y ↔ Parent s.db.jobs x y := by
    intro x y
    rw [parent_iff, hlinks, parent_iff]
  have hwatch : ∀ r, watchJobs t.db.jobs r = watchJobs s.db.jobs r ++
      if r = w.repositoryId then [(uuid, s.now)] else [] := by
    intro r
    rw [hjobs, watchJobs, Table.filterMap_insertNew _ hnone, ← watchJobs]
    by_cases hr : r = w.repositoryId
    · simp [hr, watchStamp, watchJobRow, Job.new]
    · simp [hr, Ne.symm hr, watchStamp, watchJobRow, Job.new]
  have hrow : ∀ r, t.db.watches.get? r =
      if r = w.repositoryId then some w' else s.db.watches.get? r := by
    intro r
    rw [hwatches, get?_putWatch, hrepo]
    split
    · rename_i hr
      rw [hr, hw]
      rfl
    · rfl
  refine ⟨fun hp => ?_, fun id hcycle => ?_, fun r => ?_, fun r x hx => ?_, ?_, ?_⟩
  · exact step_linked h hstep (hc.linked ((hparent _ _).mp hp))
  · exact hc.acyclic id (Relation.TransGen.mono (fun x y => (hparent x y).mp) _ _ hcycle)
  · rw [hwatch, List.pairwise_append]
    refine ⟨hc.ordered r, by split <;> simp, fun x hx y hy => ?_⟩
    split at hy
    · obtain rfl := List.mem_singleton.mp hy
      exact hc.created r x hx
    · cases hy
  · rw [hwatch, List.mem_append] at hx
    rcases hx with hx | hx
    · exact le_trans (hc.created r x hx) (now_le_of_step hstep)
    · split at hx
      · obtain rfl := List.mem_singleton.mp hx
        exact now_le_of_step hstep
      · cases hx
  · intro r v hv
    rw [hrow] at hv
    split at hv
    · rename_i hr
      obtain rfl := Option.some.inj hv
      rw [hlast]
      refine Tracks.last (?_ : _ = some uuid) ⟨.refl, fun x hx => ?_⟩
      · rw [newestWatchJob, hwatch, if_pos hr]
        simp
      · obtain ⟨new, -, hnew, -⟩ := hc.linked ((hparent uuid x).mp hx)
        rw [hnone] at hnew
        cases hnew
    · rename_i hr
      refine (hc.tracked hv).congr hlinks ?_
      rw [hwatch, if_neg hr, List.append_nil]
  · intro r hnone'
    rw [hrow] at hnone'
    split at hnone'
    · cases hnone'
    · rename_i hr
      rw [hwatch, if_neg hr, List.append_nil]
      exact hc.unwatched hnone'

theorem Chained.step (hc : s.Chained) (h : (system cfg).Reachable s)
    (hstep : (system cfg).step s a t) : t.Chained := by
  cases step_grows h hstep with
  | quiet hlinks hwatch hevents => exact hc.quiet h hstep hlinks hwatch hevents
  | retried uuid old hold hterm hnone hjobs hwatches =>
      exact hc.retried h hstep hold hterm hnone hjobs hwatches
  | submitted uuid w w' hw hnone hjobs hrepo hlast hwatches =>
      exact hc.submitted h hstep hw hnone hjobs hrepo hlast hwatches

theorem reachable_chained (h : (system cfg).Reachable s) : s.Chained := by
  refine h.induct ?_ fun _ _ _ hu hc hstep => hc.step hu hstep
  rintro s₀ ⟨hdb, -⟩
  have hno : ∀ p c, ¬ Parent s₀.db.jobs p c := by
    rintro p c ⟨row, hrow, -⟩
    rw [hdb] at hrow
    cases hrow
  refine ⟨fun hp => absurd hp (hno _ _), fun id hcycle => ?_, fun r => ?_, fun r x hx => ?_, ?_, ?_⟩
  · obtain ⟨y, hy, -⟩ := Relation.TransGen.head'_iff.mp hcycle
    exact hno id y hy
  · rw [hdb]
    exact .nil
  · rw [hdb] at hx
    cases hx
  · intro r w hw
    rw [hdb] at hw
    cases hw
  · intro r _
    rw [hdb]
    rfl

/-! ## Retries over a run -/

/-- A chain stays inside one repository. -/
theorem Chained.same_repository (hc : s.Chained) {id id' : String} {row row' : Job}
    (hpath : Descends s.db.jobs id id') (hrow : s.db.jobs.get? id = some row)
    (hrow' : s.db.jobs.get? id' = some row') : row'.repositoryId = row.repositoryId := by
  induction hpath generalizing row' with
  | refl => rw [Option.some.inj (hrow.symm.trans hrow')]
  | tail _ hlink ih =>
      obtain ⟨old, new, hold, hnew, -, hrepo⟩ := hc.linked hlink
      obtain rfl := Option.some.inj (hnew.symm.trans hrow')
      exact hrepo.trans (ih hold)

/-- What a retry left behind. -/
theorem answered_retry (h₀ : (system cfg).init s₀) {as : List Action}
    (hrun : (system cfg).Run s₀ as t) {u : Coord} {uuid jobId : String} {job : Job}
    (hcall : Answered cfg s₀ as u (.resubmitJob uuid jobId) (.job job)) :
    Parent t.db.jobs jobId job.id ∧
      (u.next cfg (.resubmitJob uuid jobId)).db.jobs.get? jobId = u.db.jobs.get? jobId := by
  obtain ⟨bs, cs, db, rfl, hbs, hans⟩ := hcall
  have hu : (system cfg).Reachable u := ⟨s₀, bs, h₀, hbs⟩
  obtain ⟨job', heq, hreply⟩ := replying_ok hans
  obtain rfl : job = job' := Reply.job.inj hreply
  obtain ⟨old, hold, -, hre⟩ := resubmitJob_cases heq
  obtain rfl := Table.key_of_get? hold
  have hrest := run_split hrun hbs
  cases hrest with
  | @cons _ v _ _ _ hstep hcs =>
      have hv := hu.step hstep
      obtain rfl : v = u.next cfg _ := hstep.2
      obtain ⟨hsame, row, hrow, hparent⟩ : db.jobs.get? old.id = u.db.jobs.get? old.id ∧
          Parent db.jobs old.id job.id := by
        cases hre with
        | inserted l hnone hjobs =>
            have hdb : ({ u.db with toLedger := l }.trackSuccessor old.id uuid).jobs =
                u.db.jobs.insertNew (successorRow cfg u.now uuid old) := hjobs
            refine ⟨?_, successorRow cfg u.now uuid old, ?_, rfl⟩
            · rw [hdb, hold]
              exact Table.get?_insertNew_of_some hold
            · rw [hdb]
              exact Table.get?_insertNew_self hnone
        | returned _ hchild hparent => exact ⟨rfl, job, hchild, hparent⟩
      rw [← next_of_ok hans] at hsame hrow
      obtain ⟨row', hrow', hcol⟩ := run_column JobStep.parentJobId_eq hv hcs hrow
      exact ⟨⟨row', hrow', hcol.trans hparent⟩, hsame⟩

/-- A parent that has a successor is an arbiter conflict of the insertion. -/
theorem parent_conflict {l : Ledger} {row : Job} (hparent : row.parentJobId.isSome = true)
    {id : String} {other : Job} (hother : l.jobs.get? id = some other)
    (hheld : other.parentJobId = row.parentJobId) : .jobsParentJobId ∈ l.conflicts row := by
  have hany : l.jobs.rows.any (·.parentJobId = row.parentJobId) = true :=
    List.any_eq_true.mpr ⟨other, Table.mem_of_get? hother, by simpa using hheld⟩
  simp [Ledger.conflicts, hparent, hany]

/-- A job that has a successor returns it. -/
theorem resubmitJob_again {now : Time} {db : Db} (hu : UniqueOn Job.parentJobId db.jobs)
    {uuid : String} {old child : Job} (hold : db.jobs.get? old.id = some old)
    (hterm : old.status.terminal = true) {id : String} (hchild : db.jobs.get? id = some child)
    (hparent : child.parentJobId = some old.id) :
    resubmitJob cfg now uuid old.id db = .ok (child, db.trackSuccessor old.id child.id) := by
  have hconflict : .jobsParentJobId ∈ db.toLedger.conflicts (successorRow cfg now uuid old) :=
    parent_conflict rfl hchild hparent
  have hfind : db.jobs.rows.find? (·.parentJobId = some old.id) = some child :=
    hu.find (v := some old.id) rfl (fun j hj => by simpa using hj) hchild (by simpa using hparent)
  unfold resubmitJob
  rw [hold]
  simp only [hterm, not_true_eq_false, if_false]
  rw [insertJob_held (successorRow_fresh uuid old) hconflict (by simp)]
  simp only [hfind]

/-- Retry chains are linear, and the watches track their ends. -/
theorem retry_chains_linear (h₀ : (system cfg).init s₀) {as : List Action}
    (hrun : (system cfg).Run s₀ as t) :
    Relator.RightUnique (Parent t.db.jobs) ∧
    (∀ id, ¬ Relation.TransGen (Parent t.db.jobs) id id) ∧
    (∀ id id' row row', Descends t.db.jobs id id' → t.db.jobs.get? id = some row →
      t.db.jobs.get? id' = some row' → row'.repositoryId = row.repositoryId) ∧
    (∀ u uuid jobId job, Answered cfg s₀ as u (.resubmitJob uuid jobId) (.job job) →
      Parent t.db.jobs jobId job.id ∧
        (u.next cfg (.resubmitJob uuid jobId)).db.jobs.get? jobId = u.db.jobs.get? jobId) ∧
    (∀ uuid jobId successor, Parent t.db.jobs jobId successor →
      ∃ job db, t.answer cfg (.resubmitJob uuid jobId) = .ok (.job job, db) ∧
        job.id = successor ∧ db.jobs = t.db.jobs) ∧
    (∀ uuid jobId, (∀ row, t.db.jobs.get? jobId = some row → row.status.terminal = false) →
      (∃ e, t.answer cfg (.resubmitJob uuid jobId) = .error e) ∧
        (t.next cfg (.resubmitJob uuid jobId)).db = t.db) ∧
    (∀ r w, t.db.watches.get? r = some w → Tracks t.db.jobs r w.lastJobId) ∧
    ∀ r, (watchJobs t.db.jobs r).Pairwise fun x y => x.2 ≤ y.2 := by
  have ht : (system cfg).Reachable t := ⟨s₀, as, h₀, hrun⟩
  have hc := reachable_chained ht
  have hunique : UniqueOn Job.parentJobId t.db.jobs := reachable_unique uniqueColumn_parentJobId ht
  refine ⟨?_, hc.acyclic, fun _ _ _ _ => hc.same_repository,
    fun _ _ _ _ => answered_retry h₀ hrun, ?_, ?_, fun _ _ => hc.tracked, hc.ordered⟩
  · rintro parent c c' ⟨row, hrow, hp⟩ ⟨row', hrow', hp'⟩
    exact hunique hrow hrow' (by rw [hp]; rfl) (hp.trans hp'.symm)
  · intro uuid jobId successor hlink
    obtain ⟨old, -, hold, -, hterm, -⟩ := hc.linked hlink
    obtain ⟨child, hchild, hparent⟩ := hlink
    obtain rfl := Table.key_of_get? hold
    exact ⟨child, _, replying_of_ok .job (resubmitJob_again hunique hold hterm hchild hparent),
      Table.key_of_get? hchild, rfl⟩
  · intro uuid jobId hlive
    have hrefused : ∃ e, resubmitJob cfg t.now uuid jobId t.db = .error e := by
      unfold resubmitJob
      cases hrow : t.db.jobs.get? jobId with
      | none => exact ⟨_, rfl⟩
      | some row => exact ⟨.valueError "only finished jobs can be resubmitted", by simp [hlive row hrow]⟩
    obtain ⟨e, he⟩ := hrefused
    have hans : t.answer cfg (.resubmitJob uuid jobId) = .error e := replying_error.mpr he
    exact ⟨⟨e, hans⟩, next_of_error hans⟩

/-- A finished job is indexed again, and the click is repeated. -/
theorem retry_chains_linear_twice :
    ∃ job db, ((empty 0).exec .default (oneClaim ++
        [.completeJob oneClaimJob false, .resubmitJob "job-2" "job-1"])).answer .default
          (.resubmitJob "job-3" "job-1") = .ok (.job job, db) ∧ job.id = "job-2" ∧
      db.jobs = ((empty 0).exec .default (oneClaim ++
        [.completeJob oneClaimJob false, .resubmitJob "job-2" "job-1"])).db.jobs := by
  have hrun : (system .default).Run (empty 0) (oneClaim ++
      [.completeJob oneClaimJob false, .resubmitJob "job-2" "job-1"]) _ := run_exec (by decide)
  refine (retry_chains_linear ⟨rfl, rfl⟩ hrun).2.2.2.2.1 "job-3" "job-1" "job-2" ?_
  exact ⟨successorRow .default 0 "job-2" (finishRow 0 .completed none 0 oneClaimJob), by rfl, rfl⟩

end Coord

end RepoMesh
