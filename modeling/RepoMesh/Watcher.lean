import RepoMesh.RetryChains
import RepoMesh.WatchList

/-!
# Watchers

`RepositoryWatcher.run_once`, for any number of watcher processes beside workers and clients. A
watcher whose session gets the advisory lock reads the repositories, sees to it that each has a
watch, and then reports what it finds of every repository whose watch it saw enabled. The
session, and with it the lock, can be lost without the process; the pass ends at the next
`SELECT 1` on it. A submitted job is in the store before its line is in the log: a watcher that
is stopped in between, or never learns that its transaction was committed, leaves no line.
-/

namespace RepoMesh

/-- What a pass does next, about the first repository that is left unless it says another. -/
inductive ScanStage where
  | look
  /-- `conn.execute("SELECT 1")` -/
  | verify (fingerprint indexed : String)
  | observe (fingerprint indexed : String)
  /-- `if job:` behind a committed observation -/
  | submitted (repositoryId jobId : String)
  /-- the handler of the exceptions that are not PostgreSQL's -/
  | fail (error : String)
  deriving DecidableEq

/-- Where a watcher is in `run_once`. -/
inductive ScanPhase where
  | idle
  | elected
  | ensuring (repositories todo : List String)
  | scanning (enabled todo : List String) (stage : ScanStage) (count : ℕ)
  deriving DecidableEq

/-- The repository and the job of the line that is to be written next. -/
def ScanPhase.line? : ScanPhase → Option (String × String)
  | .scanning _ _ (.submitted repositoryId jobId) _ => some (repositoryId, jobId)
  | _ => none

/-- A line `watch_job_submitted` of the log. -/
structure SubmittedLine where
  watcher : ℕ
  repositoryId : String
  jobId : String
  deriving DecidableEq

structure Watchers where
  coord : Coord
  /-- whose session holds the advisory lock -/
  elected : Option ℕ
  phases : ℕ → ScanPhase
  /-- newest first -/
  log : List SubmittedLine

inductive WatcherMove where
  | elect
  | read (repositories : List String)
  | ensure
  | list
  /-- what the path, the checkout and the manifest come to: the fingerprints of `Fingerprint`,
  or the text of an exception -/
  | look (outcome : Except String (String × String))
  | verify
  | observe (uuid : String)
  | log
  | recordError
  /-- the end of the loop, a stop, an exception or a crash -/
  | leave

/-- What an observation that was answered leaves to do. -/
def ScanStage.behind (repositoryId : String) : Reply → ScanStage
  | .job job => .submitted repositoryId job.id
  | _ => .look

/-- The calls that only `run_once` makes. -/
def Action.byWatcher : Action → Bool
  | .observe _ _ _ _ | .recordError _ _ => true
  | _ => false

namespace Watchers

inductive Move where
  | client (a : Action)
  /-- the session that holds the lock is lost -/
  | dropped
  | watcher (i : ℕ) (m : WatcherMove)

/-- The watcher whose move it is. -/
def Move.watcher? : Move → Option ℕ
  | .watcher i _ => some i
  | _ => none

def setPhase (i : ℕ) (p : ScanPhase) (s : Watchers) : Watchers :=
  { s with phases := Function.update s.phases i p }

@[simp] theorem setPhase_phases (i : ℕ) (p : ScanPhase) (s : Watchers) (j : ℕ) :
    (s.setPhase i p).phases j = if j = i then p else s.phases j :=
  Function.update_apply ..

def call (cfg : Settings) (a : Action) (s : Watchers) : Watchers :=
  { s with coord := s.coord.next cfg a }

/-- `run_once` is over, and its lock is given back. -/
def leave (i : ℕ) (s : Watchers) : Watchers :=
  { s.setPhase i .idle with elected := if s.elected = some i then none else s.elected }

/-- `{w["repository_id"] for w in self.watches.list() if w["enabled"]}` -/
def enabledIds (watchPollSeconds : Time) (s : Coord) : List String :=
  ((listWatches watchPollSeconds s.now s.db).filter (·.enabled)).map (·.repositoryId)

def turn (cfg : Settings) (watchPollSeconds : Time) (i : ℕ) (m : WatcherMove) (s : Watchers) :
    Option Watchers :=
  match s.phases i, m with
  | .idle, .elect =>
      -- a watcher that is not elected returns 0
      some (if s.elected = none then { s.setPhase i .elected with elected := some i } else s)
  | .elected, .read repositories => some (s.setPhase i (.ensuring repositories repositories))
  | .ensuring repositories (r :: todo), .ensure =>
      some ((s.call cfg (.ensure r none)).setPhase i (.ensuring repositories todo))
  | .ensuring repositories [], .list =>
      some (s.setPhase i
        (.scanning (enabledIds watchPollSeconds s.coord) repositories .look 0))
  | .scanning enabled (r :: todo) .look count, .look outcome =>
      some (s.setPhase i
        (if r ∉ enabled then .scanning enabled todo .look count
        else
          match outcome with
          | .ok (fingerprint, indexed) =>
              .scanning enabled (r :: todo) (.verify fingerprint indexed) count
          | .error e => .scanning enabled (r :: todo) (.fail e) count))
  | .scanning enabled todo (.verify fingerprint indexed) count, .verify =>
      some (if s.elected = some i then
          s.setPhase i (.scanning enabled todo (.observe fingerprint indexed) count)
        else s.leave i)
  | .scanning enabled (r :: todo) (.observe fingerprint indexed) count, .observe uuid =>
      match s.coord.answer cfg (.observe uuid r fingerprint (some indexed)) with
      | .ok (reply, _) =>
          some ((s.call cfg (.observe uuid r fingerprint (some indexed))).setPhase i
            (.scanning enabled todo (.behind r reply) count))
      | .error .assertionError => some (s.setPhase i (.scanning enabled (r :: todo) (.fail "") count))
      | .error _ => some (s.leave i)
  | .scanning enabled todo (.submitted r jobId) count, .log =>
      some { s.setPhase i (.scanning enabled todo .look (count + 1)) with
        log := ⟨i, r, jobId⟩ :: s.log }
  | .scanning enabled (r :: todo) (.fail e) count, .recordError =>
      some ((s.call cfg (.recordError r e)).setPhase i (.scanning enabled todo .look count))
  | _, .leave => some (s.leave i)
  | _, _ => none

/-- The state after a move, if it is possible. -/
def next (cfg : Settings) (watchPollSeconds : Time) (s : Watchers) : Move → Option Watchers
  | .client a =>
      if s.coord.Admissible a ∧ a.byWatcher = false then some (s.call cfg a) else none
  | .dropped => some { s with elected := none }
  | .watcher i m => s.turn cfg watchPollSeconds i m

def system (cfg : Settings) (watchPollSeconds : Time) : System Watchers Move where
  init s := (Coord.system cfg).init s.coord ∧ s.elected = none ∧ (∀ i, s.phases i = .idle) ∧
    s.log = []
  step s m t := s.next cfg watchPollSeconds m = some t

/-! ## What a turn does -/

/-- A call on the store by `run_once`. -/
inductive Calls (cfg : Settings) (s t : Watchers) : Action → Prop where
  | ensure (r : String) : t.coord = s.coord.next cfg (.ensure r none) →
      Calls cfg s t (.ensure r none)
  | recordError (r e : String) : t.coord = s.coord.next cfg (.recordError r e) →
      Calls cfg s t (.recordError r e)
  | observe {uuid r fingerprint indexed : String} :
      t.coord = s.coord.next cfg (.observe uuid r fingerprint (some indexed)) →
      Calls cfg s t (.observe uuid r fingerprint (some indexed))

/-- The lines that the move leaves unwritten for good. -/
def lost (s : Watchers) : Move → List (String × String)
  | .watcher i .leave => (s.phases i).line?.toList
  | _ => []

/-- What a turn does to the lines that are written and to be written. -/
inductive Lines (cfg : Settings) (i : ℕ) (s t : Watchers) (m : WatcherMove) : Prop where
  | quiet : t.coord = s.coord → t.log = s.log → (t.phases i).line? = (s.phases i).line? →
      s.lost (.watcher i m) = [] → Lines cfg i s t m
  | calls {a : Action} : Calls cfg s t a → (∀ job db, s.coord.answer cfg a ≠ .ok (.job job, db)) →
      t.log = s.log → (t.phases i).line? = (s.phases i).line? → s.lost (.watcher i m) = [] →
      Lines cfg i s t m
  | submits {uuid r fingerprint indexed : String} {job : Job} {db : Db} :
      s.coord.answer cfg (.observe uuid r fingerprint (some indexed)) = .ok (.job job, db) →
      t.coord = s.coord.next cfg (.observe uuid r fingerprint (some indexed)) →
      t.log = s.log → (s.phases i).line? = none → (t.phases i).line? = some (r, job.id) →
      s.lost (.watcher i m) = [] → Lines cfg i s t m
  | writes {r id : String} : t.coord = s.coord → t.log = ⟨i, r, id⟩ :: s.log →
      (s.phases i).line? = some (r, id) → (t.phases i).line? = none →
      s.lost (.watcher i m) = [] → Lines cfg i s t m
  | loses {r id : String} : t.coord = s.coord → t.log = s.log →
      (s.phases i).line? = some (r, id) → (t.phases i).line? = none →
      s.lost (.watcher i m) = [(r, id)] → Lines cfg i s t m

section

variable {cfg : Settings} {watchPollSeconds : Time} {i : ℕ} {m : WatcherMove} {s t : Watchers}

theorem setPhase_self (i : ℕ) (p : ScanPhase) (s : Watchers) : (s.setPhase i p).phases i = p := by
  rw [setPhase_phases, if_pos rfl]

theorem turn_phases (h : s.turn cfg watchPollSeconds i m = some t) {j : ℕ} (hj : j ≠ i) :
    t.phases j = s.phases j := by
  have hset : ∀ {p u}, u.phases = s.phases → (setPhase i p u).phases j = s.phases j := by
    intro p u hu
    rw [setPhase_phases, if_neg hj, hu]
  unfold turn at h
  split at h <;> try cases h
  case h_1 =>
    split
    · exact hset rfl
    · rfl
  case h_6 =>
    split
    · exact hset rfl
    · exact hset rfl
  case h_7 => split at h <;> cases h <;> exact hset rfl
  all_goals exact hset rfl

theorem turn_lines (h : s.turn cfg watchPollSeconds i m = some t) : Lines cfg i s t m := by
  have hquiet : ∀ {p : ScanPhase} {u : Watchers}, p.line? = none → u.coord = s.coord →
      u.log = s.log → (s.phases i).line? = none → s.lost (.watcher i m) = [] →
      Lines cfg i s (u.setPhase i p) m := by
    intro p u hp hcoord hlog hnone hlost
    exact .quiet hcoord hlog (by rw [setPhase_self, hp, hnone]) hlost
  have hidle : ((s.leave i).phases i).line? = none :=
    congrArg ScanPhase.line? (setPhase_self i .idle s)
  have hleave : (s.phases i).line? = none → s.lost (.watcher i m) = [] →
      Lines cfg i s (s.leave i) m :=
    fun hnone hlost => .quiet rfl rfl (hidle.trans hnone.symm) hlost
  unfold turn at h
  split at h <;> try cases h
  case h_1 hphase =>
    have hnone : (s.phases i).line? = none := by rw [hphase]; rfl
    split
    · exact .quiet rfl rfl ((congrArg ScanPhase.line? (setPhase_self ..)).trans hnone.symm) rfl
    · exact .quiet rfl rfl rfl rfl
  case h_2 hphase => exact hquiet rfl rfl rfl (by rw [hphase]; rfl) rfl
  case h_3 hphase =>
    refine .calls (.ensure _ rfl) (fun _ _ hans => (by cases hans)) rfl ?_ rfl
    rw [setPhase_self, hphase]
    rfl
  case h_4 hphase => exact hquiet rfl rfl rfl (by rw [hphase]; rfl) rfl
  case h_5 hphase =>
    refine hquiet ?_ rfl rfl (by rw [hphase]; rfl) rfl
    split
    · rfl
    · split <;> rfl
  case h_6 hphase =>
    have hnone : (s.phases i).line? = none := by rw [hphase]; rfl
    split
    · exact hquiet rfl rfl rfl hnone rfl
    · exact hleave hnone rfl
  case h_7 hphase =>
    have hnone : (s.phases i).line? = none := by rw [hphase]; rfl
    split at h
    · rename_i reply db hans
      obtain rfl := Option.some.inj h
      cases hreply : reply with
      | job job =>
          subst hreply
          exact .submits hans rfl rfl hnone (by rw [setPhase_self]; rfl) rfl
      | unit | flag _ | count _ | session _ | noJob =>
          subst hreply
          refine .calls (.observe rfl) (fun job db hjob => ?_) rfl ?_ rfl
          · rw [hans] at hjob
            cases hjob
          · rw [setPhase_self, hnone]
            rfl
    · obtain rfl := Option.some.inj h
      exact hquiet rfl rfl rfl hnone rfl
    · obtain rfl := Option.some.inj h
      exact hleave hnone rfl
  case h_8 hphase =>
    refine .writes rfl rfl (by rw [hphase]; rfl) ?_ rfl
    exact congrArg ScanPhase.line? (setPhase_self ..)
  case h_9 hphase =>
    refine .calls (.recordError _ _ rfl) (fun _ _ hans => (by cases hans)) rfl ?_ rfl
    rw [setPhase_self, hphase]
    rfl
  case h_10 =>
    cases hline : (s.phases i).line? with
    | none => exact hleave hline (by rw [lost, hline]; rfl)
    | some line =>
        exact .loses rfl rfl hline hidle (by rw [lost, hline]; rfl)

/-- A turn makes a call or leaves the store alone. -/
theorem turn_calls (h : s.turn cfg watchPollSeconds i m = some t) :
    t.coord = s.coord ∨ ∃ a, Calls cfg s t a := by
  cases turn_lines h with
  | quiet hcoord => exact Or.inl hcoord
  | calls hcalls => exact Or.inr ⟨_, hcalls⟩
  | submits _ hcoord => exact Or.inr ⟨_, .observe hcoord⟩
  | writes hcoord => exact Or.inl hcoord
  | loses hcoord => exact Or.inl hcoord

end

end Watchers

/-! ## What the calls do to a watch row -/

section

variable {online : Bool} {status : Option JobStatus} {w : WatchRow}

theorem watchState_paused (h : watchState online status w = .paused) : w.enabled = false := by
  by_contra hon
  unfold watchState at h
  rw [if_neg (by simpa using hon)] at h
  split at h
  · cases h
  split at h
  · cases h
  split at h <;> grind

theorem watchState_unavailable (h : watchState online status w = .watcherUnavailable) :
    online = false := by
  by_contra honline
  unfold watchState at h
  split at h
  · cases h
  split at h
  · cases h
  rw [if_neg (by simpa using honline)] at h
  split at h <;> grind

end

namespace Coord

variable {cfg : Settings} {s t : Coord} {a : Action} {r : String} {since : Time}

/-- The call reports on the repository. -/
def Attends (cfg : Settings) (s : Coord) (r : String) (a : Action) : Prop :=
  (∃ e, a = .recordError r e) ∨
    ∃ uuid fingerprint indexed reply db, a = .observe uuid r fingerprint indexed ∧
      s.answer cfg a = .ok (reply, db)

def Watching (s : Coord) (r : String) : Prop :=
  ∃ w, s.db.watches.get? r = some w ∧ w.enabled = true

/-- The repository is watched, and was checked at `since` or later. -/
def Attended (s : Coord) (r : String) (since : Time) : Prop :=
  ∃ w checked, s.db.watches.get? r = some w ∧ w.enabled = true ∧
    w.lastCheckedAt = some checked ∧ since ≤ checked

/-- What a step leaves of a watch row: whether it is enabled, unless that is what the step is
about, and when it was checked, unless it is checked now. -/
theorem step_checked (hstep : (system cfg).step s a t) {w : WatchRow}
    (hw : s.db.watches.get? r = some w) (hset : ∀ enabled, a ≠ .setEnabled r enabled) :
    ∃ w', t.db.watches.get? r = some w' ∧ w'.enabled = w.enabled ∧
      (w'.lastCheckedAt = some s.now ∨
        w'.lastCheckedAt = w.lastCheckedAt ∧ (s.Attends cfg r a → w.enabled = false)) := by
  obtain ⟨-, rfl⟩ := hstep
  have hkey : w.repositoryId = r := Table.key_of_get? hw
  cases hans : s.answer cfg a with
  | error e =>
      rw [next_of_error hans]
      refine ⟨w, hw, rfl, Or.inr ⟨rfl, ?_⟩⟩
      rintro (⟨e, rfl⟩ | ⟨_, _, _, _, _, -, hok⟩)
      · cases hans
      · rw [hans] at hok
        cases hok
  | ok result =>
      obtain ⟨reply, db'⟩ := result
      rw [next_of_ok hans]
      have hsame : db'.watches.get? r = s.db.watches.get? r → ¬ s.Attends cfg r a →
          ∃ w', db'.watches.get? r = some w' ∧ w'.enabled = w.enabled ∧
            (w'.lastCheckedAt = some s.now ∨
              w'.lastCheckedAt = w.lastCheckedAt ∧ (s.Attends cfg r a → w.enabled = false)) :=
        fun heq hnot => ⟨w, heq.trans hw, rfl, Or.inr ⟨rfl, fun h => absurd h hnot⟩⟩
      cases a with
      | resubmitJob uuid jobId =>
          obtain ⟨job, heq, -⟩ := replying_ok hans
          obtain ⟨successor, -, hwatches⟩ := resubmitJob_watches heq
          have hnot : ¬ s.Attends cfg r (.resubmitJob uuid jobId) := by
            rintro (⟨_, heq⟩ | ⟨_, _, _, _, _, heq, -⟩) <;> cases heq
          rw [hwatches, Db.trackSuccessor, Table.get?_update, hw, Option.map_some]
          refine ⟨_, rfl, ?_, Or.inr ⟨?_, fun h => absurd h hnot⟩⟩ <;> split <;> rfl
      | ensure r' enabled =>
          obtain ⟨-, rfl⟩ := Prod.mk.inj (Except.ok.inj hans)
          refine hsame ?_ ?_
          · rw [hw]
            exact Table.get?_insertNew_of_some hw
          · rintro (⟨_, heq⟩ | ⟨_, _, _, _, _, heq, -⟩) <;> cases heq
      | setEnabled r' enabled =>
          obtain ⟨-, rfl⟩ := Prod.mk.inj (Except.ok.inj hans)
          refine hsame ?_ ?_
          · have hne : r ≠ r' := fun heq => hset enabled (heq ▸ rfl)
            show (s.db.watches.update (·.repositoryId = r') (enabledRow s.now enabled)
              (enabledRow_key s.now enabled)).get? r = _
            rw [Table.get?_update, hw, Option.map_some, if_neg]
            simpa [hkey] using hne
          · rintro (⟨_, heq⟩ | ⟨_, _, _, _, _, heq, -⟩) <;> cases heq
      | recordError r' e =>
          obtain ⟨-, rfl⟩ := Prod.mk.inj (Except.ok.inj hans)
          show ∃ w', (s.db.watches.update (fun w => w.repositoryId = r' && w.enabled)
            (fun w => { w with error := some (clip e), lastCheckedAt := some s.now })
            (fun _ => rfl)).get? r = some w' ∧ _
          rw [Table.get?_update, hw, Option.map_some]
          refine ⟨_, rfl, by split <;> rfl, ?_⟩
          split
          · exact Or.inl rfl
          · rename_i hnot
            refine Or.inr ⟨rfl, ?_⟩
            rintro (⟨_, heq⟩ | ⟨_, _, _, _, _, heq, -⟩)
            · obtain ⟨rfl, -⟩ := Action.recordError.inj heq
              simpa [hkey] using hnot
            · cases heq
      | observe uuid r' fingerprint indexed =>
          obtain ⟨job, heq, rfl⟩ := replying_ok hans
          by_cases hr : r = r'
          · subst hr
            have hput : ∀ (db : Db) (w' : WatchRow), w'.repositoryId = r →
                db.watches = s.db.watches → (db.putWatch w').watches.get? r = some w' := by
              intro db w' hid hdb
              rw [get?_putWatch, if_pos hid.symm, hdb, hw, Option.map_some]
            cases observe_cases heq with
            | absent hget =>
                rw [hw] at hget
                cases hget
            | @paused w₀ hget hoff =>
                obtain rfl := Option.some.inj (hw.symm.trans hget)
                exact ⟨w, hw, rfl, Or.inr ⟨rfl, fun _ => hoff⟩⟩
            | @recorded w₀ hget _ _ =>
                obtain rfl := Option.some.inj (hw.symm.trans hget)
                refine ⟨_, hput _ _ (by simpa using hkey) rfl, ?_, Or.inl rfl⟩
                show (reconciledRow _ _ _ _).enabled = w.enabled
                unfold reconciledRow
                split <;> rfl
            | @submitted w₀ _ hget _ _ _ =>
                obtain rfl := Option.some.inj (hw.symm.trans hget)
                refine ⟨_, hput _ _ (by simpa [submittedWatch] using hkey) rfl, ?_, Or.inl rfl⟩
                show (reconciledRow _ _ _ _).enabled = w.enabled
                unfold reconciledRow
                split <;> rfl
          · refine hsame ?_ ?_
            · have hother : ∀ (db : Db) (w' : WatchRow), w'.repositoryId = r' →
                  (db.putWatch w').watches.get? r = db.watches.get? r := by
                intro db w' hid
                rw [get?_putWatch, if_neg (by rw [hid]; exact hr)]
              cases observe_cases heq with
              | absent _ => rfl
              | paused _ _ => rfl
              | recorded hget _ _ =>
                  exact hother _ _ (by simpa using Table.key_of_get? hget)
              | submitted hget _ _ _ =>
                  exact hother _ _ (by simpa [submittedWatch] using Table.key_of_get? hget)
            · rintro (⟨_, heq⟩ | ⟨_, _, _, _, _, heq, -⟩)
              · cases heq
              · obtain ⟨-, rfl, -⟩ := Action.observe.inj heq
                exact hr rfl
      | _ =>
          refine hsame ?_ ?_
          · rw [answer_watches hans (by simp) (by simp) (by simp) (by simp) (by simp)]
          · rintro (⟨_, heq⟩ | ⟨_, _, _, _, _, heq, -⟩) <;> cases heq

theorem step_watching (hstep : (system cfg).step s a t) (hs : s.Watching r)
    (hset : ∀ enabled, a ≠ .setEnabled r enabled) : t.Watching r := by
  obtain ⟨w, hw, hon⟩ := hs
  obtain ⟨w', hw', henabled, -⟩ := step_checked hstep hw hset
  exact ⟨w', hw', henabled.trans hon⟩

theorem step_attended (hstep : (system cfg).step s a t) (hs : s.Attended r since)
    (hnow : since ≤ s.now) (hset : ∀ enabled, a ≠ .setEnabled r enabled) :
    t.Attended r since := by
  obtain ⟨w, checked, hw, hon, hchecked, hle⟩ := hs
  obtain ⟨w', hw', henabled, hnew | ⟨hsame, -⟩⟩ := step_checked hstep hw hset
  · exact ⟨w', s.now, hw', henabled.trans hon, hnew, hnow⟩
  · exact ⟨w', checked, hw', henabled.trans hon, hsame.trans hchecked, hle⟩

/-- A report on a watched repository is a check. -/
theorem step_attends (hstep : (system cfg).step s a t) (hs : s.Watching r)
    (ha : s.Attends cfg r a) : t.Attended r s.now := by
  obtain ⟨w, hw, hon⟩ := hs
  have hset : ∀ enabled, a ≠ .setEnabled r enabled := by
    rintro enabled rfl
    rcases ha with ⟨_, heq⟩ | ⟨_, _, _, _, _, heq, -⟩ <;> cases heq
  obtain ⟨w', hw', henabled, hnew | ⟨-, hoff⟩⟩ := step_checked hstep hw hset
  · exact ⟨w', s.now, hw', henabled.trans hon, hnew, le_refl _⟩
  · rw [hoff ha] at hon
    cases hon

/-- A repository that has been checked lately is shown as watched. -/
theorem attended_shown (hs : s.Attended r since) {watchPollSeconds : Time}
    (hlate : s.now - max 30000000 (watchPollSeconds * 3) < since) {view : WatchView}
    (hview : view ∈ listWatches watchPollSeconds s.now s.db) (hrepo : view.repositoryId = r) :
    view.watcherOnline = true ∧ view.state ≠ .paused ∧ view.state ≠ .watcherUnavailable := by
  obtain ⟨w, checked, hw, hon, hchecked, hle⟩ := hs
  obtain ⟨w', hw', rfl⟩ := List.mem_map.mp hview
  obtain rfl : w = w' := by
    have hw' := Table.get?_of_mem (mem_sortBy.mp hw')
    rw [show w'.repositoryId = r from hrepo, hw] at hw'
    exact Option.some.inj hw'
  have honline : watcherOnline watchPollSeconds s.now w = true := by
    rw [watcherOnline, hchecked]
    exact decide_eq_true (lt_of_lt_of_le hlate hle)
  refine ⟨honline, fun hpaused => ?_, fun hgone => ?_⟩
  · have hoff := watchState_paused hpaused
    rw [hon] at hoff
    cases hoff
  · have hoff := watchState_unavailable hgone
    rw [honline] at hoff
    cases hoff

/-! ## Jobs of the watches -/

/-- A job that an observation hands out is new, and in the table from then on. -/
theorem observe_job (h : (system cfg).Reachable s) {uuid fingerprint : String}
    {indexed : Option String} {reply : Reply} {db : Db} {job : Job}
    (hans : s.answer cfg (.observe uuid r fingerprint indexed) = .ok (reply, db))
    (hjob : job ∈ reply.jobs) :
    job.repositoryId = r ∧ job.trigger = .watch ∧ s.db.jobs.get? job.id = none ∧
      db.jobs.get? job.id = some job := by
  have hserves := answer_serves (reachable_ok h) (fun _ hhandle => (by cases hhandle)) hans
  have hcurrent := hserves.current job hjob
  obtain ⟨inserted, heq, rfl⟩ := replying_ok hans
  cases observe_cases heq with
  | absent _ | paused _ _ | recorded _ _ _ => cases hjob
  | submitted _ _ _ hins =>
      obtain rfl := List.mem_singleton.mp hjob
      exact ⟨rfl, rfl, conflicts_id (insertJob_some hins).1, hcurrent⟩

/-- `id` is a job that the watch of the repository submitted. -/
def WatchJob (s : Coord) (r id : String) : Prop :=
  ∃ row, s.db.jobs.get? id = some row ∧ row.repositoryId = r ∧ row.trigger = .watch

theorem step_watchJob_mono (h : (system cfg).Reachable s) (hstep : (system cfg).step s a t)
    {id : String} (hs : s.WatchJob r id) : t.WatchJob r id := by
  obtain ⟨row, hrow, hrepo, htrigger⟩ := hs
  obtain ⟨row', hrow', rfl | hjob⟩ := step_job h hstep hrow
  · exact ⟨_, hrow', hrepo, htrigger⟩
  · exact ⟨row', hrow', hjob.repositoryId_eq.trans hrepo, hjob.trigger_eq.trans htrigger⟩

/-- A job of a watch was there, or has been handed out by an observation. -/
theorem step_watchJob (h : (system cfg).Reachable s) (hstep : (system cfg).step s a t)
    {id : String} (ht : t.WatchJob r id) :
    s.WatchJob r id ∨ ∃ uuid fingerprint indexed job db,
      a = .observe uuid r fingerprint indexed ∧ s.answer cfg a = .ok (.job job, db) ∧
        job.id = id := by
  obtain ⟨row, hrow, hrepo, htrigger⟩ := ht
  cases hold : s.db.jobs.get? id with
  | some old =>
      obtain ⟨row', hrow', hcase⟩ := step_job h hstep hold
      obtain rfl := Option.some.inj (hrow.symm.trans hrow')
      rcases hcase with rfl | hjob
      · exact Or.inl ⟨_, hold, hrepo, htrigger⟩
      · exact Or.inl ⟨old, hold, hjob.repositoryId_eq.symm.trans hrepo,
          hjob.trigger_eq.symm.trans htrigger⟩
  | none =>
      obtain ⟨uuid, r', fingerprint, indexed, rfl, rfl, -, hevent⟩ :=
        step_watch_born h hstep hold hrow htrigger
      obtain rfl : r' = r := hrepo
      obtain ⟨_, _, _, job, db, heq, hans⟩ := submitted_mem_watchEvents hevent
      refine Or.inr ⟨uuid, fingerprint, indexed, job, db, rfl, hans, ?_⟩
      obtain ⟨inserted, htx, hreply⟩ := replying_ok hans
      cases observe_cases htx with
      | absent _ | paused _ _ | recorded _ _ _ => cases hreply
      | submitted _ _ _ _ =>
          obtain rfl := Reply.job.inj hreply
          exact Table.key_of_get? hrow

end Coord

namespace Watchers

variable {cfg : Settings} {watchPollSeconds : Time} {i : ℕ} {s t u : Watchers} {r : String}

theorem Calls.step {a : Action} (h : Calls cfg s t a) :
    (Coord.system cfg).step s.coord a t.coord := by
  cases h with
  | ensure r hcoord => exact ⟨fun _ hjob => (by cases hjob), hcoord⟩
  | recordError r e hcoord => exact ⟨fun _ hjob => (by cases hjob), hcoord⟩
  | observe hcoord => exact ⟨fun _ hjob => (by cases hjob), hcoord⟩

theorem Calls.ne_setEnabled {a : Action} (h : Calls cfg s t a) (enabled : Bool) :
    a ≠ .setEnabled r enabled := by
  cases h <;> simp

/-- What a move does to the store. -/
theorem next_coord {m : Move} (h : s.next cfg watchPollSeconds m = some t) :
    t.coord = s.coord ∨ ∃ a, (Coord.system cfg).step s.coord a t.coord ∧
      (Calls cfg s t a ∨ m = .client a ∧ a.byWatcher = false) := by
  cases m with
  | client a =>
      rw [next] at h
      split at h
      · rename_i hclient
        obtain rfl := Option.some.inj h
        exact Or.inr ⟨a, ⟨hclient.1, rfl⟩, Or.inr ⟨rfl, hclient.2⟩⟩
      · cases h
  | dropped =>
      obtain rfl := Option.some.inj h
      exact Or.inl rfl
  | watcher i m =>
      rcases turn_calls h with hsame | ⟨a, hcalls⟩
      · exact Or.inl hsame
      · exact Or.inr ⟨a, hcalls.step, Or.inl hcalls⟩

/-- A watcher that does not move stays where it is. -/
theorem next_phases {m : Move} (h : s.next cfg watchPollSeconds m = some t)
    (hm : m.watcher? ≠ some i) : t.phases i = s.phases i := by
  cases m with
  | client a =>
      rw [next] at h
      split at h
      · obtain rfl := Option.some.inj h
        rfl
      · cases h
  | dropped =>
      obtain rfl := Option.some.inj h
      rfl
  | watcher j m => exact turn_phases h fun hij => hm (congrArg some hij.symm)

theorem run_phases {ms : List Move} (hrun : (system cfg watchPollSeconds).Run s ms t)
    (hms : ∀ m ∈ ms, m.watcher? ≠ some i) : t.phases i = s.phases i := by
  induction hrun with
  | nil s => rfl
  | cons hstep _ ih =>
      rw [ih fun m hm => hms m (List.mem_cons_of_mem _ hm),
        next_phases hstep (hms _ List.mem_cons_self)]

theorem reachable_coord (h : (system cfg watchPollSeconds).Reachable s) :
    (Coord.system cfg).Reachable s.coord := by
  refine h.induct (I := fun s => (Coord.system cfg).Reachable s.coord) ?_ ?_
  · rintro s₀ ⟨hinit, -⟩
    exact .init hinit
  · intro u m v _ hu hstep
    rcases next_coord hstep with hsame | ⟨a, hcoord, -⟩
    · rw [hsame]
      exact hu
    · exact hu.step hcoord

end Watchers

end RepoMesh
