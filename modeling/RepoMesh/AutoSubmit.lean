import RepoMesh.UniqueColumn
import RepoMesh.WatchHistory

/-!
# Automatic submission

The coordination store together with the history of the watch of one repository.
Every job that a watch submits is in the history, at most one of them is active,
and a submission repeats the fingerprint of the one before it only for a reason
that stands between them in the history.
-/

namespace RepoMesh

/-! ## Where watch jobs come from -/

section

variable {cfg : Settings} {now : Time}

theorem JobStep.trigger_eq {row row' : Job} (h : JobStep cfg now row row') :
    row'.trigger = row.trigger := by
  cases h <;> rfl

theorem busy_eq_false {l : Ledger} {repositoryId : String} :
    busy l repositoryId = false ↔
      ∀ row ∈ l.jobs.rows, row.repositoryId = repositoryId → row.status.terminal = true := by
  simp [busy]

theorem not_busy_of_watchReady {l : Ledger} {w : WatchRow}
    (h : watchReady cfg now l w = true) : busy l w.repositoryId = false := by
  simp only [watchReady, Bool.and_eq_true, Bool.not_eq_true'] at h
  exact h.2

/-! ## Repositories are never forgotten -/

variable {R : Rights} {l l' : Ledger} {r : String}

theorem setActive_isSome (repositoryId : String) (jobId : Option String) :
    ((l.setActive repositoryId jobId).execution.get? r).isSome = (l.execution.get? r).isSome := by
  simp [Ledger.setActive]

theorem Prelude.reserved (h : Prelude R now l l') (hr : (l.execution.get? r).isSome = true) :
    (l'.execution.get? r).isSome = true := by
  cases h with
  | reserve repositoryId =>
      obtain ⟨e, he⟩ := Option.isSome_iff_exists.mp hr
      rw [Ledger.reserveRow, Table.get?_insertNew_of_some he]
      rfl
  | insert _ _ _ _ => exact hr
  | @exhaust row _ _ _ =>
      show (((expireAttempt now row l).setJob (exhaustedRow now row)).setActive row.repositoryId
        none |>.execution.get? r).isSome = true
      rw [setActive_isSome, Ledger.setJob_execution, expireAttempt_execution, hr]

theorem Effect.reserved (h : Effect R cfg now l l') (hr : (l.execution.get? r).isSome = true) :
    (l'.execution.get? r).isSome = true := by
  cases h with
  | prelude h => exact h.reserved hr
  | cancel _ _ => exact hr
  | renew _ _ => exact hr
  | progress _ _ _ => exact hr
  | @claim row _ workerId _ _ _ _ _ _ =>
      show (((expireAttempt now row l).setJob (claimedRow cfg now workerId row)).setActive
        row.repositoryId (some row.id) |>.execution.get? r).isSome = true
      rw [setActive_isSome, Ledger.setJob_execution, expireAttempt_execution, hr]
  | @finish row _ _ _ _ _ _ =>
      show ((l.setJob _).releaseActive row.repositoryId row.id |>.execution.get? r).isSome = true
      simpa [Ledger.releaseActive] using hr

theorem prelude_run_reserved (h : Relation.ReflTransGen (Prelude R now) l l')
    (hr : (l.execution.get? r).isSome = true) : (l'.execution.get? r).isSome = true := by
  induction h with
  | refl => exact hr
  | tail _ hstep ih => exact hstep.reserved ih

theorem Commit.reserved (h : Commit R cfg now l l') (hr : (l.execution.get? r).isSome = true) :
    (l'.execution.get? r).isSome = true := by
  obtain ⟨m, hm, hlast⟩ := h
  have hr' := prelude_run_reserved hm hr
  rcases hlast with rfl | ⟨-, heff⟩
  · exact hr'
  · exact heff.reserved hr'

end

namespace Coord

variable {cfg : Settings} {s t : Coord} {a : Action} {id : String} {row : Job}

theorem step_parent (h : (system cfg).Reachable s) (hstep : (system cfg).step s a t)
    {parent successor : String} (hparent : Parent s.db.jobs parent successor) :
    Parent t.db.jobs parent successor := by
  obtain ⟨row, hrow, hp⟩ := hparent
  obtain ⟨row', hrow', rfl | hjob⟩ := step_job h hstep hrow
  · exact ⟨row', hrow', hp⟩
  · exact ⟨row', hrow', hjob.parentJobId_eq.trans hp⟩

/-- A job of a watch is inserted by an observation, while no job of the
repository is active. -/
theorem step_watch_born (h : (system cfg).Reachable s) (hstep : (system cfg).step s a t)
    (hnone : s.db.jobs.get? id = none) (hrow : t.db.jobs.get? id = some row)
    (htrig : row.trigger = .watch) :
    ∃ uuid r fingerprint indexed, a = .observe uuid r fingerprint indexed ∧
      row = watchJobRow cfg s.now uuid r ∧ busy s.db.toLedger r = false ∧
      .submitted fingerprint id ∈ watchEvents cfg r s a := by
  have hok := reachable_ok h
  have hno : ∀ {P : Job → Prop} {jobs : List Job}, (∀ r, P r → r.trigger ≠ .watch) →
      ¬ Serves (.insert P) cfg s.now s.db jobs t.db := by
    intro P jobs hP hserves
    exact hP row (hserves.commit.born hnone hrow).2 htrig
  obtain ⟨-, jobs, -, hserves⟩ := step_serves hok hstep
  obtain ⟨hadm, rfl⟩ := hstep
  unfold next at *
  cases hans : s.answer cfg a with
  | error e =>
      rw [hans] at hrow
      rw [hnone] at hrow
      cases hrow
  | ok result =>
      obtain ⟨reply, db'⟩ := result
      rw [hans] at hrow hno hserves
      cases a with
      | submitJob _ _ _ _ _ =>
          obtain ⟨job, heq, -⟩ := replying_ok hans
          exact absurd (submitJob_serves (P := fun r => r.trigger ≠ .watch)
            (fun _ => by simp [submittedRow, Job.new]) heq) (hno fun _ hr => hr)
      | resubmitJob _ _ =>
          obtain ⟨job, heq, -⟩ := replying_ok hans
          exact absurd (resubmitJob_serves (P := fun r => r.trigger ≠ .watch)
            (fun _ => by simp [successorRow]) heq) (hno fun _ hr => hr)
      | importLegacyJobs _ =>
          obtain ⟨n, heq, -⟩ := replying_ok hans
          exact absurd (importLegacyJobs_serves (P := fun r => r.trigger ≠ .watch)
            (fun _ _ _ _ => by simp [LegacyRow.toJob, Job.new]) heq) (hno fun _ hr => hr)
      | observe uuid r fingerprint indexed =>
          obtain ⟨job, heq, rfl⟩ := replying_ok hans
          cases observe_cases heq with
          | absent _ =>
              rw [hnone] at hrow
              cases hrow
          | paused _ _ =>
              rw [hnone] at hrow
              cases hrow
          | recorded _ _ _ =>
              have hsame : s.db.jobs.get? id = some row := hrow
              rw [hnone] at hsame
              cases hsame
          | @submitted w l hget hen hready hins =>
              obtain ⟨hconf, -, rfl⟩ := insertJob_some hins
              have hkey : w.repositoryId = r := Table.key_of_get? hget
              have hbusy := not_busy_of_watchReady hready
              rw [observationRow_repositoryId, hkey] at hbusy
              have hrow' : (s.db.jobs.insertNew (watchJobRow cfg s.now uuid r)).get? id =
                some row := hrow
              rw [Table.get?_insertNew, hnone] at hrow'
              split at hrow'
              · rename_i hid
                obtain rfl : uuid = id := hid
                refine ⟨uuid, r, fingerprint, indexed, rfl, (Option.some.inj hrow').symm, hbusy, ?_⟩
                simp [watchEvents, hget, hans, hen, Reply.ofJob?, Reply.jobs, watchJobRow, Job.new]
              · cases hrow'
      | _ => exact absurd (hserves.commit.born hnone hrow).2 fun hfalse => hfalse

/-- At most one active job of a watch. -/
def ActiveOnce (s : Coord) : Prop :=
  ∀ id id' row row', s.db.jobs.get? id = some row → s.db.jobs.get? id' = some row' →
    row.trigger = .watch → row'.trigger = .watch → row.repositoryId = row'.repositoryId →
    row.status.terminal = false → row'.status.terminal = false → id = id'

theorem ActiveOnce.step (hactive : s.ActiveOnce) (h : (system cfg).Reachable s)
    (hstep : (system cfg).step s a t) : t.ActiveOnce := by
  have hback : ∀ {i r}, t.db.jobs.get? i = some r → r.status.terminal = false →
      s.db.jobs.get? i = none ∨ ∃ r₀, s.db.jobs.get? i = some r₀ ∧ r₀.trigger = r.trigger ∧
        r₀.repositoryId = r.repositoryId ∧ r₀.status.terminal = false := by
    intro i r hr hlive
    cases hget : s.db.jobs.get? i with
    | none => exact Or.inl rfl
    | some r₀ =>
        obtain ⟨r', hr', rfl | hjob⟩ := step_job h hstep hget
        · obtain rfl : r' = r := Option.some.inj (hr'.symm.trans hr)
          exact Or.inr ⟨r', rfl, rfl, rfl, hlive⟩
        · obtain rfl : r' = r := Option.some.inj (hr'.symm.trans hr)
          exact Or.inr ⟨r₀, rfl, hjob.trigger_eq.symm, hjob.repositoryId_eq.symm,
            hjob.not_terminal⟩
  have hidle : ∀ {i i' r r₀}, s.db.jobs.get? i = none → t.db.jobs.get? i = some r →
      r.trigger = .watch → s.db.jobs.get? i' = some r₀ → r₀.repositoryId = r.repositoryId →
      r₀.status.terminal = false → False := by
    intro i i' r r₀ hnone hr htrig hr₀ hrepo hlive
    obtain ⟨uuid, repo, f, idx, -, rfl, hbusy, -⟩ := step_watch_born h hstep hnone hr htrig
    rw [busy_eq_false.mp hbusy r₀ (Table.mem_of_get? hr₀) hrepo] at hlive
    cases hlive
  intro id id' row row' hrow hrow' htrig htrig' hrepo hlive hlive'
  rcases hback hrow hlive with hnone | ⟨r, hr, hrtrig, hrrepo, hrlive⟩
  · rcases hback hrow' hlive' with hnone' | ⟨r', hr', -, hrrepo', hrlive'⟩
    · obtain ⟨uuid, r, f, idx, rfl, rfl, -, -⟩ := step_watch_born h hstep hnone hrow htrig
      obtain ⟨uuid', r', f', idx', ha, rfl, -, -⟩ := step_watch_born h hstep hnone' hrow' htrig'
      obtain ⟨rfl, rfl, -⟩ := Action.observe.inj ha
      exact (Table.key_of_get? hrow).symm.trans (Table.key_of_get? hrow')
    · exact (hidle hnone hrow htrig hr' (hrrepo'.trans hrepo.symm) hrlive').elim
  · rcases hback hrow' hlive' with hnone' | ⟨r', hr', hrtrig', hrrepo', hrlive'⟩
    · exact (hidle hnone' hrow' htrig' hr (hrrepo.trans hrepo) hrlive).elim
    · exact hactive id id' r r' hr hr' (hrtrig.trans htrig) (hrtrig'.trans htrig')
        (hrrepo.trans (hrepo.trans hrrepo'.symm)) hrlive hrlive'

theorem activeOnce (h : (system cfg).Reachable s) : s.ActiveOnce := by
  refine h.induct ?_ fun _ _ _ hr hactive hstep => ActiveOnce.step hactive hr hstep
  rintro s₀ ⟨hdb, -⟩ id id' row row' hrow
  rw [hdb] at hrow
  cases hrow

end Coord

/-! ## The store with a history -/

/-- The coordination store and the history of the watch of one repository. -/
structure Watched where
  coord : Coord
  history : List WatchEvent

namespace Watched

/-- Every action of the store, with what it adds to the history. -/
def system (cfg : Settings) (repositoryId : String) : System Watched Action where
  init p := (Coord.system cfg).init p.coord ∧ p.history = []
  step p a q := (Coord.system cfg).step p.coord a q.coord ∧
    q.history = watchEvents cfg repositoryId p.coord a ++ p.history

/-- The state after one action. -/
def next (cfg : Settings) (repositoryId : String) (p : Watched) (a : Action) : Watched where
  coord := p.coord.next cfg a
  history := watchEvents cfg repositoryId p.coord a ++ p.history

/-- The state after a list of actions on an empty store. -/
def exec (cfg : Settings) (repositoryId : String) (as : List Action) : Watched :=
  as.foldl (next cfg repositoryId) ⟨.empty 0, []⟩

theorem reachable_exec {cfg : Settings} {repositoryId : String} {as : List Action}
    (h : (Coord.empty 0).Admits cfg as) :
    (system cfg repositoryId).Reachable (exec cfg repositoryId as) := by
  have hrun : ∀ (p : Watched), p.coord.Admits cfg as →
      (system cfg repositoryId).Run p as (as.foldl (next cfg repositoryId) p) := by
    clear h
    induction as with
    | nil => exact fun p _ => .nil p
    | cons a as ih => exact fun p hp => .cons ⟨⟨hp.1, rfl⟩, rfl⟩ (ih _ hp.2)
  exact ⟨_, as, ⟨⟨rfl, rfl⟩, rfl⟩, hrun _ h⟩

/-- A change is observed, stays for the debounce time, and is observed again. -/
def oneChange : List Action :=
  [.ensure "repo" (some true), .observe "job-0" "repo" "new" none, .advance 2000000]

/-- Its job is completed, and the index is found to differ. -/
def oneRevert : List Action :=
  oneChange ++
    [.observe "job-1" "repo" "new" none, .registerWorker "session-1" "worker-1" "host" 1 "1",
      .claimJob "worker-1" "session-1" fun _ => false,
      .completeJob (claimedRow .default 2000000 "worker-1"
        (watchJobRow .default 2000000 "job-1" "repo")) false,
      .observe "job-2" "repo" "new" (some "old")]

/-- No submission repeats the one before it unless the watch was enabled again,
or the index was seen to differ, in between. -/
def NoLoop (h : List WatchEvent) : Prop :=
  ∀ newer mid older f j j', h = newer ++ .submitted f j' :: mid ++ .submitted f j :: older →
    (∀ g i, .submitted g i ∉ mid) → .reenabled ∈ mid ∨ .divergent f ∈ mid

/-- What holds of the store and the history together. -/
structure Ok (cfg : Settings) (repositoryId : String) (p : Watched) : Prop where
  coord : (Coord.system cfg).Reachable p.coord
  summary : ∀ {w}, p.coord.db.watches.get? repositoryId = some w →
    Summary p.coord.db.jobs p.coord.now p.history w
  unwatched : p.coord.db.watches.get? repositoryId = none → p.history = []
  reserved : (p.coord.db.watches.get? repositoryId).isSome = true →
    (p.coord.db.execution.get? repositoryId).isSome = true
  noLoop : NoLoop p.history

variable {cfg : Settings} {repositoryId : String} {p q : Watched} {a : Action}

/-- An answer to an observation submits what still does not stand. -/
theorem not_standing_of_ready {now : Time} {l : Ledger} {w : WatchRow} {h : List WatchEvent}
    {fingerprint : String} {indexed : Option String}
    (hsub : w.submittedFingerprint = standing h)
    (hready : watchReady cfg now l (observationRow now l fingerprint indexed w) = true) :
    standing (divergence l fingerprint indexed w ++ h) ≠ some fingerprint := by
  intro hstands
  rw [← reconciledRow_submitted hsub] at hstands
  simp only [watchReady, Bool.and_eq_true, decide_eq_true_eq] at hready
  exact hready.1.1 hstands.symm

/-- Events that submit nothing make no loop. -/
theorem NoLoop.append {events h : List WatchEvent} (hloop : NoLoop h)
    (hno : ∀ f j, .submitted f j ∉ events) : NoLoop (events ++ h) := by
  induction events with
  | nil => exact hloop
  | cons e events ih =>
      have htail := ih fun f j hmem => hno f j (List.mem_cons_of_mem _ hmem)
      intro newer mid older f j j' heq hmid
      cases newer with
      | nil =>
          obtain ⟨rfl, -⟩ := List.cons.inj heq
          exact absurd List.mem_cons_self (hno f j')
      | cons e' newer => exact htail newer mid older f j j' (List.cons.inj heq).2 hmid

theorem divergence_no_submission (l : Ledger) (fingerprint : String) (indexed : Option String)
    (w : WatchRow) (now : Time) (f j : String) :
    .submitted f j ∉ divergence l fingerprint indexed w ++ [.observed fingerprint now] := by
  unfold divergence
  split <;> simp

/-- One move of the watch row makes no loop. -/
theorem noLoop_of_move {now : Time} {l : Ledger} {jobs : Table Job.id}
    {events h : List WatchEvent} {w w' : WatchRow} (hmove : WatchMove cfg now l jobs events w w')
    (hsub : w.submittedFingerprint = standing h) (hloop : NoLoop h) : NoLoop (events ++ h) := by
  cases hmove with
  | quiet _ _ => exact hloop
  | tracked _ _ => exact hloop
  | setEnabled enabled =>
      refine hloop.append fun f j => ?_
      split <;> simp
  | recorded fingerprint indexed _ _ =>
      exact hloop.append (divergence_no_submission l fingerprint indexed w now)
  | submitted fingerprint indexed uuid _ hready =>
      have hold := hloop.append (divergence_no_submission l fingerprint indexed w now)
      intro newer mid older f j j' heq hmid
      cases newer with
      | cons e newer => exact hold newer mid older f j j' (List.cons.inj heq).2 hmid
      | nil =>
          obtain ⟨he, hrest⟩ := List.cons.inj heq
          obtain ⟨rfl, -⟩ := WatchEvent.submitted.inj he
          by_contra hcon
          rw [not_or] at hcon
          refine not_standing_of_ready (h := .observed fingerprint now :: h) hsub hready ?_
          have heq' : divergence l fingerprint indexed w ++ .observed fingerprint now :: h =
              mid ++ .submitted fingerprint j :: older := by
            simpa using hrest
          rw [heq']
          exact standing_of_undisturbed ⟨hmid, hcon.1, hcon.2⟩

theorem Ok.step (h : p.Ok cfg repositoryId) (hstep : (system cfg repositoryId).step p a q) :
    q.Ok cfg repositoryId := by
  obtain ⟨hcoord, hhistory⟩ := hstep
  obtain ⟨-, jobs, -, hserves⟩ := Coord.step_serves (Coord.reachable_ok h.coord) hcoord
  have hle := Coord.step_now hcoord
  have hparent : ∀ a b, Parent p.coord.db.jobs a b → Parent q.coord.db.jobs a b :=
    fun _ _ hp => Coord.step_parent h.coord hcoord hp
  have hturn := Coord.step_watch hcoord repositoryId
  generalize hw : p.coord.db.watches.get? repositoryId = w at hturn
  generalize hw' : q.coord.db.watches.get? repositoryId = w' at hturn
  generalize watchEvents cfg repositoryId p.coord a = events at hturn hhistory
  refine ⟨h.coord.step hcoord, ?_, ?_, ?_, ?_⟩
  · intro x hx
    rw [hhistory]
    cases hturn with
    | absent =>
        rw [hw'] at hx
        cases hx
    | ensured enabled _ =>
        obtain rfl := Option.some.inj (hw'.symm.trans hx)
        rw [h.unwatched hw]
        exact .new repositoryId enabled
    | moved hmove =>
        obtain rfl := Option.some.inj (hw'.symm.trans hx)
        exact hmove.summary ((h.summary hw).mono le_rfl hparent) |>.mono hle fun _ _ hp => hp
  · intro hnone
    rw [hhistory]
    cases hturn with
    | absent => exact h.unwatched hw
    | ensured enabled _ =>
        rw [hw'] at hnone
        cases hnone
    | moved hmove =>
        rw [hw'] at hnone
        cases hnone
  · intro hsome
    cases hturn with
    | absent =>
        rw [hw'] at hsome
        cases hsome
    | ensured enabled hreserved => exact hreserved
    | moved _ => exact hserves.commit.reserved (h.reserved (by rw [hw]; rfl))
  · rw [hhistory]
    cases hturn with
    | absent => exact h.noLoop
    | ensured enabled _ => exact h.noLoop
    | moved hmove => exact noLoop_of_move hmove (h.summary hw).submitted h.noLoop

theorem reachable_ok (h : (system cfg repositoryId).Reachable p) : p.Ok cfg repositoryId := by
  refine h.induct ?_ fun _ _ _ _ hok hstep => hok.step hstep
  rintro p₀ ⟨hinit, hhistory⟩
  have hwatches : p₀.coord.db.watches.get? repositoryId = none := by
    rw [hinit.1]
    rfl
  refine ⟨.init hinit, ?_, fun _ => hhistory, ?_, ?_⟩
  · intro w hw
    rw [hwatches] at hw
    cases hw
  · intro hsome
    rw [hwatches] at hsome
    cases hsome
  · intro newer mid older f j j' heq
    rw [hhistory] at heq
    exact absurd heq.symm (by simp)

/-! ## Nothing is submitted again without a reason -/

/-- An observation of what stands submits nothing. -/
theorem observe_standing (h : (system cfg repositoryId).Reachable p) {w : WatchRow}
    (hw : p.coord.db.watches.get? repositoryId = some w) {fingerprint : String}
    (hstands : standing p.history = some fingerprint)
    (hlast : lastJobCompleted p.coord.db.toLedger w = false) (uuid : String)
    (indexed : Option String) {job : Job} {db : Db} :
    p.coord.answer cfg (.observe uuid repositoryId fingerprint indexed) ≠ .ok (.job job, db) := by
  intro hans
  obtain ⟨r, heq, hreply⟩ := replying_ok hans
  cases observe_cases heq with
  | absent _ => cases hreply
  | paused _ _ => cases hreply
  | recorded _ _ _ => cases hreply
  | @submitted w' l hget _ hready _ =>
      obtain rfl : w = w' := Option.some.inj (hw.symm.trans hget)
      refine not_standing_of_ready ((reachable_ok h).summary hw).submitted hready ?_
      rw [divergence, if_neg fun hand => by simp [hlast] at hand]
      exact hstands

/-- Automatic submission coalesces and does not loop. -/
theorem submissions_coalesce (h : (system cfg repositoryId).Reachable p) :
    (∀ row ∈ p.coord.db.jobs.rows, ∀ row' ∈ p.coord.db.jobs.rows,
      row.trigger = .watch → row'.trigger = .watch → row.repositoryId = repositoryId →
      row'.repositoryId = repositoryId → row.status.terminal = false →
      row'.status.terminal = false → row = row') ∧
    (∀ a q, (system cfg repositoryId).step p a q → ∀ id row, p.coord.db.jobs.get? id = none →
      q.coord.db.jobs.get? id = some row → row.trigger = .watch →
      row.repositoryId = repositoryId →
      ∃ fingerprint, .submitted fingerprint id ∈ watchEvents cfg repositoryId p.coord a) ∧
    (∀ newer mid older f j j',
      p.history = newer ++ .submitted f j' :: mid ++ .submitted f j :: older →
      (∀ g i, .submitted g i ∉ mid) → .reenabled ∈ mid ∨ .divergent f ∈ mid) ∧
    ∀ w, p.coord.db.watches.get? repositoryId = some w →
      ∀ mid older f j, p.history = mid ++ .submitted f j :: older →
        ((∀ g i, .submitted g i ∉ mid) →
          ∃ j', w.lastJobId = some j' ∧ Descends p.coord.db.jobs j j') ∧
        (Undisturbed f mid → lastJobCompleted p.coord.db.toLedger w = false →
          ∀ uuid indexed job db, p.coord.answer cfg (.observe uuid repositoryId f indexed) ≠
            .ok (.job job, db)) := by
  have hok := reachable_ok h
  refine ⟨?_, ?_, hok.noLoop, ?_⟩
  · intro row hrow row' hrow' htrig htrig' hrepo hrepo' hlive hlive'
    have hid := Coord.activeOnce hok.coord _ _ _ _ (Table.get?_of_mem hrow)
      (Table.get?_of_mem hrow') htrig htrig' (hrepo.trans hrepo'.symm) hlive hlive'
    exact Table.eq_of_key hrow hrow' hid
  · intro a q hstep id row hnone hrow htrig hrepo
    obtain ⟨uuid, r, f, idx, rfl, rfl, -, hmem⟩ :=
      Coord.step_watch_born hok.coord hstep.1 hnone hrow htrig
    obtain rfl : r = repositoryId := hrepo
    exact ⟨f, hmem⟩
  · intro w hw mid older f j hhistory
    have hs := hok.summary hw
    refine ⟨fun hno => ?_, fun hu hlast uuid indexed job db => ?_⟩
    · exact hs.last j (by rw [hhistory]; exact lastJob_of_no_submission hno)
    · refine observe_standing h hw ?_ hlast uuid indexed
      rw [hhistory]
      exact standing_of_undisturbed hu

theorem submissions_coalesce_oneRevert :
    ∃ mid, (exec .default "repo" oneRevert).history =
        .submitted "new" "job-2" :: mid ++
          [.submitted "new" "job-1", .observed "new" 2000000, .observed "new" 0] ∧
      (.reenabled ∈ mid ∨ .divergent "new" ∈ mid) := by
  have hreach : (system .default "repo").Reachable (exec .default "repo" oneRevert) :=
    reachable_exec (by decide)
  refine ⟨[.divergent "new", .observed "new" 2000000], by decide, ?_⟩
  exact (submissions_coalesce hreach).2.2.1 [] _ [.observed "new" 2000000, .observed "new" 0]
    "new" "job-1" "job-2" (by decide) (by simp)

/-! ## Nothing observed is lost -/

theorem insertJob_of_new {l : Ledger} {row : Job} {arbiter : Constraint → Bool}
    (hfresh : row.Fresh) (hconf : l.conflicts row = [])
    (hrepo : (l.execution.get? row.repositoryId).isSome = true) :
    l.insertJob row arbiter = .ok (some { l with jobs := l.jobs.insertNew row }) := by
  have hsome : (l.execution.get? row.repositoryId).isNone = false := by
    simpa using hrepo
  unfold Ledger.insertJob
  rw [hfresh.check_eq_none, hconf]
  simp [hsome]

/-- A new id is all that a job of a watch can conflict on. -/
theorem watchJobRow_conflicts {l : Ledger} {now : Time} {uuid : String}
    (huuid : l.jobs.get? uuid = none) :
    l.conflicts (watchJobRow cfg now uuid repositoryId) = [] := by
  simp [Ledger.conflicts, watchJobRow, Job.new, huuid]

/-- An observation that finds the watch ready submits a job. -/
theorem observe_of_ready (h : p.Ok cfg repositoryId) {w : WatchRow}
    (hw : p.coord.db.watches.get? repositoryId = some w) (hen : w.enabled = true)
    {uuid fingerprint : String} {indexed : Option String}
    (huuid : p.coord.db.jobs.get? uuid = none)
    (hready : watchReady cfg p.coord.now p.coord.db.toLedger
      (observationRow p.coord.now p.coord.db.toLedger fingerprint indexed w) = true) :
    ∃ db, p.coord.answer cfg (.observe uuid repositoryId fingerprint indexed) =
      .ok (.job (watchJobRow cfg p.coord.now uuid repositoryId), db) := by
  have hfresh : (watchJobRow cfg p.coord.now uuid repositoryId).Fresh := watchJobRow_fresh _ _
  have hins : p.coord.db.toLedger.insertJob (watchJobRow cfg p.coord.now uuid repositoryId)
      (fun _ => false) = .ok (some _) :=
    insertJob_of_new hfresh (watchJobRow_conflicts huuid) (h.reserved (by rw [hw]; rfl))
  rw [observationRow] at hready
  have hobserve : ∃ db, observe cfg p.coord.now uuid repositoryId fingerprint indexed p.coord.db =
      .ok (some (watchJobRow cfg p.coord.now uuid repositoryId), db) := by
    unfold observe
    simp only [hw, hen, not_true_eq_false, if_false, hready, hins]
    exact ⟨_, rfl⟩
  obtain ⟨db, hdb⟩ := hobserve
  exact ⟨db, replying_of_ok .ofJob? hdb⟩

/-- When an observation of `fingerprint` at `now` must submit. -/
inductive Due (cfg : Settings) (now : Time) (l : Ledger) (w : WatchRow) (h : List WatchEvent)
    (fingerprint : String) (indexed : Option String) : Prop where
  | stable {t : Time} : lastSubmitted h ≠ some fingerprint →
      runStart fingerprint (.observed fingerprint now :: h) = some t →
      t ≤ now - cfg.watchDebounceSeconds → Due cfg now l w h fingerprint indexed
  | waited {t : Time} : lastSubmitted h ≠ some fingerprint →
      windowStart (lastSubmitted h) (.observed fingerprint now :: h) = some t →
      t ≤ now - cfg.watchMaxWaitSeconds → Due cfg now l w h fingerprint indexed
  | reverted {t : Time} {index : String} : lastSubmitted h = some fingerprint →
      indexed = some index → index ≠ fingerprint → lastJobCompleted l w = true →
      runStart fingerprint (.observed fingerprint now :: h) = some t →
      t ≤ now - cfg.watchDebounceSeconds → Due cfg now l w h fingerprint indexed

theorem watchReady_of_due {now : Time} {l : Ledger} {jobs : Table Job.id} {w : WatchRow}
    {h : List WatchEvent} {fingerprint : String} {indexed : Option String}
    (hs : Summary jobs now h w) (hidle : busy l w.repositoryId = false)
    (hdue : Due cfg now l w h fingerprint indexed) :
    watchReady cfg now l (observationRow now l fingerprint indexed w) = true := by
  have hs' := hs.recorded (l := l) fingerprint indexed
  rw [List.append_assoc, List.singleton_append] at hs'
  have hstands : standing (divergence l fingerprint indexed w ++
      .observed fingerprint now :: h) ≠ some fingerprint := by
    have hother : lastSubmitted h ≠ some fingerprint →
        standing (divergence l fingerprint indexed w ++ .observed fingerprint now :: h) ≠
          some fingerprint := by
      intro hne heq
      rcases standing_cases (divergence l fingerprint indexed w ++ .observed fingerprint now :: h)
        with hnone | hlast
      · rw [hnone] at heq
        cases heq
      · rw [hlast, lastSubmitted_divergence] at heq
        exact hne heq
    cases hdue with
    | stable hne _ _ => exact hother hne
    | waited hne _ _ => exact hother hne
    | @reverted t index _ hindexed hne hlast _ _ =>
        rw [divergence, if_pos (by simp [hindexed, hne, hlast, hidle]), List.singleton_append,
          standing]
        split
        · simp
        · assumption
  have hdiffer : (observationRow now l fingerprint indexed w).observedFingerprint ≠
      (observationRow now l fingerprint indexed w).submittedFingerprint := by
    rw [hs'.submitted]
    exact fun heq => hstands heq.symm
  have hrun : ∀ t, runStart fingerprint (.observed fingerprint now :: h) = some t →
      (observationRow now l fingerprint indexed w).stableSince = some t := by
    intro t ht
    rw [hs'.stable fingerprint (by rw [lastObserved_divergence]; rfl), runStart_divergence, ht]
  have htime : ((observationRow now l fingerprint indexed w).stableSince.any
        (· ≤ now - cfg.watchDebounceSeconds) ||
      (observationRow now l fingerprint indexed w).pendingSince.any
        (· ≤ now - cfg.watchMaxWaitSeconds)) = true := by
    cases hdue with
    | stable _ ht hle | reverted _ _ _ _ ht hle =>
        rw [hrun _ ht]
        simp [hle]
    | @waited t _ ht hle =>
        obtain ⟨p, hp, hpt⟩ := hs'.pending t (by
          rw [lastSubmitted_divergence, windowStart_divergence]
          exact ht)
        rw [hp]
        simp [le_trans hpt hle]
  unfold watchReady
  rw [htime, observationRow_repositoryId, hidle]
  simp [hdiffer]

/-- No observed change is postponed or lost. -/
theorem change_submitted (h : (system cfg repositoryId).Reachable p) {w : WatchRow}
    (hw : p.coord.db.watches.get? repositoryId = some w) (hen : w.enabled = true)
    (hidle : ∀ row ∈ p.coord.db.jobs.rows, row.repositoryId = repositoryId →
      row.status.terminal = true)
    {uuid fingerprint : String} {indexed : Option String}
    (huuid : p.coord.db.jobs.get? uuid = none)
    (hdue : Due cfg p.coord.now p.coord.db.toLedger w p.history fingerprint indexed) :
    ∃ job db, p.coord.answer cfg (.observe uuid repositoryId fingerprint indexed) =
        .ok (.job job, db) ∧
      db.jobs.get? uuid = some job ∧ job.repositoryId = repositoryId ∧ job.trigger = .watch ∧
      job.status = .queued := by
  have hok := reachable_ok h
  have hkey : w.repositoryId = repositoryId := Table.key_of_get? hw
  have hbusy : busy p.coord.db.toLedger w.repositoryId = false := by
    rw [hkey]
    exact busy_eq_false.mpr hidle
  obtain ⟨db, hans⟩ := observe_of_ready hok hw hen huuid
    (watchReady_of_due (hok.summary hw) hbusy hdue)
  have hserves := Coord.answer_serves (Coord.reachable_ok hok.coord)
    (fun job hjob => by cases hjob) hans
  exact ⟨_, db, hans, hserves.current _ List.mem_cons_self, rfl, rfl, rfl⟩

theorem change_submitted_oneChange :
    ∃ job db, (exec .default "repo" oneChange).coord.answer .default
        (.observe "job-1" "repo" "new" none) = .ok (.job job, db) ∧
      db.jobs.get? "job-1" = some job ∧ job.repositoryId = "repo" ∧ job.trigger = .watch ∧
      job.status = .queued := by
  have hreach : (system .default "repo").Reachable (exec .default "repo" oneChange) :=
    reachable_exec (by decide)
  have hdue : Due .default 2000000 (exec .default "repo" oneChange).coord.db.toLedger
      (observationRow 0 .empty "new" none (.new "repo" true)) [.observed "new" 0] "new" none :=
    .stable (t := 0) (by decide) (by decide) (by decide)
  exact change_submitted hreach (by decide) (by decide) (by decide) (by decide) hdue

end Watched

end RepoMesh
