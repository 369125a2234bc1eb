import Mathlib.Logic.Function.Basic
import RepoMesh.FenceLog
import RepoMesh.Progress

/-!
# Guarded storage

The coordination store together with what its clients do between transactions.
A guard section of `mutation_guard` holds the row lock of its repository in
`repository_execution` from entry to exit: it takes the lock and reads the
active job, checks ownership, and is then free to store and to check again until
it exits, fails a check, or its process dies. A claim skips the rows that guards
hold. Everything else, a finish or a renewal of the same lease included, may
happen at any time.
-/

namespace RepoMesh

/-- An open guard section; `entered` once its first ownership check passed. -/
structure Guard where
  process : ℕ
  job : Job
  entered : Bool
  deriving DecidableEq, Repr

/-- A lease, as the log names it. -/
abbrev Lease := String × ℕ

abbrev Job.lease (job : Job) : Lease := (job.id, job.leaseGeneration)

structure Cluster where
  coord : Coord
  holder : String → Option Guard
  log : List (Event String Lease)

inductive Move where
  | tx (a : Action)
  | lock (process : ℕ) (job : Job)
  | check (process : ℕ) (repositoryId : String)
  | store (process : ℕ) (repositoryId : String)
  | exit (process : ℕ) (repositoryId : String)
  | crash (process : ℕ)

/-- The claim an answer makes. -/
def claimEvents : Action → Except Error (Reply × Db) → List (Event String Lease)
  | .claimJob _ _ _, .ok (.job job, _) => [.claimed job.repositoryId job.lease]
  | _, _ => []

namespace Cluster

/-- `SKIP LOCKED`: a claim also skips the repositories that a guard holds. -/
def skipLocked (c : Cluster) : Action → Action
  | .claimJob workerId session locked =>
      .claimJob workerId session fun j => locked j || (c.holder j.repositoryId).isSome
  | a => a

/-- The guard of a repository, if this process holds it. -/
def held (c : Cluster) (process : ℕ) (repositoryId : String) : Option Guard :=
  (c.holder repositoryId).filter (·.process = process)

def setHolder (c : Cluster) (repositoryId : String) (g : Option Guard) : Cluster :=
  { c with holder := Function.update c.holder repositoryId g }

/-- The state after a move, if the move is possible. -/
def next (cfg : Settings) (c : Cluster) : Move → Option Cluster
  | .tx a =>
      if c.coord.Admissible a then
        some
          { c with
            coord := c.coord.next cfg (c.skipLocked a)
            log := claimEvents a (c.coord.answer cfg (c.skipLocked a)) ++ c.log }
      else none
  | .lock process job =>
      -- the row lock is waited for while another guard holds it
      if job ∈ c.coord.handles ∧ (c.holder job.repositoryId).isNone then
        match c.coord.db.execution.get? job.repositoryId with
        | none => some c
        | some r =>
            if r.activeJobId = some job.id then
              some (c.setHolder job.repositoryId (some ⟨process, job, false⟩))
            else some c
      else none
  | .check process repositoryId =>
      match c.held process repositoryId with
      | none => none
      | some g =>
          match assertOwnership c.coord.now g.job c.coord.db with
          | .ok _ => some (c.setHolder repositoryId (some { g with entered := true }))
          | .error _ => some (c.setHolder repositoryId none)
  | .store process repositoryId =>
      match c.held process repositoryId with
      | none => none
      | some g =>
          if g.entered then some { c with log := .stored repositoryId g.job.lease :: c.log }
          else none
  | .exit process repositoryId =>
      match c.held process repositoryId with
      | none => none
      | some _ => some (c.setHolder repositoryId none)
  | .crash process =>
      some { c with holder := fun r => (c.holder r).filter (·.process ≠ process) }

/-- The cluster, from an empty store and with no guard open. -/
def system (cfg : Settings) : System Cluster Move where
  init c := (Coord.system cfg).init c.coord ∧ (∀ r, c.holder r = none) ∧ c.log = []
  step c m c' := c.next cfg m = some c'

end Cluster

/-! ## Who runs after a transaction -/

/-- Every job that runs in `l'` ran in `l`, under the same generation. -/
def Quiet (l l' : Ledger) : Prop :=
  ∀ id row', l'.jobs.get? id = some row' → row'.status = .running →
    ∃ row, l.jobs.get? id = some row ∧ row.status = .running ∧
      row.leaseGeneration = row'.leaseGeneration

section

variable {R : Rights} {cfg : Settings} {now : Time} {l l' m : Ledger}

theorem Quiet.refl (l : Ledger) : Quiet l l :=
  fun _ row' hrow' hrun => ⟨row', hrow', hrun, rfl⟩

theorem Quiet.trans (h : Quiet l m) (h' : Quiet m l') : Quiet l l' := by
  intro id row' hrow' hrun
  obtain ⟨r, hr, hrrun, hgen⟩ := h' id row' hrow' hrun
  obtain ⟨row, hrow, hrowrun, hgen'⟩ := h id r hr hrrun
  exact ⟨row, hrow, hrowrun, hgen'.trans hgen⟩

theorem Quiet.setJob {row : Job} (row' : Job) (hrow : l.jobs.get? row.id = some row)
    (hid : row'.id = row.id) (hjobs : l'.jobs = (l.setJob row').jobs)
    (hrun : row'.status = .running → row.status = .running)
    (hgen : row.leaseGeneration = row'.leaseGeneration) : Quiet l l' := by
  intro id r hr hrrun
  rw [hjobs, get?_setJob_of_get? row' hrow hid] at hr
  split at hr
  · rename_i heq
    obtain rfl := Option.some.inj hr
    exact ⟨row, heq ▸ hrow, hrun hrrun, hgen⟩
  · exact ⟨r, hr, hrrun, rfl⟩

theorem Prelude.quiet (h : Prelude R now l l') : Quiet l l' := by
  cases h with
  | reserve r => exact .refl l
  | @insert row hfresh _ hconf _ =>
      intro id r hr hrun
      rw [Table.get?_insertNew] at hr
      split at hr
      · rename_i hid
        rw [← hid, conflicts_id hconf] at hr
        obtain rfl := Option.some.inj hr
        exact absurd hrun hfresh.not_running
      · exact ⟨r, hr, hrun, rfl⟩
  | @exhaust row hrow hexp _ =>
      exact .setJob (exhaustedRow now row) hrow rfl (exhaustLedger_jobs now row l)
        (fun _ => hexp.1) rfl

theorem prelude_run_quiet (h : Relation.ReflTransGen (Prelude R now) l l') : Quiet l l' := by
  induction h with
  | refl => exact .refl l
  | tail _ hstep ih => exact ih.trans hstep.quiet

/-- Only a claim makes a job run, or run under another generation. -/
theorem Effect.quiet (h : Effect R cfg now l l') (hno : ∀ w, ¬ R.claims w) : Quiet l l' := by
  cases h with
  | prelude h => exact h.quiet
  | @cancel row hrow _ =>
      exact .setJob (cancelRow now row) hrow rfl rfl (cancelRow_running now row).mp rfl
  | @renew row hrow _ => exact .setJob (renewedRow cfg now row) hrow rfl rfl id rfl
  | @progress row stats hrow _ => exact .setJob (progressRow now stats row) hrow rfl rfl id rfl
  | claim workerId hmay => exact absurd hmay (hno workerId)
  | @finish row status error delay hrow hlive hs =>
      exact .setJob (finishRow now status error delay row) hrow rfl rfl (fun _ => hlive.1) rfl

theorem Commit.quiet (h : Commit R cfg now l l') (hno : ∀ w, ¬ R.claims w) : Quiet l l' := by
  obtain ⟨m, hm, rfl | ⟨-, heff⟩⟩ := h
  · exact prelude_run_quiet hm
  · exact (prelude_run_quiet hm).trans (heff.quiet hno)

/-- What a claim leaves running: the job it returns, which was no running job of
a locked repository, and what ran before. -/
theorem claimJob_running {workerId session : String} {locked : Job → Bool} {db db' : Db}
    {r : Option Job} (hok : db.toLedger.Ok)
    (h : claimJob cfg now workerId session locked db = .ok (r, db')) :
    r = none ∧ Quiet db.toLedger db'.toLedger ∨
      ∃ row job, r = some job ∧ db.jobs.get? job.id = some row ∧ locked row = false ∧
        row.repositoryId = job.repositoryId ∧ row.leaseGeneration < job.leaseGeneration ∧
        db'.jobs.get? job.id = some job ∧ job.status = .running ∧
        ∀ id row', id ≠ job.id → db'.jobs.get? id = some row' → row'.status = .running →
          ∃ row, db.jobs.get? id = some row ∧ row.status = .running ∧
            row.leaseGeneration = row'.leaseGeneration := by
  unfold claimJob at h
  split at h
  swap
  · cases h
  obtain ⟨k, m, hclean, ⟨rfl, hdb, -⟩ | ⟨row, -, hcand, hex, rfl, hdb⟩⟩ := claimLoop_cases hok h
  · left
    refine ⟨rfl, ?_⟩
    rw [hdb]
    exact prelude_run_quiet (R := .none) hclean.preludes
  · right
    obtain ⟨hrow, hclaim, hlocked, -⟩ := claimCandidate_eq_some hcand
    obtain ⟨-, -, -, hrun⟩ := claimable_iff.mp hclaim
    have hpreludes : Relation.ReflTransGen (Prelude .none now) db.toLedger m := hclean.preludes
    have hold : db.jobs.get? row.id = some row := by
      cases hget : db.jobs.get? row.id with
      | none =>
          rw [hclean.get?_none hget] at hrow
          cases hrow
      | some r =>
          obtain ⟨r', hr', hcase⟩ := prelude_run_job cfg hpreludes hget
          obtain rfl : r' = row := Option.some.inj (hr'.symm.trans hrow)
          rcases hcase with rfl | ⟨-, hterm⟩
          · rfl
          · rw [hrun.not_terminal] at hterm
            cases hterm
    have hjobs : ∀ id, db'.jobs.get? id =
        if id = row.id then some (claimedRow cfg now workerId row) else m.jobs.get? id :=
      fun id => by
        rw [hdb, claimLedger_jobs, get?_setJob_of_get? (claimedRow cfg now workerId row) hrow rfl]
    refine ⟨row, claimedRow cfg now workerId row, rfl, hold, hlocked, rfl, Nat.lt_succ_self _,
      ?_, rfl, ?_⟩
    · rw [hjobs]
      exact if_pos rfl
    · intro id row' hne hrow' hrun'
      have hid : id ≠ row.id := hne
      rw [hjobs, if_neg hid] at hrow'
      exact prelude_run_quiet hpreludes id row' hrow' hrun'

end

/-! ## The invariant -/

namespace Cluster

/-- A running job holds the claim made last on its repository, and so does the
lease of every guard that was entered. -/
structure Ok (c : Cluster) : Prop where
  coord : c.coord.Ok
  fenced : Fenced c.log
  claimed : ∀ {r lease}, .claimed r lease ∈ c.log → ∃ row,
    c.coord.db.jobs.get? lease.1 = some row ∧ lease.2 ≤ row.leaseGeneration
  running : ∀ {id row}, c.coord.db.jobs.get? id = some row → row.status = .running →
    latest row.repositoryId c.log = some (id, row.leaseGeneration)
  guards : ∀ {r g}, c.holder r = some g → g.job.repositoryId = r ∧
    g.job ∈ c.coord.handles ∧ (g.entered = true → latest r c.log = some g.job.lease)

variable {cfg : Settings} {c c' : Cluster}

/-- Taking guards away, or weakening them, keeps the invariant. -/
theorem Ok.withHolder (h : c.Ok) {holder : String → Option Guard}
    (hguards : ∀ {r g}, holder r = some g → g.job.repositoryId = r ∧
      g.job ∈ c.coord.handles ∧ (g.entered = true → latest r c.log = some g.job.lease)) :
    Ok { c with holder := holder } :=
  ⟨h.coord, h.fenced, h.claimed, h.running, hguards⟩

theorem Ok.setHolder (h : c.Ok) {repositoryId : String} {g : Option Guard}
    (hg : ∀ g', g = some g' → g'.job.repositoryId = repositoryId ∧
      g'.job ∈ c.coord.handles ∧
      (g'.entered = true → latest repositoryId c.log = some g'.job.lease)) :
    (c.setHolder repositoryId g).Ok := by
  refine h.withHolder ?_
  intro r g' hg'
  by_cases hr : r = repositoryId
  · subst hr
    rw [Function.update_self] at hg'
    exact hg g' hg'
  · rw [Function.update_of_ne hr] at hg'
    exact h.guards hg'

/-- A transaction that makes no claim. -/
theorem Ok.quiet (h : c.Ok) {a : Action} {t : Coord} (hstep : (Coord.system cfg).step c.coord a t)
    (hquiet : Quiet c.coord.db.toLedger t.db.toLedger) : Ok { c with coord := t } := by
  obtain ⟨-, jobs, hhandles, hserves⟩ := Coord.step_serves h.coord hstep
  refine ⟨h.coord.step hstep, h.fenced, ?_, ?_, ?_⟩
  · intro r lease hmem
    obtain ⟨row, hrow, hle⟩ := h.claimed hmem
    obtain ⟨row', hrow', hcase⟩ := hserves.commit.job hrow
    refine ⟨row', hrow', ?_⟩
    rcases hcase with rfl | hjob
    · exact hle
    · rcases hjob.generation with ⟨hg, -⟩ | ⟨hg, -⟩
      · omega
      · omega
  · intro id row' hrow' hrun
    obtain ⟨row, hrow, hwas, hgen⟩ := hquiet id row' hrow' hrun
    obtain ⟨r, hr, hcase⟩ := hserves.commit.job hrow
    obtain rfl : r = row' := Option.some.inj (hr.symm.trans hrow')
    have hrepo : r.repositoryId = row.repositoryId := by
      rcases hcase with rfl | hjob
      · rfl
      · exact hjob.repositoryId_eq
    show latest r.repositoryId c.log = _
    rw [hrepo, h.running hrow hwas, hgen]
  · intro r g hg
    obtain ⟨hrepo, hmem, hentered⟩ := h.guards hg
    refine ⟨hrepo, ?_, hentered⟩
    show g.job ∈ t.handles
    rw [hhandles]
    exact List.mem_append_right _ hmem

/-- A transaction that claims: no guard is open on the repository, and the lease
is new. -/
theorem Ok.claim (h : c.Ok) {a : Action} {t : Coord} (hstep : (Coord.system cfg).step c.coord a t)
    {row job : Job} (hold : c.coord.db.jobs.get? job.id = some row)
    (hfree : c.holder row.repositoryId = none) (hrepo : row.repositoryId = job.repositoryId)
    (hgen : row.leaseGeneration < job.leaseGeneration) (hnew : t.db.jobs.get? job.id = some job)
    (hrun : job.status = .running)
    (hothers : ∀ id row', id ≠ job.id → t.db.jobs.get? id = some row' →
      row'.status = .running → ∃ row, c.coord.db.jobs.get? id = some row ∧
        row.status = .running ∧ row.leaseGeneration = row'.leaseGeneration) :
    Ok { c with coord := t, log := .claimed job.repositoryId job.lease :: c.log } := by
  obtain ⟨-, jobs, hhandles, hserves⟩ := Coord.step_serves h.coord hstep
  have hok := h.coord.step hstep
  have hmono : ∀ {lease : Lease}, (∃ row, c.coord.db.jobs.get? lease.1 = some row ∧
      lease.2 ≤ row.leaseGeneration) →
      ∃ row, t.db.jobs.get? lease.1 = some row ∧ lease.2 ≤ row.leaseGeneration := by
    rintro lease ⟨r, hr, hle⟩
    obtain ⟨r', hr', hcase⟩ := hserves.commit.job hr
    refine ⟨r', hr', ?_⟩
    rcases hcase with rfl | hjob
    · exact hle
    · rcases hjob.generation with ⟨hg, -⟩ | ⟨hg, -⟩
      · omega
      · omega
  refine ⟨hok, h.fenced.claim ?_, ?_, ?_, ?_⟩
  · intro hmem
    obtain ⟨r, hr, hle⟩ := h.claimed hmem
    obtain rfl : row = r := Option.some.inj (hold.symm.trans hr)
    exact absurd hle (Nat.not_le.mpr hgen)
  · intro r lease hmem
    rcases List.mem_cons.mp hmem with heq | hmem
    · obtain ⟨rfl, rfl⟩ := Event.claimed.inj heq
      exact ⟨job, hnew, le_refl _⟩
    · exact hmono (h.claimed hmem)
  · intro id row' hrow' hrun'
    by_cases hid : id = job.id
    · subst hid
      obtain rfl : job = row' := Option.some.inj (hnew.symm.trans hrow')
      exact if_pos rfl
    · obtain ⟨r, hr, hwas, hgen'⟩ := hothers id row' hid hrow' hrun'
      obtain ⟨r', hr', hcase⟩ := hserves.commit.job hr
      obtain rfl : r' = row' := Option.some.inj (hr'.symm.trans hrow')
      have hsame : r'.repositoryId = r.repositoryId := by
        rcases hcase with rfl | hjob
        · rfl
        · exact hjob.repositoryId_eq
      have hne : job.repositoryId ≠ r'.repositoryId := by
        intro heq
        have hpair := hok.ledger.runsAt_unique ⟨job, hnew, hrun, rfl⟩
          ⟨r', hrow', hrun', rfl⟩ (by simp [Ledger.repositoryOf, hnew, hrow', heq])
        exact hid (Prod.mk.inj hpair).1.symm
      rw [latest_claimed_of_ne hne, hsame, h.running hr hwas, hgen']
  · intro r g hg
    obtain ⟨hgrepo, hmem, hentered⟩ := h.guards hg
    have hne : job.repositoryId ≠ r := by
      rintro rfl
      have hnone : c.holder job.repositoryId = none := hrepo ▸ hfree
      rw [hnone] at hg
      cases hg
    refine ⟨hgrepo, ?_, ?_⟩
    · show g.job ∈ t.handles
      rw [hhandles]
      exact List.mem_append_right _ hmem
    · intro he
      show latest r (.claimed job.repositoryId job.lease :: c.log) = _
      rw [latest_claimed_of_ne hne]
      exact hentered he

theorem skipLocked_handle? (c : Cluster) (a : Action) :
    (c.skipLocked a).handle? = a.handle? := by
  cases a <;> rfl

/-- An action with nothing to claim leaves the running jobs alone. -/
theorem quiet_of_no_claim {s t : Coord} (hok : s.Ok) {a : Action}
    (hstep : (Coord.system cfg).step s a t) (hno : ∀ w, ¬ a.rights.claims w) :
    Quiet s.db.toLedger t.db.toLedger := by
  obtain ⟨-, jobs, -, hserves⟩ := Coord.step_serves hok hstep
  exact hserves.commit.quiet hno

theorem Ok.tx (h : c.Ok) {a : Action} (hadm : c.coord.Admissible a) :
    Ok { c with
      coord := c.coord.next cfg (c.skipLocked a)
      log := claimEvents a (c.coord.answer cfg (c.skipLocked a)) ++ c.log } := by
  have hstep : (Coord.system cfg).step c.coord (c.skipLocked a)
      (c.coord.next cfg (c.skipLocked a)) := by
    refine ⟨fun job hjob => hadm job ?_, rfl⟩
    rw [← skipLocked_handle? c a]
    exact hjob
  have hquiet : (∀ w, ¬ (c.skipLocked a).rights.claims w) →
      Ok { c with coord := c.coord.next cfg (c.skipLocked a) } := fun hno =>
    h.quiet hstep (quiet_of_no_claim h.coord hstep hno)
  cases a with
  | claimJob workerId session locked =>
      cases hans : c.coord.answer cfg (c.skipLocked (.claimJob workerId session locked)) with
      | error e =>
          have hnext : c.coord.next cfg (c.skipLocked (.claimJob workerId session locked)) =
              { c.coord with now := c.coord.now + (0 : ℕ) } := by
            rw [Coord.next, hans]
            rfl
          refine h.quiet hstep ?_
          rw [hnext]
          exact .refl _
      | ok answer =>
          obtain ⟨reply, db'⟩ := answer
          have hdb : (c.coord.next cfg (c.skipLocked (.claimJob workerId session locked))).db =
              db' := by
            rw [Coord.next, hans]
          obtain ⟨r, heq, rfl⟩ := replying_ok hans
          rcases claimJob_running h.coord.ledger heq with
            ⟨rfl, hq⟩ | ⟨row, job, rfl, hold, hlocked, hrepo, hgen, hnew, hrun, hothers⟩
          · refine h.quiet hstep ?_
            rw [hdb]
            exact hq
          · have hfree : c.holder row.repositoryId = none := by
              simpa using (Bool.or_eq_false_iff.mp hlocked).2
            have hclaimed := h.claim hstep hold hfree hrepo hgen (by rw [hdb]; exact hnew) hrun
              (by rw [hdb]; exact hothers)
            exact hclaimed
  | submitJob | getJob | resubmitJob | registerWorker | heartbeatWorker | stopWorker
  | assertOwnership | renewLease | updateProgress | enterGuard | requestCancel | completeJob
  | cancelJob | failJob | scheduleRetry | importLegacyJobs | ensure | setEnabled | recordError
  | observe | advance =>
      exact hquiet fun _ hw => hw

theorem held_eq_some {process : ℕ} {repositoryId : String} {g : Guard}
    (h : c.held process repositoryId = some g) : c.holder repositoryId = some g :=
  (Option.filter_eq_some_iff.mp h).1

/-- A guard that passes its check holds the claim made last. -/
theorem Ok.check (h : c.Ok) {repositoryId : String} {g : Guard}
    (hg : c.holder repositoryId = some g) {b : Bool} {db' : Db}
    (hans : assertOwnership c.coord.now g.job c.coord.db = .ok (b, db')) :
    latest repositoryId c.log = some g.job.lease := by
  obtain ⟨hrepo, hmem, -⟩ := h.guards hg
  obtain ⟨row, hrow, hfollows⟩ := h.coord.handles g.job hmem
  cases howned : ownedRow c.coord.now c.coord.db.toLedger g.job with
  | none =>
      rw [assertOwnership_lost howned] at hans
      cases hans
  | some r =>
      obtain rfl : row = r := Option.some.inj (hrow.symm.trans (ownedRow_eq_some.mp howned).1)
      have hlatest := h.running hrow (ownedRow_live howned).1
      rw [hfollows.repositoryId_eq, hrepo, ownedRow_generation howned] at hlatest
      exact hlatest

theorem Ok.next (h : c.Ok) {m : Move} (hnext : c.next cfg m = some c') : c'.Ok := by
  cases m with
  | tx a =>
      simp only [Cluster.next] at hnext
      split at hnext
      · rename_i hadm
        obtain rfl := Option.some.inj hnext
        exact h.tx hadm
      · cases hnext
  | lock process job =>
      simp only [Cluster.next] at hnext
      split at hnext
      · rename_i hfree
        split at hnext
        · obtain rfl := Option.some.inj hnext
          exact h
        · split at hnext
          · obtain rfl := Option.some.inj hnext
            refine h.setHolder ?_
            intro g hg
            obtain rfl := Option.some.inj hg
            refine ⟨rfl, hfree.1, ?_⟩
            intro he
            cases he
          · obtain rfl := Option.some.inj hnext
            exact h
      · cases hnext
  | check process repositoryId =>
      simp only [Cluster.next] at hnext
      split at hnext
      · cases hnext
      · rename_i g hheld
        have hg := held_eq_some hheld
        obtain ⟨hrepo, hmem, -⟩ := h.guards hg
        split at hnext
        · rename_i answer hans
          obtain rfl := Option.some.inj hnext
          have hlatest := h.check hg hans
          refine h.setHolder ?_
          intro g' hg'
          obtain rfl := Option.some.inj hg'
          exact ⟨hrepo, hmem, fun _ => hlatest⟩
        · obtain rfl := Option.some.inj hnext
          refine h.setHolder ?_
          intro g' hg'
          cases hg'
  | store process repositoryId =>
      simp only [Cluster.next] at hnext
      split at hnext
      · cases hnext
      · rename_i g hheld
        split at hnext
        · rename_i hentered
          obtain rfl := Option.some.inj hnext
          have hlatest := (h.guards (held_eq_some hheld)).2.2 hentered
          refine ⟨h.coord, h.fenced.store hlatest, ?_, h.running, h.guards⟩
          intro r lease hmem
          rcases List.mem_cons.mp hmem with heq | hmem
          · cases heq
          · exact h.claimed hmem
        · cases hnext
  | exit process repositoryId =>
      simp only [Cluster.next] at hnext
      split at hnext
      · cases hnext
      · obtain rfl := Option.some.inj hnext
        refine h.setHolder ?_
        intro g' hg'
        cases hg'
  | crash process =>
      obtain rfl := Option.some.inj hnext
      refine h.withHolder ?_
      intro r g hg
      exact h.guards (Option.filter_eq_some_iff.mp hg).1

theorem reachable_ok (h : (system cfg).Reachable c) : c.Ok := by
  refine h.induct (I := Ok) ?_ fun _ _ _ _ hok hstep => hok.next hstep
  rintro c₀ ⟨hcoord, hholder, hlog⟩
  have hok := Coord.reachable_ok (.init hcoord)
  refine ⟨hok, hlog ▸ Fenced.nil, ?_, ?_, ?_⟩
  · intro r lease hmem
    rw [hlog] at hmem
    cases hmem
  · intro id row hrow
    rw [hcoord.1] at hrow
    cases hrow
  · intro r g hg
    rw [hholder] at hg
    cases hg

/-- Storage writes are fenced in claim order: a write is always made under the
claim made last on its repository, and never under one that a later claim came
after. -/
theorem storage_fenced_in_claim_order (h : (system cfg).Reachable c) :
    (∀ newer older r lease, c.log = newer ++ .stored r lease :: older →
      latest r older = some lease) ∧
    ∀ newer middle older r lease lease',
      c.log = newer ++ .stored r lease :: (middle ++ .claimed r lease' :: older) →
      .claimed r lease ∉ older := by
  have hfenced := (reachable_ok h).fenced
  constructor
  · intro newer older r lease hlog
    exact hfenced.stores hlog
  · intro newer middle older r lease lease' hlog
    exact hfenced.no_late_store hlog

/-- The state after a list of moves, if each of them is possible. -/
def exec (cfg : Settings) (c : Cluster) : List Move → Option Cluster
  | [] => some c
  | m :: ms => (c.next cfg m).bind fun c' => c'.exec cfg ms

theorem run_exec {ms : List Move} (h : c.exec cfg ms = some c') : (system cfg).Run c ms c' := by
  induction ms generalizing c with
  | nil =>
      obtain rfl := Option.some.inj h
      exact .nil c
  | cons m ms ih =>
      obtain ⟨d, hd, hrest⟩ := Option.bind_eq_some_iff.mp h
      exact .cons hd (ih hrest)

/-- An empty store without guards. -/
def empty (now : Time) : Cluster := ⟨.empty now, fun _ => none, []⟩

/-- The claimed job stores inside a guard, after its lease is over. -/
theorem storage_fenced_in_claim_order_expired :
    ((empty 0).exec .default (Coord.oneClaim.map .tx ++
        [.lock 1 Coord.oneClaimJob, .check 1 "repo", .tx (.advance 30000000),
          .tx (.claimJob "worker-1" "session-1" fun _ => false), .store 1 "repo"])).map (·.log) =
      some [.stored "repo" ("job-1", 1), .claimed "repo" ("job-1", 1)] ∧
    latest "repo" [Event.claimed "repo" (("job-1", 1) : Lease)] = some ("job-1", 1) := by
  have hlog : ((empty 0).exec .default (Coord.oneClaim.map .tx ++
        [.lock 1 Coord.oneClaimJob, .check 1 "repo", .tx (.advance 30000000),
          .tx (.claimJob "worker-1" "session-1" fun _ => false), .store 1 "repo"])).map (·.log) =
      some [.stored "repo" ("job-1", 1), .claimed "repo" ("job-1", 1)] := by decide
  obtain ⟨c, hc, hlogc⟩ := Option.map_eq_some_iff.mp hlog
  have hreach : (system .default).Reachable c :=
    ⟨empty 0, _, ⟨⟨rfl, rfl⟩, fun _ => rfl, rfl⟩, run_exec hc⟩
  exact ⟨hlog, (storage_fenced_in_claim_order hreach).1 [] _ _ _ hlogc⟩

end Cluster

end RepoMesh
