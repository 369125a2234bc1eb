import RepoMesh.AttemptRows
import RepoMesh.LeaseEnd
import RepoMesh.SharedIndex

/-!
# What a completed job says of the index

The two halves of the program meet here: the job table, which any number of workers and
clients write, and the index, which the passes of the workers write.
-/

namespace RepoMesh

/-- The status that `complete_job` asks for. -/
def doneStatus (withErrors : Bool) : JobStatus :=
  if withErrors then .completedWithErrors else .completed

theorem doneStatus_terminal (withErrors : Bool) : (doneStatus withErrors).terminal = true := by
  cases withErrors <;> rfl

theorem doneStatus_injective {b b' : Bool} (h : doneStatus b = doneStatus b') : b = b' := by
  cases b <;> cases b' <;> first | rfl | cases h

/-- The attempt of the row is over, and ended when the row was completed. -/
def Ledger.EndsWith (l : Ledger) (row : Job) : Prop :=
  ∃ a ended, l.attempts.get? row.lease = some a ∧ a.endedAt = some ended ∧
    row.completedAt = some ended

namespace Coord

variable {cfg : Settings} {s t : Coord} {a : Action} {row : Job} {withErrors : Bool}

/-- The call that `complete_job` is the only one to make. -/
theorem complete_of_finish {f : Finish} (hf : a.finish? cfg = some f)
    (hdone : f.status = doneStatus withErrors) : a = .completeJob f.job withErrors := by
  cases a with
  | completeJob job b =>
      obtain rfl := Option.some.inj hf
      rw [doneStatus_injective hdone]
  | cancelJob _ | failJob _ _ =>
      obtain rfl := Option.some.inj hf
      cases withErrors <;> cases hdone
  | scheduleRetry job _ _ =>
      obtain rfl := Option.some.inj hf
      have hother : (if job.maxAttempts ≤ job.attempt then JobStatus.failed else .retrying) =
          doneStatus withErrors := hdone
      split at hother <;> cases withErrors <;> cases hother
  | _ => cases hf

/-- A claimed job that is done was done before, or `complete_job` has just been called with
the handle of its last claim. -/
theorem step_completes (h : (system cfg).Reachable s) (hstep : (system cfg).step s a t)
    (hrow : t.db.jobs.get? row.id = some row) (hclaimed : 0 < row.leaseGeneration)
    (hdone : row.status = doneStatus withErrors) :
    s.db.jobs.get? row.id = some row ∨
      (∃ job, a = .completeJob job withErrors ∧ job.lease = row.lease) ∧
        t.db.toLedger.EndsWith row := by
  have hok := reachable_ok h
  have hterm : row.status.terminal = true := hdone ▸ doneStatus_terminal withErrors
  cases hold : s.db.jobs.get? row.id with
  | none =>
      obtain ⟨-, jobs, -, hserves⟩ := step_serves hok hstep
      have hfresh := (hserves.commit.born hold hrow).1
      rw [hfresh.generation] at hclaimed
      exact absurd hclaimed (lt_irrefl 0)
  | some old =>
      obtain ⟨r, hr, hcase⟩ := step_job h hstep hold
      obtain rfl : row = r := Option.some.inj (hrow.symm.trans hr)
      rcases hcase with rfl | hjob
      · exact Or.inl rfl
      right
      have hnot := hjob.not_terminal
      have hlive : Live s.now old := by
        cases hjob with
        | cancel _ =>
            have hstatus : (if old.status.waiting then .cancelled else old.status) =
                doneStatus withErrors := hdone
            split at hstatus
            · cases withErrors <;> cases hstatus
            · rw [hstatus, doneStatus_terminal] at hnot
              cases hnot
        | renew hlive => exact hlive
        | progress _ hlive => exact hlive
        | claim _ _ _ => cases hterm
        | exhaust _ _ =>
            have hstatus : exhaustedStatus old = doneStatus withErrors := hdone
            unfold exhaustedStatus at hstatus
            split at hstatus <;> cases withErrors <;> cases hstatus
        | finish _ _ _ hlive _ => exact hlive
      obtain ⟨f, hf, howned, hledger⟩ := step_stops h hstep hold hlive hrow
        (JobStatus.ne_running_of_terminal hterm)
      have hid : old.id = row.id := Table.key_of_get? hold
      have hold : s.db.jobs.get? old.id = some old := hid ▸ hold
      have hrow' : finishRow s.now f.status f.error f.delay old = row := by
        have hget : t.db.toLedger.jobs.get? row.id = some row := hrow
        rw [hledger, finishLedger_jobs, 
          get?_setJob_of_get? (finishRow s.now f.status f.error f.delay old) hold rfl,
          if_pos hid.symm] at hget
        exact Option.some.inj hget
      have hstatus : finishStatus f.status old = doneStatus withErrors := by
        rw [← hdone, ← hrow']
        rfl
      have hasked : f.status = doneStatus withErrors := by
        unfold finishStatus at hstatus
        split at hstatus
        · cases withErrors <;> cases hstatus
        · exact hstatus
      obtain ⟨b, hb⟩ := Option.isSome_iff_exists.mp
        ((hok.ledger.attempts old.id old.leaseGeneration).mpr
          ⟨old, hold, (hok.ledger.rows hold).claimed hlive.1, le_refl _⟩)
      refine ⟨⟨f.job, complete_of_finish hf hasked, ?_⟩, ?_⟩
      · rw [Job.lease, ← ownedRow_id howned, ← ownedRow_generation howned, ← hrow']
        rfl
      · refine ⟨finishedAttempt s.now f.status f.error old b, s.now, ?_, rfl, ?_⟩
        · have hlease : row.lease = (old.id, old.leaseGeneration) := hrow' ▸ rfl
          rw [hledger, get?_finishLedger, hlease, hb, Option.map_some, if_pos rfl]
        · rw [← hrow', finishRow, if_neg]
          rintro ⟨heq, -⟩
          rw [hasked] at heq
          cases withErrors <;> cases heq

/-- What of the attempts and the jobs is there for good. -/
structure Keeps (s t : Coord) : Prop where
  attempt : ∀ {k a}, s.db.attempts.get? k = some a →
    ∃ a', t.db.attempts.get? k = some a' ∧ a.Kept a' ∧ (a.endedAt.isSome = true → a' = a)
  repository : ∀ {id r}, s.db.repositoryOf id = some r → t.db.repositoryOf id = some r

theorem Keeps.refl (s : Coord) : s.Keeps s :=
  ⟨fun ha => ⟨_, ha, .refl _, fun _ => rfl⟩, id⟩

theorem step_keeps (h : (system cfg).Reachable s) (hstep : (system cfg).step s a t) :
    s.Keeps t where
  attempt := fun ha => run_attempt_kept h (.single hstep) ha
  repository := by
    intro id r hr
    obtain ⟨row, hrow, hrepo⟩ := Option.map_eq_some_iff.mp hr
    obtain ⟨row', hrow', rfl | hjob⟩ := step_job h hstep hrow
    · rw [Ledger.repositoryOf, hrow', Option.map_some, hrepo]
    · rw [Ledger.repositoryOf, hrow', Option.map_some, hjob.repositoryId_eq, hrepo]

theorem Keeps.attempt_isSome (h : s.Keeps t) {k : Lease}
    (hk : (s.db.attempts.get? k).isSome = true) : (t.db.attempts.get? k).isSome = true := by
  obtain ⟨a, ha⟩ := Option.isSome_iff_exists.mp hk
  obtain ⟨a', ha', -⟩ := h.attempt ha
  rw [ha']
  rfl

theorem Keeps.endsWith (h : s.Keeps t) (hrow : s.db.toLedger.EndsWith row) :
    t.db.toLedger.EndsWith row := by
  obtain ⟨a, ended, ha, hended, hcompleted⟩ := hrow
  obtain ⟨a', ha', -, hfinal⟩ := h.attempt ha
  obtain rfl := hfinal (by rw [hended]; rfl)
  exact ⟨_, ended, ha', hended, hcompleted⟩

/-- The attempt of `k` was over when that of `k'` was claimed. -/
def Precedes (s : Coord) (k k' : Lease) : Prop :=
  ∃ a b, s.db.attempts.get? k = some a ∧ s.db.attempts.get? k' = some b ∧ a.Before b

theorem Keeps.precedes (h : s.Keeps t) {k k' : Lease} (hk : s.Precedes k k') :
    t.Precedes k k' := by
  obtain ⟨a, b, ha, hb, ended, hended, hle⟩ := hk
  obtain ⟨a', ha', -, hfinal⟩ := h.attempt ha
  obtain ⟨b', hb', hkept, -⟩ := h.attempt hb
  obtain rfl := hfinal (by rw [hended]; rfl)
  exact ⟨_, b', ha', hb', ended, hended, hkept.claimedAt.symm ▸ hle⟩

/-- The attempt of a claim is new. -/
theorem claim_lease (h : (system cfg).Reachable s) {workerId session : String}
    {locked : Job → Bool} {job : Job} {db : Db}
    (hans : s.answer cfg (.claimJob workerId session locked) = .ok (.job job, db)) :
    s.db.attempts.get? job.lease = none ∧
      ((s.next cfg (.claimJob workerId session locked)).db.attempts.get? job.lease).isSome =
        true := by
  have hok := (reachable_ok h).ledger
  obtain ⟨r, htx, hreply⟩ := replying_ok hans
  cases r with
  | none => cases hreply
  | some r =>
      obtain rfl : job = r := Reply.job.inj hreply
      obtain ⟨row, hrow, -, rfl⟩ := claimJob_takes hok htx
      constructor
      · rw [← Option.not_isSome_iff_eq_none, Job.lease, hok.attempts]
        rintro ⟨r, hr, -, hle⟩
        have hr : s.db.jobs.get? row.id = some r := hr
        obtain rfl := Option.some.inj (hrow.symm.trans hr)
        exact absurd hle (Nat.not_succ_le_self _)
      · have hstep : (system cfg).step s (.claimJob workerId session locked) _ :=
          ⟨fun _ hjob => (by cases hjob), rfl⟩
        have hok' := (reachable_ok (h.step hstep)).ledger
        have hcurrent := (claimJob_serves hok htx).current _ (List.mem_singleton_self _)
        rw [next_of_ok hans] at hok' ⊢
        exact (hok'.attempts _ _).mpr ⟨_, hcurrent, Nat.succ_pos _, le_refl _⟩

/-- A job is owned under its last claim, whose attempt is open. -/
theorem owned_open (h : (system cfg).Reachable s) {job : Job} (hjob : job ∈ s.handles)
    (howned : (ownedRow s.now s.db.toLedger job).isSome = true) :
    s.db.repositoryOf job.id = some job.repositoryId ∧
      ∃ b, s.db.attempts.get? job.lease = some b ∧ b.endedAt = none := by
  have hok := reachable_ok h
  obtain ⟨row, howned⟩ := Option.isSome_iff_exists.mp howned
  obtain ⟨r, hr, hfollows⟩ := hok.handles job hjob
  obtain ⟨hrow, -⟩ := ownedRow_eq_some.mp howned
  obtain rfl := Option.some.inj (hrow.symm.trans hr)
  have hlive := ownedRow_live howned
  have hgen := ownedRow_generation howned
  obtain ⟨b, hb⟩ := Option.isSome_iff_exists.mp
    ((hok.ledger.attempts job.id job.leaseGeneration).mpr
      ⟨row, hrow, hgen ▸ (hok.ledger.rows hrow).claimed hlive.1, hgen.ge⟩)
  refine ⟨?_, b, hb, ((reachable_timeline h).current hb).mpr ⟨row, hrow, hlive.1, hgen⟩⟩
  rw [Ledger.repositoryOf, hrow, Option.map_some, hfollows.repositoryId_eq]

end Coord

/-! ## Executions and their jobs -/

/-- Only `execute` calls `complete_job`. -/
theorem Process.turn_complete {p : Process} {m : Process.Move} {job : Job} {withErrors : Bool}
    {after : Except Error Reply → Option Process}
    (h : p.turn m = some (.call (.completeJob job withErrors) after)) :
    m = .complete withErrors := by
  unfold turn at h
  split at h <;> cases h
  rfl

/-- `complete_job` is called after a pass that returned. -/
theorem Process.Move.follows_complete {result : Option (Except Exc IndexStats)}
    {withErrors : Bool} (h : (Process.Move.complete withErrors).follows result = true) :
    ∃ stats, result = some (.ok stats) ∧ withErrors = (stats.errorCount != 0) := by
  rcases result with _ | ⟨e | stats⟩
  · cases h
  · cases h
  · exact ⟨stats, rfl, by simpa [follows] using h⟩

/-- The process executes the job. -/
def Fleet.Executing (f : Fleet) (i : ℕ) (job : Job) : Prop :=
  ∃ p, f.processes i = some p ∧ p.job? = some job

theorem Fleet.action_complete {cfg : Settings} {f f' : Fleet} {m : Fleet.Move} {job : Job}
    {withErrors : Bool} (hnext : f.next cfg m = some f')
    (ha : f.action? m = some (.completeJob job withErrors)) :
    ∃ i, m = .process i (.complete withErrors) ∧ f.Executing i job := by
  cases m with
  | start i workerId hostname pid version => cases ha
  | client a =>
      obtain rfl := Option.some.inj ha
      rw [next, if_neg (by simp [Action.client, Action.handle?])] at hnext
      cases hnext
  | process i m =>
      rw [action?] at ha
      split at ha
      · rename_i a after hturn
        obtain rfl := Option.some.inj ha
        obtain ⟨p, hp, hcall⟩ := Option.bind_eq_some_iff.mp hturn
        exact ⟨i, by rw [Process.turn_complete hcall], p, hp, Process.turn_handle hcall rfl⟩
      · cases ha

/-- The execution is of a handle of the job, with the pass that `execute` makes of it. -/
structure ExecutedPass.Of (s : Coord) (e : ExecutedPass) : Prop where
  attempt : (s.db.attempts.get? e.job.lease).isSome = true
  repository : s.db.repositoryOf e.job.id = some e.job.repositoryId
  pass : e.pass.repositoryId.text = e.job.repositoryId
  mode : e.pass.mode = executedMode e.job

theorem ExecutedPass.Of.mono {s t : Coord} {e : ExecutedPass} (he : e.Of s) (h : s.Keeps t) :
    e.Of t :=
  ⟨h.attempt_isSome he.attempt, h.repository he.repository, he.pass, he.mode⟩

namespace Deployment

variable {cfg : Settings} {h : Hashing} {d d' : Deployment} {m : Move}

/-- The execution that completed the row. -/
def CompletedBy (h : Hashing) (d : Deployment) (row : Job) (withErrors : Bool)
    (e : ExecutedPass) : Prop :=
  e ∈ d.executions ∧ e.job.lease = row.lease ∧
    ∃ stats, e.outcome h = .ok stats ∧ withErrors = (stats.errorCount != 0)

structure Ok (cfg : Settings) (h : Hashing) (d : Deployment) : Prop where
  fleet : (Fleet.system cfg).Reachable d.fleet
  held : ∀ {i job}, d.fleet.Executing i job →
    (d.fleet.coord.db.attempts.get? job.lease).isSome = true
  apart : ∀ {i j job job'}, d.fleet.Executing i job → d.fleet.Executing j job' →
    job.lease = job'.lease → i = j
  due : ∀ {i job}, d.fleet.Executing i job → d.results i = none →
    ∀ e ∈ d.executions, e.job.lease ≠ job.lease
  result : ∀ {i job stats}, d.fleet.Executing i job → d.results i = some (.ok stats) →
    ∃ e ∈ d.executions, e.job = job ∧ e.outcome h = .ok stats
  executed : ∀ e ∈ d.executions, e.Of d.fleet.coord
  order : d.executions.Pairwise fun later earlier => later.job.lease ≠ earlier.job.lease ∧
    (later.job.repositoryId = earlier.job.repositoryId →
      d.fleet.coord.Precedes earlier.job.lease later.job.lease)
  completed : ∀ {row withErrors}, d.fleet.coord.db.jobs.get? row.id = some row →
    0 < row.leaseGeneration → row.status = doneStatus withErrors →
    (∃ e, d.CompletedBy h row withErrors e) ∧ d.fleet.coord.db.toLedger.EndsWith row
  index : Leads h d.executions d.world

theorem Ok.init (hinit : (system cfg h).init d) : d.Ok cfg h := by
  obtain ⟨hfleet, hworld, hexecutions⟩ := hinit
  have hno : ∀ {i job}, ¬ d.fleet.Executing i job := by
    rintro i job ⟨p, hp, -⟩
    rw [hfleet.2 i] at hp
    cases hp
  refine ⟨.init hfleet, fun hi => absurd hi hno, fun hi => absurd hi hno, fun hi => absurd hi hno,
    fun hi => absurd hi hno, ?_, ?_, ?_, ?_⟩
  · simp [hexecutions]
  · simp [hexecutions]
  · intro row _ hrow
    rw [hfleet.1.1] at hrow
    cases hrow
  · rw [hexecutions]
    exact .fresh hworld

/-- A move of the fleet. -/
theorem Ok.fleetMove (hd : d.Ok cfg h) {m : Fleet.Move} {f : Fleet} (hfollows : d.follows m = true)
    (hnext : d.fleet.next cfg m = some f) :
    ({ d with fleet := f, results := d.resultsAfter m } : Deployment).Ok cfg h := by
  have hcoord := Fleet.reachable_coord hd.fleet
  have hholds := Fleet.reachable_holds hd.fleet
  have hkeeps : d.fleet.coord.Keeps f.coord := by
    rcases Fleet.next_coord hholds hnext with heq | ⟨a, -, hstep⟩
    · rw [heq]
      exact .refl _
    · exact Coord.step_keeps hcoord hstep
  have hjob : ∀ {i job}, f.Executing i job →
      (d.fleet.Executing i job ∧ d.resultsAfter m i = d.results i) ∨
        Fleet.Hands cfg d.fleet f m i job := by
    rintro i job ⟨p', hp', hjob⟩
    rcases Fleet.next_job hnext hp' hjob with ⟨hold, hm⟩ | hhands
    · refine Or.inl ⟨hold, ?_⟩
      unfold resultsAfter
      split
      · rename_i k locked
        exact Function.update_of_ne (fun hik => hm locked (by rw [hik])) _ _
      · rfl
    · exact Or.inr hhands
  have hnew : ∀ {i job}, Fleet.Hands cfg d.fleet f m i job →
      d.fleet.coord.db.attempts.get? job.lease = none ∧
        (f.coord.db.attempts.get? job.lease).isSome = true ∧ d.resultsAfter m i = none := by
    rintro i job ⟨⟨locked, rfl⟩, ⟨_, _, _, _, hans, hf⟩, -⟩
    obtain ⟨hnone, hsome⟩ := Coord.claim_lease hcoord hans
    exact ⟨hnone, hf ▸ hsome, Function.update_self _ _ _⟩
  refine ⟨hd.fleet.step hnext, ?_, ?_, ?_, ?_, ?_, ?_, ?_, hd.index⟩
  · intro i job hi
    rcases hjob hi with ⟨hold, -⟩ | hhands
    · exact hkeeps.attempt_isSome (hd.held hold)
    · exact (hnew hhands).2.1
  · intro i j job job' hi hj heq
    have hclash : ∀ {i j job job'}, Fleet.Hands cfg d.fleet f m i job →
        d.fleet.Executing j job' → job.lease ≠ job'.lease := by
      intro i j job job' hhands hold heq
      have hheld := hd.held hold
      rw [← heq, (hnew hhands).1] at hheld
      cases hheld
    rcases hjob hi with ⟨hi, -⟩ | hi
    · rcases hjob hj with ⟨hj, -⟩ | hj
      · exact hd.apart hi hj heq
      · exact absurd heq.symm (hclash hj hi)
    · rcases hjob hj with ⟨hj, -⟩ | hj
      · exact absurd heq (hclash hi hj)
      · obtain ⟨_, rfl⟩ := hi.move
        obtain ⟨_, hmove⟩ := hj.move
        exact (Fleet.Move.process.inj hmove).1
  · intro i job hi hnone e he
    rcases hjob hi with ⟨hold, hsame⟩ | hhands
    · exact hd.due hold (hsame ▸ hnone) e he
    · intro heq
      have hattempt := (hd.executed e he).attempt
      rw [heq, (hnew hhands).1] at hattempt
      cases hattempt
  · intro i job stats hi hstats
    rcases hjob hi with ⟨hold, hsame⟩ | hhands
    · exact hd.result hold (hsame ▸ hstats)
    · have hstats : d.resultsAfter m i = some (.ok stats) := hstats
      rw [(hnew hhands).2.2] at hstats
      cases hstats
  · exact fun e he => (hd.executed e he).mono hkeeps
  · exact hd.order.imp fun hpair => ⟨hpair.1, fun hrepo => hkeeps.precedes (hpair.2 hrepo)⟩
  · intro row withErrors hrow hclaimed hdone
    have hold : d.fleet.coord.db.jobs.get? row.id = some row →
        (∃ e, d.CompletedBy h row withErrors e) ∧ f.coord.db.toLedger.EndsWith row := by
      intro hget
      obtain ⟨hby, hends⟩ := hd.completed hget hclaimed hdone
      exact ⟨hby, hkeeps.endsWith hends⟩
    rcases Fleet.next_coord hholds hnext with heq | ⟨a, ha, hstep⟩
    · have hrow : f.coord.db.jobs.get? row.id = some row := hrow
      rw [heq] at hrow
      exact hold hrow
    · rcases Coord.step_completes hcoord hstep hrow hclaimed hdone with
        hget | ⟨⟨job, rfl, hlease⟩, hends⟩
      · exact hold hget
      refine ⟨?_, hends⟩
      obtain ⟨i, rfl, hexec⟩ := Fleet.action_complete hnext ha
      obtain ⟨stats, hstats, herrors⟩ := Process.Move.follows_complete hfollows
      obtain ⟨e, he, rfl, hout⟩ := hd.result hexec hstats
      exact ⟨e, he, hlease, stats, hout, herrors⟩

theorem Ok.refuse (hd : d.Ok cfg h) (i : ℕ) (text : String) :
    ({ d with results := Function.update d.results i (some (.error (.other text))) } :
      Deployment).Ok cfg h := by
  refine ⟨hd.fleet, hd.held, hd.apart, fun {k job'} hk hnone => ?_,
    fun {k job' stats} hk hstats => ?_,
    hd.executed, hd.order, hd.completed, hd.index⟩
  · have hnone : Function.update d.results i _ k = none := hnone
    rw [Function.update_apply] at hnone
    split at hnone
    · cases hnone
    · exact hd.due hk hnone
  · have hstats : Function.update d.results i _ k = _ := hstats
    rw [Function.update_apply] at hstats
    split at hstats
    · cases hstats
    · exact hd.result hk hstats

/-- A process runs its pass: the job is owned, so every other attempt of its repository that
was executed is over. -/
theorem Ok.ran (hd : d.Ok cfg h) {i : ℕ} {job : Job} {pass : Pass} (hjob : d.pending i = some job)
    (hexecutes : d.Executes job pass) : (d.ran h i ⟨job, pass, d.world⟩).Ok cfg h := by
  obtain ⟨howned, hrepo, hmode⟩ := hexecutes
  obtain ⟨hnone, hi⟩ := pending_eq_some hjob
  have hcoord := Fleet.reachable_coord hd.fleet
  obtain ⟨p, hp, hpjob⟩ := hi
  have hhandle := Fleet.reachable_holds hd.fleet i p job hp hpjob
  have hi : d.fleet.Executing i job := ⟨p, hp, hpjob⟩
  obtain ⟨hof, b, hb, hopen⟩ := Coord.owned_open hcoord hhandle howned
  have hdue := hd.due hi hnone
  refine ⟨hd.fleet, hd.held, hd.apart, fun {k job'} hk hresult => ?_,
    fun {k job' stats} hk hresult => ?_, ?_, ?_, ?_, .index _ hd.index⟩
  · have hresult : Function.update d.results i _ k = none := hresult
    rw [Function.update_apply] at hresult
    split at hresult
    · cases hresult
    rename_i hne
    intro e he
    rcases List.mem_cons.mp he with rfl | he
    · exact fun heq => hne (hd.apart hk hi heq.symm)
    · exact hd.due hk hresult e he
  · have hresult : Function.update d.results i (some _) k = _ := hresult
    rw [Function.update_apply] at hresult
    split at hresult
    · rename_i hki
      obtain ⟨p', hp', hpjob'⟩ := hk
      obtain rfl := Option.some.inj (hp.symm.trans (hki ▸ hp'))
      exact ⟨_, List.mem_cons_self, Option.some.inj (hpjob.symm.trans hpjob'),
        Option.some.inj hresult⟩
    · obtain ⟨e, he, hjobs⟩ := hd.result hk hresult
      exact ⟨e, List.mem_cons_of_mem _ he, hjobs⟩
  · intro e he
    rcases List.mem_cons.mp he with rfl | he
    · exact ⟨hd.held hi, hof, hrepo, hmode⟩
    · exact hd.executed e he
  · refine List.pairwise_cons.mpr ⟨fun e he => ⟨(hdue e he).symm, fun hsame => ?_⟩, hd.order⟩
    obtain ⟨a, ha⟩ := Option.isSome_iff_exists.mp (hd.executed e he).attempt
    refine ⟨a, b, ha, hb, ?_⟩
    have hrepos : d.fleet.coord.db.repositoryOf e.job.id =
        d.fleet.coord.db.repositoryOf job.id := by
      rw [(hd.executed e he).repository, hof, ← hsame]
    rcases (Coord.reachable_timeline hcoord).order ha hb (hdue e he) hrepos with hbefore | hafter
    · exact hbefore
    · obtain ⟨ended, hended, -⟩ := hafter
      rw [hopen] at hended
      cases hended
  · intro row withErrors hrow hclaimed hdone
    obtain ⟨⟨e, he, hby⟩, hends⟩ := hd.completed hrow hclaimed hdone
    exact ⟨⟨e, List.mem_cons_of_mem _ he, hby⟩, hends⟩

theorem reachable_ok (hd : (system cfg h).Reachable d) : d.Ok cfg h := by
  refine hd.induct (I := fun d => d.Ok cfg h) (fun _ => Ok.init) fun d₁ m d₂ _ hok hstep => ?_
  cases next_steps hstep with
  | fleet hfollows hnext => exact hok.fleetMove hfollows hnext
  | addRepository row => exact { hok with index := hok.index.addRepository row }
  | refuse text _ => exact hok.refuse _ text
  | index hjob hexecutes => exact hok.ran hjob hexecutes

/-- No other attempt of a job of the repository was claimed after the row was completed. -/
def LastOfRepository (s : Coord) (row : Job) : Prop :=
  ∀ a ∈ s.db.attempts.rows, s.db.repositoryOf a.jobId = some row.repositoryId →
    a.key ≠ row.lease → ∀ ended, row.completedAt = some ended → a.claimedAt < ended

/-- After the execution that completed the last job of a repository, no pass was over it. -/
theorem Ok.last (hd : d.Ok cfg h) {row : Job} {withErrors : Bool}
    (hrow : d.fleet.coord.db.jobs.get? row.id = some row) (hclaimed : 0 < row.leaseGeneration)
    (hdone : row.status = doneStatus withErrors) (hlast : LastOfRepository d.fleet.coord row)
    {newer older : List ExecutedPass} {e : ExecutedPass}
    (hsplit : d.executions = newer ++ e :: older) (hlease : e.job.lease = row.lease) :
    ∀ e' ∈ newer, e'.pass.repositoryId ≠ e.pass.repositoryId := by
  intro e' he' hsame
  obtain ⟨a, ended, ha, hended, hcompleted⟩ := (hd.completed hrow hclaimed hdone).2
  have hof := hd.executed e (by rw [hsplit]; simp)
  have hof' := hd.executed e' (by rw [hsplit]; exact List.mem_append_left _ he')
  have hrepo : e.job.repositoryId = row.repositoryId := by
    have hrepo := hof.repository
    rw [(Prod.mk.inj hlease).1, Ledger.repositoryOf, hrow] at hrepo
    exact (Option.some.inj hrepo).symm
  have hrepo' : e'.job.repositoryId = e.job.repositoryId := by
    rw [← hof'.pass, ← hof.pass, hsame]
  have horder := hd.order
  rw [hsplit, List.pairwise_append] at horder
  obtain ⟨hne, hprecedes⟩ := horder.2.2 e' he' e List.mem_cons_self
  obtain ⟨a', b, ha', hb, ended', hended', hle⟩ := hprecedes hrepo'
  obtain rfl : a = a' := Option.some.inj (ha.symm.trans (hlease ▸ ha'))
  obtain rfl : ended = ended' := Option.some.inj (hended.symm.trans hended')
  have hkey : b.key = e'.job.lease := Table.key_of_get? hb
  have hlate := hlast b (Table.mem_of_get? hb)
    (by rw [(Prod.mk.inj hkey).1, hof'.repository, hrepo', hrepo])
    (by rw [hkey, ← hlease]; exact hne) ended hcompleted
  exact absurd hle (not_le.mpr hlate)

/-- A job that was claimed and is completed was executed by a pass that returned, with errors
or without as the row says. If it is the last job of its repository and the pass met no error,
the index records the tree that the pass was over, whatever other repositories have been
indexed in the meantime. -/
theorem completed_jobs_indexed (hd : (system cfg h).Reachable d) {row : Job} {withErrors : Bool}
    (hrow : row ∈ d.fleet.coord.db.jobs.rows) (hclaimed : 0 < row.leaseGeneration)
    (hdone : row.status = doneStatus withErrors) :
    ∃ e ∈ d.executions, ∃ stats, e.job.lease = row.lease ∧
      e.pass.repositoryId.text = row.repositoryId ∧ e.pass.mode = executedMode e.job ∧
      e.outcome h = .ok stats ∧ withErrors = (stats.errorCount != 0) ∧
      ∀ co maxBytes, withErrors = false → LastOfRepository d.fleet.coord row →
        e.pass.tree = co.tree maxBytes →
        (∀ files, co.discoverFiles maxBytes = .ok files → files.Nodup) →
        ∃ scanned repository, co.scan h maxBytes = .ok scanned ∧
          d.world.db.repositories.get? e.pass.repositoryId = some repository ∧
          Records d.world.db repository co scanned := by
  have hok := reachable_ok hd
  have hrow := Table.get?_of_mem hrow
  obtain ⟨⟨e, he, hlease, stats, hout, herrors⟩, -⟩ := hok.completed hrow hclaimed hdone
  have hof := hok.executed e he
  refine ⟨e, he, stats, hlease, ?_, hof.mode, hout, herrors, ?_⟩
  · have hrepo := hof.repository
    rw [(Prod.mk.inj hlease).1, Ledger.repositoryOf, hrow] at hrepo
    rw [hof.pass]
    exact (Option.some.inj hrepo).symm
  intro co maxBytes hclean hlast htree hdistinct
  obtain ⟨newer, older, hsplit⟩ := List.append_of_mem he
  have hagrees := hok.index.agrees hsplit (hok.last hrow hclaimed hdone hlast hsplit hlease)
  have hpass : e.pass.run h e.before = (.ok stats, e.after h) := Prod.ext hout rfl
  have hzero : stats.errorCount = 0 := by simpa [hclean] using herrors.symm
  obtain ⟨scanned, repository, hscan, -, hget, hid, hrecords⟩ :=
    clean_pass_records htree hpass hzero hdistinct
  exact ⟨scanned, repository, hscan, hagrees.repository _ hget, hrecords.agrees (hid ▸ hagrees)⟩

/-- The deployment after a list of moves, if each of them is possible. -/
def exec (cfg : Settings) (h : Hashing) : Deployment → List Move → Option Deployment :=
  System.exec (next cfg h)

/-- No job and no process beside an index. -/
def empty (w : World) : Deployment := ⟨.empty 0, w, fun _ => none, []⟩

/-- A worker claims a job, indexes the one file of its repository and completes the job. -/
def oneExecution : List Move :=
  [.fleet (.client (.submitJob "job-1" sampleId.text "full" none 0)),
    .fleet (.start 0 "worker-1" "host" 1 "1"), .fleet (.process 0 (.register "session-1")),
    .fleet (.process 0 .heartbeat), .fleet (.process 0 (.claim fun _ => false)),
    .index 0 (samplePass .full "UNCOMMITTED" [fileAB] []),
    .fleet (.process 0 (.complete false))]

theorem completed_jobs_indexed_one :
    ∃ d, (system .default indexHashing).Run (empty sampleWorld) oneExecution d ∧
      ∃ row ∈ d.fleet.coord.db.jobs.rows, row.status = .completed ∧
        ∃ scanned repository, checkoutAB.scan indexHashing 1000 = .ok scanned ∧
          d.world.db.repositories.get? sampleId = some repository ∧
          Records d.world.db repository checkoutAB scanned := by
  have hjobs : ((empty sampleWorld).exec .default indexHashing oneExecution).map (fun d =>
      (d.fleet.coord.db.jobs.rows.map fun row => (row.lease, row.status),
        d.fleet.coord.db.attempts.rows.map Attempt.key)) =
      some ([(("job-1", 1), .completed)], [("job-1", 1)]) := by decide +kernel
  have hpasses : ((empty sampleWorld).exec .default indexHashing oneExecution).map (fun d =>
      d.executions.map (·.pass)) = some [samplePass .full "UNCOMMITTED" [fileAB] []] := rfl
  obtain ⟨d, hd, hfacts⟩ := Option.map_eq_some_iff.mp hjobs
  rw [hd] at hpasses
  have hpasses : d.executions.map (·.pass) = [samplePass .full "UNCOMMITTED" [fileAB] []] :=
    Option.some.inj hpasses
  obtain ⟨hrows, hattempts⟩ : _ ∧ _ := by simpa only [Prod.mk.injEq] using hfacts
  have hrun := System.run_exec (M := system .default indexHashing) (fun hnext => hnext) hd
  have hreach : (system .default indexHashing).Reachable d :=
    ⟨_, _, ⟨⟨⟨rfl, rfl⟩, fun _ => rfl⟩, ⟨rfl, rfl, rfl, rfl, rfl⟩, rfl⟩, hrun⟩
  obtain ⟨row, hrow, hpair⟩ := List.mem_map.mp (hrows ▸ List.mem_singleton_self _)
  obtain ⟨hlease, hstatus⟩ := Prod.mk.inj hpair
  have hgen : row.leaseGeneration = 1 := (Prod.mk.inj hlease).2
  have hdiscover : checkoutAB.discoverFiles 1000 = .ok [fileAB] := by decide +kernel
  have htree : (samplePass .full "UNCOMMITTED" [fileAB] []).tree = checkoutAB.tree 1000 := by
    show sampleTree "UNCOMMITTED" [fileAB] = checkoutAB.tree 1000
    rw [Checkout.tree, hdiscover]
    rfl
  obtain ⟨e, he, stats, -, -, -, -, -, hindexed⟩ :=
    completed_jobs_indexed hreach hrow (by omega) (show row.status = doneStatus false from hstatus)
  have hpass : e.pass = samplePass .full "UNCOMMITTED" [fileAB] [] :=
    List.mem_singleton.mp (hpasses ▸ List.mem_map_of_mem he)
  obtain ⟨scanned, repository, hscan, hget, hrecords⟩ :=
    hindexed checkoutAB 1000 rfl
      (fun a ha _ hne => by
        have hkey : a.key = ("job-1", 1) :=
          List.mem_singleton.mp (hattempts ▸ List.mem_map_of_mem ha)
        exact absurd (hkey.trans hlease.symm) hne)
      (by rw [hpass, htree])
      (fun files hfiles => by
        obtain rfl := Except.ok.inj (hdiscover.symm.trans hfiles)
        exact List.nodup_singleton _)
  rw [hpass] at hget
  exact ⟨d, hrun, row, hrow, hstatus, scanned, repository, hscan, hget, hrecords⟩

end Deployment

end RepoMesh
