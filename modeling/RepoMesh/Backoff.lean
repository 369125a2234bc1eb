import RepoMesh.AttemptRows
import RepoMesh.LeaseEnd
import Mathlib.Data.List.Chain

/-!
# How attempts follow one another

Two consecutive attempts of a job are separated by a scheduled retry or by a takeover.
After a retry the next attempt waits out the backoff, which the row of the waiting job
carries as its `available_at`; a takeover waits for the end of the lease, which the row
of the running job and its attempt row both carry. `JobRows.Spaced` ties the job row to the
attempt rows, so that the distance can be read off `job_attempts` at any later time.

The statements of a transaction read the clock anew: `_finish` checks the lease at one reading,
counts `available_at` from the next and closes the attempt at a later one. So the rows of one
job are followed under a clock that goes on between these readings (`JobRows.Turn`), and the
store, where a transaction has one reading, makes such turns (`Coord.reachable_clocked`).

The draw of `random.uniform(0, base)` is an argument of `schedule_retry`: the runs here
are those in which it lies in its range (`Action.Drawn`).
-/

namespace RepoMesh

/-- The jitter of a retry is a draw of `random.uniform(0, base)`. -/
def Action.Drawn (cfg : Settings) : Action → Prop
  | .scheduleRetry _ _ jitter => 0 ≤ jitter ∧ jitter ≤ cfg.jobRetryBaseSeconds
  | _ => True

/-- A retry that is counted from `start` is due in the window of its backoff. -/
def InWindow (cfg : Settings) (attempt : Nat) (start available : Time) : Prop :=
  start + retryDelay cfg attempt 0 ≤ available ∧
    available ≤ start + retryDelay cfg attempt cfg.jobRetryBaseSeconds

section

variable {cfg : Settings}

theorem retryDelay_mono {attempt : Nat} {jitter jitter' : Time} (h : jitter ≤ jitter') :
    retryDelay cfg attempt jitter ≤ retryDelay cfg attempt jitter' :=
  min_le_min (add_le_add_right h _) (le_refl _)

/-- The retry schedule is bounded from both sides. -/
theorem retryDelay_bounds (cfg : Settings) (attempt : Nat) {jitter : Time} (h : 0 ≤ jitter) :
    0 < retryDelay cfg attempt jitter ∧ retryDelay cfg attempt jitter ≤ cfg.jobRetryMaxSeconds := by
  refine ⟨lt_min ?_ cfg.retryMax_pos, min_le_right _ _⟩
  have hpow : 0 < cfg.jobRetryBaseSeconds * 2 ^ min (attempt - 1) 20 :=
    Int.mul_pos cfg.retryBase_pos (Int.pow_pos (by decide))
  exact lt_of_lt_of_le hpow (le_add_of_nonneg_right h)

end

/-! ## The rows of one job under a clock -/

/-- The row of a job and those of its attempts, by their lease generations. -/
@[ext]
structure JobRows where
  row : Option Job
  attempts : ℕ → Option Attempt

def JobRows.absent : JobRows := ⟨none, fun _ => none⟩

/-- `UPDATE job_attempts SET .. WHERE job_id=.. AND lease_generation=g`. -/
def JobRows.write (r : JobRows) (g : ℕ) (f : Attempt → Attempt) : ℕ → Option Attempt := fun g' =>
  (r.attempts g').map fun a => if g' = g then f a else a

/-- What a claim makes of the attempt before it. -/
def expiredAttempt (now : Time) (row : Job) (a : Attempt) : Attempt :=
  if row.status = .running ∧ a.endedAt = none then
    { a with endedAt := some now, outcome := some .expired }
  else a

/-- The readings of the clock are in order. -/
def InOrder (readings : List Time) : Prop := readings.IsChain (· ≤ ·)

/-- A transaction on the job that begins at `b` and is committed at `e`. The readings are those
of its statements on these rows, in the order of the statements. -/
inductive JobRows.Turn (cfg : Settings) (b e : Time) : JobRows → JobRows → Prop where
  | insert {r : JobRows} {row : Job} : row.Fresh → r.row = none →
      Turn cfg b e r { r with row := some row }
  | cancel {r : JobRows} {row : Job} {t : Time} : InOrder [b, t, e] → r.row = some row →
      row.status.terminal = false → Turn cfg b e r { r with row := some (cancelRow t row) }
  /-- an UPDATE checks the lease in its WHERE and then reads the clock for what it sets -/
  | progress {r : JobRows} {row : Job} {t₁ t₂ : Time} (stats : IndexStats) :
      InOrder [b, t₁, t₂, e] → r.row = some row → Live t₁ row →
      Turn cfg b e r { r with row := some (progressRow t₂ stats row) }
  | renew {r : JobRows} {row : Job} {t₁ t₂ : Time} : InOrder [b, t₁, t₂, e] →
      r.row = some row → Live t₁ row →
      Turn cfg b e r
        { row := some (renewedRow cfg t₂ row)
          attempts := r.write row.leaseGeneration (renewedAttempt cfg t₂) }
  /-- the cleanup branch of `claim_job`: SELECT, the two UPDATEs of an expired attempt, and
  between them that of the job -/
  | exhaust {r : JobRows} {row : Job} {t₁ t₂ t₃ : Time} : InOrder [b, t₁, t₂, t₃, e] →
      r.row = some row → Runnable t₁ row → exhausted row = true →
      Turn cfg b e r
        { row := some (exhaustedRow t₃ row)
          attempts := if row.status = .running then
            r.write row.leaseGeneration (exhaustedAttempt t₂ row) else r.attempts }
  /-- the claim branch: SELECT, the UPDATE of an expired attempt, that of the job, and the
  INSERT, whose `claimed_at` is a reading of its own -/
  | claim {r : JobRows} {row : Job} {t₁ t₂ t₃ t₄ : Time} (workerId : String) :
      InOrder [b, t₁, t₂, t₃, t₄, e] → r.row = some row → Runnable t₁ row →
      exhausted row = false →
      Turn cfg b e r
        { row := some (claimedRow cfg t₃ workerId row)
          attempts := Function.update (r.write row.leaseGeneration (expiredAttempt t₂ row))
            (row.leaseGeneration + 1)
            (some { claimAttempt cfg t₃ workerId row with claimedAt := t₄ }) }
  /-- `_finish`: the WHERE of the UPDATE of the job and what it sets, and the UPDATE of the
  attempt -/
  | finish {r : JobRows} {row : Job} {t₁ t₂ t₃ : Time} (status : JobStatus)
      (error : Option String) (delay : Time) : InOrder [b, t₁, t₂, t₃, e] → r.row = some row →
      Live t₁ row → Finishing row status →
      (finishStatus status row = .retrying → retryDelay cfg row.attempt 0 ≤ delay ∧
        delay ≤ retryDelay cfg row.attempt cfg.jobRetryBaseSeconds) →
      Turn cfg b e r
        { row := some (finishRow t₂ status error delay row)
          attempts := r.write row.leaseGeneration (finishedAttempt t₃ status error row) }

/-- The rows of a job, and the time of the last commit on them. -/
structure Clocked where
  now : Time
  rows : JobRows

/-- The job, and the transactions on it one after the other. -/
def clocked (cfg : Settings) : System Clocked Unit where
  init s := s.rows = .absent
  step s _ t := s.now ≤ t.now ∧ (t.rows = s.rows ∨ s.rows.Turn cfg s.now t.now t.rows)

/-! ## Distances -/

/-- How the attempt `b` came after `a`: the backoff is counted from a moment within `a`. -/
inductive Attempt.Succeeds (cfg : Settings) (a b : Attempt) : Prop where
  | retried {start ended : Time} : a.outcome = some (.status .retrying) →
      a.endedAt = some ended → a.claimedAt ≤ start → start ≤ ended →
      start + retryDelay cfg a.attempt 0 ≤ b.claimedAt → ended ≤ b.claimedAt →
      b.reclaimed = false → Succeeds cfg a b
  | reclaimed {ended : Time} : a.outcome = some .expired → a.endedAt = some ended →
      a.leaseExpiresAt ≤ ended → ended ≤ b.claimedAt → b.reclaimed = true → Succeeds cfg a b

/-- `a` is the attempt that a waiting job has behind it. -/
structure Job.WaitsAfter (cfg : Settings) (row : Job) (a : Attempt) (start ended : Time) :
    Prop where
  outcome : a.outcome = some (.status .retrying)
  attempt : a.attempt = row.attempt
  endedAt : a.endedAt = some ended
  claimed_le : a.claimedAt ≤ start
  start_le : start ≤ ended
  window : InWindow cfg row.attempt start row.availableAt

/-- What the rows of a job and of its attempts say of each other. -/
structure JobRows.Spaced (cfg : Settings) (now : Time) (r : JobRows) : Prop where
  attempts : ∀ {g a}, r.attempts g = some a →
    1 ≤ g ∧ ∃ row, r.row = some row ∧ g ≤ row.leaseGeneration
  queued : ∀ {row}, r.row = some row → row.status = .queued → row.leaseGeneration = 0
  running : ∀ {row}, r.row = some row → row.status = .running →
    ∃ a, r.attempts row.leaseGeneration = some a ∧ a.endedAt = none ∧
      row.leaseExpiresAt = some a.leaseExpiresAt ∧ a.attempt = row.attempt ∧ a.claimedAt ≤ now
  retrying : ∀ {row}, r.row = some row → row.status = .retrying →
    ∃ a start ended, r.attempts row.leaseGeneration = some a ∧
      row.WaitsAfter cfg a start ended ∧ ended ≤ now
  next : ∀ {g a b}, r.attempts g = some a → r.attempts (g + 1) = some b →
    b.attempt = a.attempt + 1 ∧ a.Succeeds cfg b

section

variable {cfg : Settings} {now b e : Time} {r r' : JobRows} {row : Job}

theorem Attempt.Succeeds.congr {a b b' : Attempt} (h : a.Succeeds cfg b) (hb : b.Kept b') :
    a.Succeeds cfg b' := by
  cases h with
  | retried ho he hstart hle hdue hnext hr =>
      exact .retried ho he hstart hle (hb.claimedAt ▸ hdue) (hb.claimedAt ▸ hnext)
        (hb.reclaimed.trans hr)
  | reclaimed ho he hlease hnext hr =>
      exact .reclaimed ho he hlease (hb.claimedAt ▸ hnext) (hb.reclaimed.trans hr)

theorem renewedAttempt_kept (now : Time) (a : Attempt) : a.Kept (renewedAttempt cfg now a) :=
  ⟨rfl, rfl, rfl, rfl, rfl, rfl⟩

theorem exhaustedAttempt_kept (now : Time) (row : Job) (a : Attempt) :
    a.Kept (exhaustedAttempt now row a) := ⟨rfl, rfl, rfl, rfl, rfl, rfl⟩

theorem finishedAttempt_kept (now : Time) (status : JobStatus) (error : Option String)
    (row : Job) (a : Attempt) : a.Kept (finishedAttempt now status error row a) :=
  ⟨rfl, rfl, rfl, rfl, rfl, rfl⟩

theorem expiredAttempt_kept (now : Time) (row : Job) (a : Attempt) :
    a.Kept (expiredAttempt now row a) := by
  unfold expiredAttempt
  split
  · exact ⟨rfl, rfl, rfl, rfl, rfl, rfl⟩
  · exact .refl a

theorem finishStatus_ne_queued {status : JobStatus} (h : Finishing row status) :
    finishStatus status row ≠ .queued := by
  intro hq
  unfold finishStatus at hq
  split at hq
  · cases hq
  · rcases h with hterm | ⟨rfl, -⟩
    · rw [hq] at hterm
      cases hterm
    · cases hq

namespace JobRows

@[simp] theorem write_self (r : JobRows) (g : ℕ) (f : Attempt → Attempt) :
    r.write g f g = (r.attempts g).map f := by
  simp [write]

theorem write_of_ne (r : JobRows) (f : Attempt → Attempt) {g g' : ℕ} (h : g' ≠ g) :
    r.write g f g' = r.attempts g' := by
  simp [write, h]

theorem Spaced.absent (cfg : Settings) (now : Time) : JobRows.absent.Spaced cfg now where
  attempts := fun h => (by cases h)
  queued := fun h => (by cases h)
  running := fun h => (by cases h)
  retrying := fun h => (by cases h)
  next := fun h => (by cases h)

/-- There is no attempt above the generation of the job. -/
theorem Spaced.attempts_above (hs : r.Spaced cfg now) (hrow : r.row = some row) {g : ℕ}
    (hg : row.leaseGeneration < g) : r.attempts g = none := by
  cases ha : r.attempts g with
  | none => rfl
  | some a =>
      obtain ⟨-, row', hrow', hle⟩ := hs.attempts ha
      obtain rfl := Option.some.inj (hrow.symm.trans hrow')
      omega

/-- What is written to the last attempt is no matter for the distances. -/
theorem Spaced.next_write (hs : r.Spaced cfg now) (hrow : r.row = some row)
    {f : Attempt → Attempt} (hkept : ∀ a : Attempt, a.Kept (f a)) {g : ℕ} {a b : Attempt}
    (ha : r.write row.leaseGeneration f g = some a)
    (hb : r.write row.leaseGeneration f (g + 1) = some b) :
    b.attempt = a.attempt + 1 ∧ a.Succeeds cfg b := by
  have hlast : g ≠ row.leaseGeneration := by
    rintro rfl
    rw [write_of_ne r f (by omega), hs.attempts_above hrow (by omega)] at hb
    cases hb
  rw [write_of_ne r f hlast] at ha
  obtain ⟨b₀, hb₀, rfl⟩ := Option.map_eq_some_iff.mp hb
  obtain ⟨hattempt, hsucc⟩ := hs.next ha hb₀
  split
  · exact ⟨(hkept b₀).attempt.trans hattempt, hsucc.congr (hkept b₀)⟩
  · exact ⟨hattempt, hsucc⟩

theorem Spaced.attempts_write (hs : r.Spaced cfg now) (hrow : r.row = some row)
    {f : Attempt → Attempt} {g g' : ℕ} {a : Attempt} (ha : r.write g f g' = some a) :
    1 ≤ g' ∧ g' ≤ row.leaseGeneration := by
  obtain ⟨a₀, ha₀, -⟩ := Option.map_eq_some_iff.mp ha
  obtain ⟨hpos, row', hrow', hle⟩ := hs.attempts ha₀
  obtain rfl := Option.some.inj (hrow.symm.trans hrow')
  exact ⟨hpos, hle⟩

/-- The attempt that a claim inserts, after the one before it. -/
theorem Spaced.claimed (hs : r.Spaced cfg now) (hrow : r.row = some row) {t₁ t₂ t₃ t₄ : Time}
    (horder : InOrder [now, t₁, t₂, t₃, t₄]) (hrunnable : Runnable t₁ row) (workerId : String)
    {a : Attempt} (ha : r.write row.leaseGeneration (expiredAttempt t₂ row) row.leaseGeneration =
      some a) :
    row.attempt + 1 = a.attempt + 1 ∧
      a.Succeeds cfg { claimAttempt cfg t₃ workerId row with claimedAt := t₄ } := by
  simp only [InOrder, List.isChain_cons_cons, List.IsChain.singleton, and_true] at horder
  rw [write_self] at ha
  obtain ⟨a₀, ha₀, rfl⟩ := Option.map_eq_some_iff.mp ha
  rcases hrunnable with ⟨hw, hdue⟩ | ⟨hrun, lease, hlease, hexp⟩
  · have hnot : row.status ≠ .running := JobStatus.ne_running_of_waiting hw
    rw [expiredAttempt, if_neg fun hc => hnot hc.1]
    have hretry : row.status = .retrying := by
      cases hst : row.status with
      | retrying => rfl
      | queued =>
          have hpos := (hs.attempts ha₀).1
          have hzero := hs.queued hrow hst
          omega
      | _ =>
          rw [hst] at hw
          cases hw
    obtain ⟨b, start, ended, hb, hwaits, hle⟩ := hs.retrying hrow hretry
    obtain rfl := Option.some.inj (ha₀.symm.trans hb)
    refine ⟨by rw [hwaits.attempt], .retried hwaits.outcome hwaits.endedAt hwaits.claimed_le
      hwaits.start_le ?_ ?_ ?_⟩
    · have hwindow := hwaits.window.1
      rw [hwaits.attempt]
      show start + retryDelay cfg row.attempt 0 ≤ t₄
      grind
    · show ended ≤ t₄
      grind
    · simp [claimAttempt, hnot]
  · obtain ⟨b, hb, hopen, hcarried, hattempt, -⟩ := hs.running hrow hrun
    obtain rfl := Option.some.inj (ha₀.symm.trans hb)
    obtain rfl := Option.some.inj (hlease.symm.trans hcarried)
    rw [expiredAttempt, if_pos ⟨hrun, hopen⟩]
    refine ⟨by rw [hattempt], .reclaimed rfl rfl ?_ ?_ ?_⟩
    · show a₀.leaseExpiresAt ≤ t₂
      grind
    · show t₂ ≤ t₄
      grind
    · simp [claimAttempt, hrun]

/-- A row that neither waits nor runs says nothing of the attempts. -/
theorem Spaced.of_terminal {now' : Time} {f : ℕ → Option Attempt}
    (hterm : row.status.terminal = true)
    (hattempts : ∀ {g a}, f g = some a → 1 ≤ g ∧ g ≤ row.leaseGeneration)
    (hnext : ∀ {g a b}, f g = some a → f (g + 1) = some b →
      b.attempt = a.attempt + 1 ∧ a.Succeeds cfg b) :
    (JobRows.mk (some row) f).Spaced cfg now' := by
  have hnot : ∀ {row' : Job}, some row = some row' → row'.status.terminal = true :=
    fun h => Option.some.inj h ▸ hterm
  refine ⟨fun ha => ⟨(hattempts ha).1, row, rfl, (hattempts ha).2⟩, ?_, ?_, ?_, hnext⟩
  · intro row' hrow' hq
    have hterm' := hnot hrow'
    rw [hq] at hterm'
    cases hterm'
  · intro row' hrow' hrun
    exact absurd hrun (JobStatus.ne_running_of_terminal (hnot hrow'))
  · intro row' hrow' hretry
    have hterm' := hnot hrow'
    rw [hretry] at hterm'
    cases hterm'

/-- A row of the same generation, beside the same attempts. -/
theorem Spaced.of_row (hs : r.Spaced cfg now) (hrow : r.row = some row) (hle : now ≤ e)
    {row' : Job} (hgen : row'.leaseGeneration = row.leaseGeneration)
    (hqueued : row'.status = .queued → row.status = .queued)
    (hrunning : row'.status = .running → row.status = .running ∧
      row'.leaseExpiresAt = row.leaseExpiresAt ∧ row'.attempt = row.attempt)
    (hretrying : row'.status ≠ .retrying) :
    ({ r with row := some row' } : JobRows).Spaced cfg e where
  attempts := by
    intro g a ha
    obtain ⟨hpos, row₀, hrow₀, hg⟩ := hs.attempts ha
    obtain rfl := Option.some.inj (hrow.symm.trans hrow₀)
    exact ⟨hpos, row', rfl, hgen.symm ▸ hg⟩
  queued := by
    rintro _ ⟨rfl⟩ hq
    rw [hgen]
    exact hs.queued hrow (hqueued hq)
  running := by
    rintro _ ⟨rfl⟩ hrun
    obtain ⟨hbefore, hlease, hattempt⟩ := hrunning hrun
    obtain ⟨a, ha, hopen, hcarried, hsame, hclaimed⟩ := hs.running hrow hbefore
    exact ⟨a, hgen.symm ▸ ha, hopen, hlease.trans hcarried, hsame.trans hattempt.symm,
      le_trans hclaimed hle⟩
  retrying := by
    rintro _ ⟨rfl⟩ hretry
    exact absurd hretry hretrying
  next := hs.next

/-- The step lemma. -/
theorem Turn.spaced (h : r.Turn cfg b e r') (hs : r.Spaced cfg b) : r'.Spaced cfg e := by
  cases h with
  | @insert row hfresh hnone =>
      have hno : ∀ {g a}, r.attempts g = some a → False := by
        intro g a ha
        obtain ⟨-, row, hrow, -⟩ := hs.attempts ha
        rw [hnone] at hrow
        cases hrow
      refine ⟨fun ha => (hno ha).elim, ?_, ?_, ?_, fun ha => (hno ha).elim⟩
      · rintro _ ⟨rfl⟩ -
        exact hfresh.generation
      · rintro _ ⟨rfl⟩ hrun
        exact absurd hrun hfresh.not_running
      · rintro _ ⟨rfl⟩ hretry
        exact absurd hretry hfresh.not_retrying
  | @cancel row t horder hrow hterm =>
      simp only [InOrder, List.isChain_cons_cons, List.IsChain.singleton, and_true] at horder
      refine hs.of_row hrow (le_trans horder.1 horder.2) rfl ?_ ?_ ?_
      · intro hq
        by_cases hw : row.status.waiting = true
        · simp [cancelRow, hw] at hq
        · simpa [cancelRow, hw] using hq
      · exact fun hrun => ⟨(cancelRow_running t row).mp hrun, rfl, rfl⟩
      · rcases JobStatus.waiting_or_running_of_not_terminal hterm with hw | hrun
        · simp [cancelRow, hw]
        · simp [cancelRow, hrun, JobStatus.waiting]
  | @progress row t₁ t₂ stats horder hrow hlive =>
      simp only [InOrder, List.isChain_cons_cons, List.IsChain.singleton, and_true] at horder
      have hle : b ≤ e := le_trans horder.1 (le_trans horder.2.1 horder.2.2)
      refine hs.of_row hrow hle rfl id (fun hrun => ⟨hrun, rfl, rfl⟩) ?_
      show row.status ≠ .retrying
      rw [hlive.1]
      exact fun h => (by cases h)
  | @renew row t₁ t₂ horder hrow hlive =>
      simp only [InOrder, List.isChain_cons_cons, List.IsChain.singleton, and_true] at horder
      have hle : b ≤ e := le_trans horder.1 (le_trans horder.2.1 horder.2.2)
      obtain ⟨a, ha, hopen, -, hattempt, hclaimed⟩ := hs.running hrow hlive.1
      have hrunning : (renewedRow cfg t₂ row).status = .running := hlive.1
      refine ⟨fun ha' => ?_, ?_, ?_, ?_, fun ha' hb' => hs.next_write hrow
        (renewedAttempt_kept t₂) ha' hb'⟩
      · obtain ⟨hpos, hg⟩ := hs.attempts_write hrow ha'
        exact ⟨hpos, _, rfl, hg⟩
      · rintro _ ⟨rfl⟩ hq
        cases hrunning.symm.trans hq
      · rintro _ ⟨rfl⟩ -
        refine ⟨renewedAttempt cfg t₂ a, ?_, hopen, rfl, hattempt, le_trans hclaimed hle⟩
        show r.write row.leaseGeneration _ row.leaseGeneration = _
        rw [write_self, ha, Option.map_some]
      · rintro _ ⟨rfl⟩ hretry
        cases hrunning.symm.trans hretry
  | @exhaust row t₁ t₂ t₃ _ hrow _ hex =>
      refine .of_terminal (exhaustedStatus_terminal row) ?_ ?_
      · intro g a ha
        split at ha
        · exact hs.attempts_write hrow ha
        · obtain ⟨hpos, row', hrow', hg⟩ := hs.attempts ha
          obtain rfl := Option.some.inj (hrow.symm.trans hrow')
          exact ⟨hpos, hg⟩
      · intro g a b ha hb
        split at ha
        · rename_i hrun
          rw [if_pos hrun] at hb
          exact hs.next_write hrow (exhaustedAttempt_kept t₂ row) ha hb
        · rename_i hrun
          rw [if_neg hrun] at hb
          exact hs.next ha hb
  | @claim row t₁ t₂ t₃ t₄ workerId horder hrow hrunnable _ =>
      have hbefore : InOrder [b, t₁, t₂, t₃, t₄] := by
        simp only [InOrder, List.isChain_cons_cons, List.IsChain.singleton, and_true] at horder ⊢
        exact ⟨horder.1, horder.2.1, horder.2.2.1, horder.2.2.2.1⟩
      refine ⟨?_, ?_, ?_, ?_, ?_⟩
      · intro g a ha
        dsimp only at ha
        by_cases hg : g = row.leaseGeneration + 1
        · exact ⟨by omega, _, rfl, le_of_eq hg⟩
        · rw [Function.update_of_ne hg] at ha
          obtain ⟨hpos, hle⟩ := hs.attempts_write hrow ha
          exact ⟨hpos, _, rfl, Nat.le_succ_of_le hle⟩
      · rintro _ ⟨rfl⟩ hq
        cases hq
      · rintro _ ⟨rfl⟩ -
        refine ⟨_, Function.update_self .., rfl, rfl, rfl, ?_⟩
        simp only [InOrder, List.isChain_cons_cons, List.IsChain.singleton, and_true] at horder
        exact horder.2.2.2.2
      · rintro _ ⟨rfl⟩ hretry
        cases hretry
      · intro g a b' ha hb
        dsimp only at ha hb
        by_cases hg : g = row.leaseGeneration
        · subst hg
          rw [Function.update_of_ne (by omega)] at ha
          rw [Function.update_self] at hb
          obtain rfl := Option.some.inj hb
          exact hs.claimed hrow hbefore hrunnable workerId ha
        · rw [Function.update_of_ne (by omega)] at hb
          have hlow := (hs.attempts_write hrow hb).2
          rw [Function.update_of_ne (by omega)] at ha
          exact hs.next_write hrow (expiredAttempt_kept t₂ row) ha hb
  | @finish row t₁ t₂ t₃ status error delay horder hrow hlive hstatus hdelay =>
      simp only [InOrder, List.isChain_cons_cons, List.IsChain.singleton, and_true] at horder
      refine ⟨fun ha => ?_, ?_, ?_, ?_, fun ha hb => hs.next_write hrow
        (finishedAttempt_kept t₃ status error row) ha hb⟩
      · obtain ⟨hpos, hg⟩ := hs.attempts_write hrow ha
        exact ⟨hpos, _, rfl, hg⟩
      · rintro _ ⟨rfl⟩ hq
        exact absurd hq (finishStatus_ne_queued hstatus)
      · rintro _ ⟨rfl⟩ hrun
        exact absurd hrun (finishStatus_ne_running hstatus)
      · rintro _ ⟨rfl⟩ hretry
        obtain ⟨a, ha, -, -, hattempt, hclaimed⟩ := hs.running hrow hlive.1
        obtain ⟨hmin, hmax⟩ := hdelay hretry
        refine ⟨finishedAttempt t₃ status error row a, t₂, t₃, ?_, ⟨?_, hattempt, rfl,
          le_trans hclaimed (le_trans horder.1 horder.2.1), horder.2.2.1, ?_⟩, horder.2.2.2⟩
        · show r.write row.leaseGeneration _ row.leaseGeneration = _
          rw [write_self, ha, Option.map_some]
        · exact congrArg (fun s => some (Outcome.status s)) hretry
        · exact ⟨add_le_add_right hmin t₂, add_le_add_right hmax t₂⟩

/-- With time nothing changes. -/
theorem Spaced.later (hs : r.Spaced cfg now) (hle : now ≤ e) : r.Spaced cfg e := by
  refine ⟨hs.attempts, hs.queued, fun hrow hrun => ?_, fun hrow hretry => ?_, hs.next⟩
  · obtain ⟨a, ha, hopen, hlease, hattempt, hclaimed⟩ := hs.running hrow hrun
    exact ⟨a, ha, hopen, hlease, hattempt, le_trans hclaimed hle⟩
  · obtain ⟨a, start, ended, ha, hwaits, hended⟩ := hs.retrying hrow hretry
    exact ⟨a, start, ended, ha, hwaits, le_trans hended hle⟩

end JobRows

theorem reachable_spaced {s : Clocked} (h : (clocked cfg).Reachable s) :
    s.rows.Spaced cfg s.now := by
  refine h.induct (I := fun s => s.rows.Spaced cfg s.now) ?_ ?_
  · intro s hinit
    rw [show s.rows = .absent from hinit]
    exact .absent cfg s.now
  · rintro s - t - hs ⟨hle, hsame | hturn⟩
    · rw [hsame]
      exact hs.later hle
    · exact hturn.spaced hs

/-- Consecutive attempts of a job are a backoff or a lease apart, and a job that waits for a
retry is due in the window of its backoff. -/
theorem attempts_follow_backoff {s : Clocked} (h : (clocked cfg).Reachable s) :
    (∀ g a b, s.rows.attempts g = some a → s.rows.attempts (g + 1) = some b →
      b.attempt = a.attempt + 1 ∧ a.Succeeds cfg b) ∧
    ∀ row, s.rows.row = some row → row.status = .retrying →
      ∃ a start ended, s.rows.attempts row.leaseGeneration = some a ∧
        row.WaitsAfter cfg a start ended ∧ ended ≤ s.now := by
  have hs := reachable_spaced h
  exact ⟨fun g a b ha hb => hs.next ha hb, fun row hrow hretry => hs.retrying hrow hretry⟩

end

/-- A job is claimed at 2 and fails at 10, which is written to its attempt at 12. Its backoff is
counted from 10, so that it can be claimed again less than a second after 12. -/
theorem attempts_follow_backoff_retried :
    ∃ s : Clocked, (clocked .default).Reachable s ∧
      (s.rows.attempts 1).bind (·.endedAt) = some 12 ∧
      (s.rows.attempts 2).map (·.claimedAt) = some 1000011 ∧
      ∀ a b, s.rows.attempts 1 = some a → s.rows.attempts 2 = some b →
        b.attempt = a.attempt + 1 ∧ a.Succeeds .default b := by
  let row := submittedRow .default 0 "job-1" "repo" .full none 0
  have hsubmitted : (clocked .default).Reachable ⟨0, { JobRows.absent with row := some row }⟩ :=
    (System.Reachable.init rfl).step (s := ⟨0, .absent⟩) (a := ())
      ⟨le_refl _, Or.inr (.insert (submittedRow_fresh ..) rfl)⟩
  have hclaimed := hsubmitted.step (t := ⟨3, _⟩) (a := ()) ⟨by decide, Or.inr
    (@JobRows.Turn.claim _ _ _ _ _ 0 1 1 2 "worker-1" (by simp [InOrder]) rfl
      (Or.inl ⟨rfl, by decide⟩) rfl)⟩
  have hfinished := hclaimed.step (t := ⟨13, _⟩) (a := ()) ⟨by decide, Or.inr
    (@JobRows.Turn.finish _ _ _ _ _ 9 10 12 .retrying (some "failed") 1000000
      (by simp [InOrder]) rfl ⟨rfl, _, rfl, by decide⟩ (Or.inr ⟨rfl, by decide⟩)
      fun _ => ⟨by decide, by decide⟩)⟩
  have hagain := hfinished.step (t := ⟨1000012, _⟩) (a := ()) ⟨by decide, Or.inr
    (@JobRows.Turn.claim _ _ _ _ _ 1000010 1000010 1000010 1000011 "worker-1"
      (by simp [InOrder]) rfl (Or.inl ⟨rfl, by decide⟩) rfl)⟩
  exact ⟨_, hagain, rfl, rfl, fun a b ha hb => (attempts_follow_backoff hagain).1 1 a b ha hb⟩

/-! ## The store -/

section

variable {R : Rights} {cfg : Settings} {now : Time} {l l' : Ledger} {row row' : Job} {id : String}

def Ledger.rowsOf (l : Ledger) (id : String) : JobRows :=
  ⟨l.jobs.get? id, fun g => l.attempts.get? (id, g)⟩

/-- The effect's retries are due in the window of their backoff. -/
def DueInWindow (cfg : Settings) (now : Time) (l l' : Ledger) : Prop :=
  ∀ {id row row'}, l.jobs.get? id = some row → row.status = .running →
    l'.jobs.get? id = some row' → row'.status = .retrying →
    InWindow cfg row.attempt now row'.availableAt

/-- With one reading for all statements, an effect is a turn of each job that it touches. -/
theorem Touch.turn (h : Touch cfg now l l' id) (hdue : DueInWindow cfg now l l') :
    l'.rowsOf id = l.rowsOf id ∨ (l.rowsOf id).Turn cfg now now (l'.rowsOf id) := by
  have horder : ∀ n : ℕ, InOrder (List.replicate n now) := fun n =>
    List.isChain_replicate_of_rel n (le_refl now)
  cases h with
  | still hjobs hatt => exact Or.inl (JobRows.ext hjobs (funext hatt))
  | @born row hfresh hnone hjobs hatt =>
      have hrows : l'.rowsOf id = { l.rowsOf id with row := some row } :=
        JobRows.ext hjobs (funext hatt)
      rw [hrows]
      exact Or.inr (.insert hfresh hnone)
  | @cancel row hrow hterm hjobs hatt =>
      have hrows : l'.rowsOf id = { l.rowsOf id with row := some (cancelRow now row) } :=
        JobRows.ext hjobs (funext hatt)
      rw [hrows]
      exact Or.inr (.cancel (horder 3) hrow hterm)
  | @progress row stats hrow hlive hjobs hatt =>
      have hrows : l'.rowsOf id = { l.rowsOf id with row := some (progressRow now stats row) } :=
        JobRows.ext hjobs (funext hatt)
      rw [hrows]
      exact Or.inr (.progress stats (horder 4) hrow hlive)
  | @renew row hrow hlive hjobs hatt =>
      have hrows : l'.rowsOf id = ⟨some (renewedRow cfg now row),
          (l.rowsOf id).write row.leaseGeneration (renewedAttempt cfg now)⟩ :=
        JobRows.ext hjobs (funext hatt)
      rw [hrows]
      exact Or.inr (.renew (horder 4) hrow hlive)
  | @exhaust row hrow hexp hex hjobs hatt =>
      have hrows : l'.rowsOf id = ⟨some (exhaustedRow now row), if row.status = .running then
          (l.rowsOf id).write row.leaseGeneration (exhaustedAttempt now row)
          else (l.rowsOf id).attempts⟩ := by
        rw [if_pos hexp.1]
        exact JobRows.ext hjobs (funext hatt)
      rw [hrows]
      exact Or.inr (.exhaust (horder 5) hrow (Or.inr hexp) hex)
  | @claim row workerId hrow hrunnable hex hjobs hatt =>
      have hrows : l'.rowsOf id = ⟨some (claimedRow cfg now workerId row), Function.update
          ((l.rowsOf id).write row.leaseGeneration (expiredAttempt now row))
          (row.leaseGeneration + 1)
          (some { claimAttempt cfg now workerId row with claimedAt := now })⟩ := by
        refine JobRows.ext hjobs (funext fun g => (hatt g).trans ?_)
        dsimp only
        rw [Function.update_apply, get?_expireAttempt]
        obtain rfl := Table.key_of_get? hrow
        by_cases hg : g = row.leaseGeneration + 1
        · rw [if_pos hg, if_pos hg]
          rfl
        · rw [if_neg hg, if_neg hg]
          show _ = Option.map _ (l.attempts.get? (row.id, g))
          congr 1
          funext a
          by_cases hlast : g = row.leaseGeneration
          · simp [hlast, expiredAttempt]
          · simp [hlast]
      rw [hrows]
      exact Or.inr (.claim workerId (horder 6) hrow hrunnable hex)
  | @finish row status error delay hrow hlive hstatus hjobs hatt =>
      have hrows : l'.rowsOf id = ⟨some (finishRow now status error delay row),
          (l.rowsOf id).write row.leaseGeneration (finishedAttempt now status error row)⟩ :=
        JobRows.ext hjobs (funext hatt)
      rw [hrows]
      refine Or.inr (.finish status error delay (horder 5) hrow hlive hstatus fun hretry => ?_)
      obtain ⟨hmin, hmax⟩ := hdue hrow hlive.1 hjobs hretry
      exact ⟨le_of_add_le_add_left hmin, le_of_add_le_add_left hmax⟩

theorem Effect.clocked (h : Effect R cfg now l l') (hok : l.Ok) (hdue : DueInWindow cfg now l l')
    (hl : (clocked cfg).Reachable ⟨now, l.rowsOf id⟩) :
    (RepoMesh.clocked cfg).Reachable ⟨now, l'.rowsOf id⟩ :=
  hl.step (a := ()) ⟨le_refl now, (h.touch hok id).turn hdue⟩

/-- No step leaves a job queued. -/
theorem JobStep.ne_queued (h : JobStep cfg now row row') : row'.status ≠ .queued := by
  intro hq
  cases h with
  | cancel hterm =>
      rcases JobStatus.waiting_or_running_of_not_terminal hterm with hw | hrun
      · simp [cancelRow, hw] at hq
      · simp [cancelRow, hrun, JobStatus.waiting] at hq
  | renew hlive => cases hlive.1.symm.trans hq
  | progress _ hlive => cases hlive.1.symm.trans hq
  | claim _ _ _ => cases hq
  | exhaust _ _ =>
      have hterm := exhaustedStatus_terminal row
      rw [show exhaustedStatus row = .queued from hq] at hterm
      cases hterm
  | finish status _ _ _ hs => exact finishStatus_ne_queued hs hq

/-- A job that runs after some preludes ran before them. -/
theorem prelude_run_running (cfg : Settings) (h : Relation.ReflTransGen (Prelude R now) l l')
    {id : String} (hrow : l'.jobs.get? id = some row) (hrun : row.status = .running) :
    l.jobs.get? id = some row := by
  cases hold : l.jobs.get? id with
  | none => exact absurd hrun (prelude_run_born h hold hrow).1.not_running
  | some r =>
      obtain ⟨r', hr', rfl | ⟨-, hterm⟩⟩ := prelude_run_job cfg h hold
      · exact hr'.symm.trans hrow
      · obtain rfl : row = r' := Option.some.inj (hrow.symm.trans hr')
        exact absurd hrun (JobStatus.ne_running_of_terminal hterm)

theorem Commit.clocked (h : Commit R cfg now l l') (hok : l.Ok) (hdue : DueInWindow cfg now l l')
    (hl : (clocked cfg).Reachable ⟨now, l.rowsOf id⟩) :
    (RepoMesh.clocked cfg).Reachable ⟨now, l'.rowsOf id⟩ := by
  obtain ⟨m, hm, hlast⟩ := h
  obtain ⟨hokm, hreachm⟩ : m.Ok ∧ (RepoMesh.clocked cfg).Reachable ⟨now, m.rowsOf id⟩ := by
    clear hlast
    induction hm with
    | refl => exact ⟨hok, hl⟩
    | @tail m n _ hstep ih =>
        obtain ⟨hokm, hreachm⟩ := ih
        refine ⟨hstep.ok hokm, Effect.clocked (.prelude hstep) hokm ?_ hreachm⟩
        intro id row row' hrow hrun hrow' hretry
        obtain ⟨r, hr, rfl | ⟨-, hterm⟩⟩ := hstep.job cfg hrow
        · obtain rfl : r = row' := Option.some.inj (hr.symm.trans hrow')
          cases hrun.symm.trans hretry
        · obtain rfl : r = row' := Option.some.inj (hr.symm.trans hrow')
          rw [hretry] at hterm
          cases hterm
  rcases hlast with rfl | ⟨-, heff⟩
  · exact hreachm
  · exact heff.clocked hokm (fun hrow hrun hrow' hretry =>
      hdue (prelude_run_running cfg hm hrow hrun) hrun hrow' hretry) hreachm

end

namespace Coord

variable {cfg : Settings} {s t : Coord} {a : Action}

/-- A scheduled retry is due in the window of its backoff. -/
theorem step_due_in_window (h : (system cfg).Reachable s) (hstep : (system cfg).step s a t)
    (hdrawn : a.Drawn cfg) : DueInWindow cfg s.now s.db.toLedger t.db.toLedger := by
  intro id row row' hrow hrun hrow' hretry
  have hnot : row'.status ≠ .running := by
    rw [hretry]
    exact JobStatus.ne_running_of_waiting rfl
  have hlive : Live s.now row := by
    obtain ⟨r, hr, hcase⟩ := step_job h hstep hrow
    obtain rfl : row' = r := Option.some.inj (hrow'.symm.trans hr)
    rcases hcase with rfl | hjob
    · exact absurd hrun hnot
    · cases hjob with
      | finish _ _ _ hlive _ => exact hlive
      | renew hlive => exact hlive
      | progress _ hlive => exact hlive
      | cancel _ => exact absurd ((cancelRow_running s.now row).mpr hrun) hnot
      | claim _ _ _ => cases hretry
      | exhaust _ _ =>
          have hterm := exhaustedStatus_terminal row
          rw [show exhaustedStatus row = .retrying from hretry] at hterm
          cases hterm
  obtain ⟨f, hf, howned, hdb⟩ := step_stops h hstep hrow hlive hrow' hnot
  have hget := ownedRow_get? howned
  obtain rfl := Table.key_of_get? hrow
  rw [hdb, finishLedger_jobs, get?_setJob_of_get? (finishRow s.now f.status f.error f.delay row)
    hget rfl, if_pos rfl] at hrow'
  obtain rfl := Option.some.inj hrow'
  have hstatus : finishStatus f.status row = .retrying := hretry
  have hasked : f.status = .retrying := by
    unfold finishStatus at hstatus
    split at hstatus
    · cases hstatus
    · exact hstatus
  cases a with
  | completeJob _ withErrors =>
      obtain rfl := Option.some.inj hf
      cases withErrors <;> cases hasked
  | cancelJob _ | failJob _ _ =>
      obtain rfl := Option.some.inj hf
      cases hasked
  | scheduleRetry job error jitter =>
      obtain rfl := Option.some.inj hf
      simp only at howned hasked ⊢
      have hbudget : ¬ job.maxAttempts ≤ job.attempt := by
        intro hle
        rw [if_pos hle] at hasked
        cases hasked
      have hattempt : job.attempt = row.attempt := by
        obtain ⟨r, hr, hfollows⟩ := (reachable_ok h).handles job (hstep.1 job rfl)
        obtain rfl : row = r := Option.some.inj ((ownedRow_eq_some.mp howned).1.symm.trans hr)
        rcases hfollows.generation with hlt | ⟨-, heq⟩
        · have hgen := ownedRow_generation howned
          omega
        · exact heq
      show InWindow cfg row.attempt s.now (s.now + if job.maxAttempts ≤ job.attempt then 0
        else retryDelay cfg job.attempt jitter)
      rw [if_neg hbudget, hattempt]
      exact ⟨add_le_add_right (retryDelay_mono hdrawn.1) _,
        add_le_add_right (retryDelay_mono hdrawn.2) _⟩
  | _ => cases hf

/-- In every state of the store the rows of each job are such as its turns lead to. -/
theorem reachable_clocked (h : ((system cfg).restrict (Action.Drawn cfg)).Reachable s)
    (id : String) : (clocked cfg).Reachable ⟨s.now, s.db.toLedger.rowsOf id⟩ := by
  refine h.induct
    (I := fun u => (clocked cfg).Reachable ⟨u.now, u.db.toLedger.rowsOf id⟩) ?_ ?_
  · rintro s₀ ⟨hdb, -⟩
    rw [hdb]
    exact .init rfl
  · rintro u a v hu hclocked ⟨hstep, hdrawn⟩
    have hreach := hu.of_restrict
    obtain ⟨-, jobs, -, hserves⟩ := step_serves (reachable_ok hreach) hstep
    have hcommitted := hserves.commit.clocked (reachable_ok hreach).ledger
      (step_due_in_window hreach hstep hdrawn) hclocked
    exact hcommitted.step (a := ()) ⟨step_now hstep, Or.inl rfl⟩

end Coord

end RepoMesh
