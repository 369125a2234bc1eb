import RepoMesh.AttemptEnds
import RepoMesh.TableSums

/-!
# What a scrape shows

`snapshot` is four statements, each reading the store as it is committed when the
statement starts: transactions of others may come between them. Attempt rows only grow
and are final once closed, so every counter and every bucket of a later scrape is at
least what an earlier one showed, however the two were interleaved with a run. In one
state the numbers add up: each attempt is open under a running job or was closed in
exactly one way.
-/

namespace RepoMesh

/-! ## The statements of `snapshot` -/

structure JobGauges where
  queueDepth : ℕ
  activeJobs : ℕ
  activeLeases : ℕ

def jobGauges (now : Time) (l : Ledger) : JobGauges where
  queueDepth := l.jobs.rows.countP (·.status.waiting)
  activeJobs := l.jobs.rows.countP (·.status = .running)
  activeLeases :=
    l.jobs.rows.countP fun j => j.status = .running && j.leaseExpiresAt.any (now < ·)

def activeWorkers (cfg : Settings) (now : Time) (workers : Table WorkerRow.workerId) : ℕ :=
  workers.rows.countP fun w =>
    w.status ≠ .stopped && decide (now - cfg.workerOfflineSeconds < w.lastSeenAt)

structure AttemptCounters where
  claimed : ℕ
  completed : ℕ
  failed : ℕ
  retried : ℕ
  reclaimed : ℕ

/-- `outcome IN (..)`. -/
def Attempt.endedIn (outcomes : List Outcome) (a : Attempt) : Bool :=
  a.outcome.any (· ∈ outcomes)

def attemptCounters (l : Ledger) : AttemptCounters where
  claimed := l.attempts.rows.length
  completed := l.attempts.rows.countP
    (·.endedIn [.status .completed, .status .completedWithErrors])
  failed := l.attempts.rows.countP (·.endedIn [.status .failed])
  retried := l.attempts.rows.countP (·.endedIn [.status .retrying])
  reclaimed := l.attempts.rows.countP (·.reclaimed)

/-- `ended_at-claimed_at`, of an attempt that ended. -/
def Attempt.duration (a : Attempt) : Option Time :=
  a.endedAt.map (· - a.claimedAt)

/-- `count(*) FILTER (WHERE seconds<=bound)`. -/
def within (l : Ledger) (bound : ℕ) : ℕ :=
  l.attempts.rows.countP fun a => a.duration.any (· ≤ (bound : Int) * 1000000)

/-- The row of the last statement; the sum is exact here, in microseconds, and one of `float8`
in the database. -/
structure Durations where
  count : ℕ
  sum : Time
  b1 : ℕ
  b5 : ℕ
  b10 : ℕ
  b30 : ℕ
  b60 : ℕ
  b300 : ℕ
  b900 : ℕ

def durations (l : Ledger) : Durations where
  count := l.attempts.rows.countP (·.endedAt.isSome)
  sum := (l.attempts.rows.filterMap (·.duration)).sum
  b1 := within l 1
  b5 := within l 5
  b10 := within l 10
  b30 := within l 30
  b60 := within l 60
  b300 := within l 300
  b900 := within l 900

structure Snapshot where
  jobs : JobGauges
  activeWorkers : ℕ
  attempts : AttemptCounters
  durations : Durations

/-- The states are those that the four statements read. -/
def snapshot (cfg : Settings) (s₁ s₂ s₃ s₄ : Coord) : Snapshot where
  jobs := jobGauges s₁.now s₁.db.toLedger
  activeWorkers := RepoMesh.activeWorkers cfg s₂.now s₂.db.workers
  attempts := attemptCounters s₃.db.toLedger
  durations := RepoMesh.durations s₄.db.toLedger

/-! ## The collector -/

inductive Metric where
  | counter (name documentation : String) (value : ℕ)
  | gauge (name documentation : String) (value : ℕ)
  | histogram (name documentation : String) (buckets : List (String × ℕ)) (sumValue : Time)

def Durations.buckets (d : Durations) : List (String × ℕ) :=
  [("1", d.b1), ("5", d.b5), ("10", d.b10), ("30", d.b30), ("60", d.b60), ("300", d.b300),
    ("900", d.b900), ("+Inf", d.count)]

/-- `CoordinationCollector.collect`. -/
def collect (x : Snapshot) : List Metric :=
  ([("claimed", x.attempts.claimed), ("completed", x.attempts.completed),
      ("failed", x.attempts.failed), ("retried", x.attempts.retried),
      ("reclaimed", x.attempts.reclaimed)].map fun (key, value) =>
    .counter s!"repomesh_jobs_{key}" s!"Job attempts {key}" value) ++
  ([("queue_depth", x.jobs.queueDepth), ("active_jobs", x.jobs.activeJobs),
      ("active_workers", x.activeWorkers), ("active_leases", x.jobs.activeLeases)].map
    fun (key, value) => .gauge s!"repomesh_{key}" (key.replace "_" " ") value) ++
  [.histogram "repomesh_job_duration_seconds" "Finished attempt duration" x.durations.buckets
    x.durations.sum]

/-- The later family is of the same name and, unless a gauge, shows no less. -/
inductive Metric.Grows : Metric → Metric → Prop where
  | counter {name documentation : String} {v v' : ℕ} :
      v ≤ v' → Grows (.counter name documentation v) (.counter name documentation v')
  | gauge (name documentation : String) (v v' : ℕ) :
      Grows (.gauge name documentation v) (.gauge name documentation v')
  | histogram {name documentation : String} {bs bs' : List (String × ℕ)} {sum sum' : Time} :
      List.Forall₂ (fun b b' => b.1 = b'.1 ∧ b.2 ≤ b'.2) bs bs' → sum ≤ sum' →
      Grows (.histogram name documentation bs sum) (.histogram name documentation bs' sum')

/-! ## Counting attempts -/

section

variable {now : Time} {l : Ledger}

theorem endedIn_ended (htime : l.Timeline now) {a : Attempt} (ha : a ∈ l.attempts.rows)
    {outcomes : List Outcome} (h : a.endedIn outcomes = true) : a.endedAt.isSome = true := by
  rw [← htime.outcome (Table.get?_of_mem ha)]
  unfold Attempt.endedIn at h
  cases ho : a.outcome with
  | none =>
      rw [ho] at h
      cases h
  | some _ => rfl

theorem within_mono (l : Ledger) {b b' : ℕ} (h : b ≤ b') : within l b ≤ within l b' := by
  refine List.countP_mono_left fun a _ hle => ?_
  cases hd : a.duration with
  | none =>
      rw [hd] at hle
      cases hle
  | some d =>
      simp only [hd, Option.any_some, decide_eq_true_eq] at hle ⊢
      unfold Time at *
      omega

theorem within_le_count (l : Ledger) (b : ℕ) : within l b ≤ (durations l).count := by
  refine List.countP_mono_left fun a _ hle => ?_
  unfold Attempt.duration at hle
  cases he : a.endedAt with
  | none =>
      rw [he] at hle
      cases hle
  | some _ => rfl

/-- The buckets of one scrape are cumulative. -/
theorem buckets_cumulative (l : Ledger) :
    ((durations l).buckets.map Prod.snd).Pairwise (· ≤ ·) := by
  have hmono : ∀ b b', b ≤ b' → within l b ≤ within l b' := fun _ _ => within_mono l
  have hcount := within_le_count l
  simp only [Durations.buckets, durations, List.map_cons, List.map_nil, List.pairwise_cons,
    List.mem_cons, List.not_mem_nil, or_false, forall_eq_or_imp, forall_eq, List.Pairwise.nil,
    and_true, IsEmpty.forall_iff, implies_true]
  refine ⟨⟨?_, ?_, ?_, ?_, ?_, ?_, hcount 1⟩, ⟨?_, ?_, ?_, ?_, ?_, hcount 5⟩,
    ⟨?_, ?_, ?_, ?_, hcount 10⟩, ⟨?_, ?_, ?_, hcount 30⟩, ⟨?_, ?_, hcount 60⟩,
    ⟨?_, hcount 300⟩, hcount 900⟩ <;> exact hmono _ _ (by decide)

/-- The sum of the durations is one of lengths. -/
theorem durations_sum (hs : l.Settled) :
    (durations l).sum = l.attempts.total fun a => a.duration.elim 0 Int.toNat := by
  have hlist : ∀ rows : List Attempt, (∀ a ∈ rows, ∀ d, a.duration = some d → 0 ≤ d) →
      (rows.filterMap (·.duration)).sum =
        (rows.map fun a => a.duration.elim 0 Int.toNat).sum := by
    intro rows hpos
    induction rows with
    | nil => rfl
    | cons a rows ih =>
        have hrest := ih fun b hb => hpos b (List.mem_cons_of_mem a hb)
        rw [List.map_cons, List.sum_cons, Nat.cast_add, ← hrest]
        cases hd : a.duration with
        | none => simp [hd]
        | some d =>
            have hnonneg := hpos a List.mem_cons_self d hd
            rw [List.filterMap_cons_some hd, List.sum_cons, Option.elim_some,
              Int.toNat_of_nonneg hnonneg]
  refine hlist _ fun a ha d hd => ?_
  obtain ⟨e, he, rfl⟩ := Option.map_eq_some_iff.mp hd
  exact sub_nonneg.mpr (hs.span (Table.get?_of_mem ha) he)

/-- A closed row ended in exactly one way. -/
theorem ended_parts (htime : l.Timeline now) (hs : l.Settled) :
    (durations l).count = (attemptCounters l).completed + (attemptCounters l).failed +
      (attemptCounters l).retried + l.attempts.rows.countP (·.endedIn [.status .cancelled]) +
      l.attempts.rows.countP (·.endedIn [.expired]) := by
  have hsum : l.attempts.rows.countP (·.endedAt.isSome) = ([(·.endedIn
      [.status .completed, .status .completedWithErrors]), (·.endedIn [.status .failed]),
      (·.endedIn [.status .retrying]), (·.endedIn [.status .cancelled]),
      (·.endedIn [.expired])].map fun q => l.attempts.rows.countP q).sum := by
    refine Table.countP_eq_sum fun a ha => ?_
    have hget := Table.get?_of_mem ha
    rw [← htime.outcome hget]
    simp only [Attempt.endedIn, List.map_cons, List.map_nil, List.sum_cons, List.sum_nil]
    cases ho : a.outcome with
    | none => rfl
    | some o =>
        cases o with
        | expired => rfl
        | status st =>
            have hst := hs.outcome hget ho
            cases st with
            | queued | running => simp [JobStatus.terminal] at hst
            | _ => rfl
  simp only [List.map_cons, List.map_nil, List.sum_cons, List.sum_nil] at hsum
  simp only [durations, attemptCounters]
  omega

/-- A takeover leaves one row expired and the next one reclaimed. -/
theorem expired_count (hs : l.Settled) :
    l.attempts.rows.countP (·.endedIn [.expired]) = (attemptCounters l).reclaimed := by
  have hexp : ∀ a : Attempt, a.endedIn [.expired] = true ↔ a.outcome = some .expired := by
    intro a
    simp only [Attempt.endedIn, List.mem_singleton]
    cases a.outcome <;> simp
  refine le_antisymm ?_ ?_
  · refine Table.countP_le_of_pairs (R := fun a b => b.key = (a.jobId, a.leaseGeneration + 1))
      (fun a ha h => ?_) fun a ha b hb c hac hbc => ?_
    · obtain ⟨b, hb, hrec⟩ := hs.expired (Table.get?_of_mem ha) ((hexp a).mp h)
      exact ⟨b, Table.mem_of_get? hb, hrec, Table.key_of_get? hb⟩
    · obtain ⟨hid, hgen⟩ := Prod.mk.inj (hac.symm.trans hbc)
      exact Table.eq_of_key ha hb (Prod.ext hid (Nat.succ.inj hgen))
  · refine Table.countP_le_of_pairs (R := fun b a => b.key = (a.jobId, a.leaseGeneration + 1))
      (fun b hb h => ?_) fun b hb c hc a hba hca => ?_
    · obtain ⟨g, a, hg, ha, ho⟩ := hs.reclaimed (Table.get?_of_mem hb) h
      obtain ⟨hid, hgen⟩ := Prod.mk.inj (Table.key_of_get? ha : a.key = (b.jobId, g))
      refine ⟨a, Table.mem_of_get? ha, (hexp a).mpr ho, Prod.ext hid.symm ?_⟩
      rw [hgen, ← hg]
    · exact Table.eq_of_key hb hc (hba.trans hca.symm)

/-- The open rows are those of the running jobs. -/
theorem open_count (hok : l.Ok) (htime : l.Timeline now) :
    l.attempts.rows.countP (·.endedAt.isNone) = (jobGauges now l).activeJobs := by
  refine le_antisymm ?_ ?_
  · refine Table.countP_le_of_pairs (R := fun a j => a.key = (j.id, j.leaseGeneration))
      (fun a ha h => ?_) fun a ha b hb j haj hbj => ?_
    · obtain ⟨row, hrow, hrun, hgen⟩ :=
        (htime.current (Table.get?_of_mem ha)).mp (Option.isNone_iff_eq_none.mp h)
      have hid : row.id = a.jobId := Table.key_of_get? hrow
      exact ⟨row, Table.mem_of_get? hrow, decide_eq_true hrun, Prod.ext hid.symm hgen.symm⟩
    · exact Table.eq_of_key ha hb (haj.trans hbj.symm)
  · refine Table.countP_le_of_pairs (R := fun j a => a.key = (j.id, j.leaseGeneration))
      (fun j hj h => ?_) fun i hi j hj a hai haj => ?_
    · have hrow := Table.get?_of_mem hj
      have hrun := of_decide_eq_true h
      obtain ⟨a, ha⟩ := Option.isSome_iff_exists.mp ((hok.attempts j.id j.leaseGeneration).mpr
        ⟨j, hrow, (hok.rows hrow).claimed hrun, le_refl _⟩)
      have hnone := (htime.current ha).mpr ⟨j, hrow, hrun, rfl⟩
      exact ⟨a, Table.mem_of_get? ha, Option.isNone_iff_eq_none.mpr hnone, Table.key_of_get? ha⟩
    · exact Table.eq_of_key hi hj (Prod.mk.inj (hai.symm.trans haj)).1

/-- The taken reservations are those of the running jobs. -/
theorem active_count (hok : l.Ok) :
    l.execution.rows.countP (·.activeJobId.isSome) = (jobGauges now l).activeJobs := by
  refine le_antisymm ?_ ?_
  · refine Table.countP_le_of_pairs (R := fun e j => e.activeJobId = some j.id)
      (fun e he h => ?_) fun e he f hf j hej hfj => ?_
    · obtain ⟨id, hid⟩ := Option.isSome_iff_exists.mp h
      obtain ⟨row, hrow, -, hrun⟩ := hok.active (Table.get?_of_mem he) hid
      obtain rfl := Table.key_of_get? hrow
      exact ⟨row, Table.mem_of_get? hrow, decide_eq_true hrun, hid⟩
    · obtain ⟨row, hrow, hr, -⟩ := hok.active (Table.get?_of_mem he) hej
      obtain ⟨row', hrow', hr', -⟩ := hok.active (Table.get?_of_mem hf) hfj
      obtain rfl : row = row' := Option.some.inj (hrow.symm.trans hrow')
      exact Table.eq_of_key he hf (hr.symm.trans hr')
  · refine Table.countP_le_of_pairs (R := fun j e => e.activeJobId = some j.id)
      (fun j hj h => ?_) fun i hi j hj e hei hej => ?_
    · have he := hok.running (Table.get?_of_mem hj) (of_decide_eq_true h)
      exact ⟨_, Table.mem_of_get? he, rfl, rfl⟩
    · exact Table.eq_of_key hi hj (Option.some.inj (hei.symm.trans hej))

end

namespace Coord

variable {cfg : Settings} {s t u v : Coord} {as : List Action}

/-- What a row counts for, it counts for in a later state. -/
theorem run_countP_le (h : (system cfg).Reachable s) (hrun : (system cfg).Run s as t)
    {p : Attempt → Bool} (hp : ∀ a ∈ s.db.attempts.rows, ∀ a', a.Kept a' →
      (a.endedAt.isSome = true → a' = a) → p a = true → p a' = true) :
    s.db.attempts.rows.countP p ≤ t.db.attempts.rows.countP p := by
  refine Table.countP_le_of_pairs (R := fun a a' => a'.key = a.key) (fun a ha hpa => ?_)
    fun a ha b hb c hac hbc => Table.eq_of_key ha hb (hac.symm.trans hbc)
  obtain ⟨a', ha', hkept, hfinal⟩ := run_attempt_kept h hrun (Table.get?_of_mem ha)
  exact ⟨a', Table.mem_of_get? ha', hp a ha a' hkept hfinal hpa, Table.key_of_get? ha'⟩

/-- What only closed rows count for. -/
theorem run_closed_le (h : (system cfg).Reachable s) (hrun : (system cfg).Run s as t)
    {p : Attempt → Bool} (hp : ∀ a ∈ s.db.attempts.rows, p a = true → a.endedAt.isSome = true) :
    s.db.attempts.rows.countP p ≤ t.db.attempts.rows.countP p := by
  refine run_countP_le h hrun fun a ha a' _ hfinal hpa => ?_
  rw [hfinal (hp a ha hpa)]
  exact hpa

theorem run_sum_le (h : (system cfg).Reachable s) (hrun : (system cfg).Run s as t) :
    (durations s.db.toLedger).sum ≤ (durations t.db.toLedger).sum := by
  rw [durations_sum (reachable_settled h), durations_sum (reachable_settled (h.run hrun)),
    Nat.cast_le]
  refine Table.total_le fun k => ?_
  cases ha : s.db.attempts.get? k with
  | none => rw [Table.weight_of_none ha]; exact Nat.zero_le _
  | some a =>
      obtain ⟨a', ha', -, hfinal⟩ := run_attempt_kept h hrun ha
      rw [Table.weight_of_get? ha, Table.weight_of_get? ha']
      cases he : a.endedAt with
      | none => simp [Attempt.duration, he]
      | some e =>
          obtain rfl := hfinal (by rw [he]; rfl)
          exact le_refl _

/-- A scrape from `s` to `t`: its statements read four states of a run. -/
def Scrapes (cfg : Settings) (s t : Coord) (x : Snapshot) : Prop :=
  ∃ as bs cs s₂ s₃, (system cfg).Run s as s₂ ∧ (system cfg).Run s₂ bs s₃ ∧
    (system cfg).Run s₃ cs t ∧ x = snapshot cfg s s₂ s₃ t

/-- Every counter of a later state is at least that of an earlier one. -/
theorem run_counters_le (h : (system cfg).Reachable s) (hrun : (system cfg).Run s as t) :
    let x := attemptCounters s.db.toLedger
    let y := attemptCounters t.db.toLedger
    x.claimed ≤ y.claimed ∧ x.completed ≤ y.completed ∧ x.failed ≤ y.failed ∧
      x.retried ≤ y.retried ∧ x.reclaimed ≤ y.reclaimed := by
  have hended : ∀ outcomes, s.db.attempts.rows.countP (·.endedIn outcomes) ≤
      t.db.attempts.rows.countP (·.endedIn outcomes) := fun outcomes =>
    run_closed_le h hrun fun a ha hpa => endedIn_ended (reachable_timeline h) ha hpa
  refine ⟨?_, hended _, hended _, hended _, ?_⟩
  · have hall := run_countP_le h hrun (p := fun _ => true) fun _ _ _ _ _ _ => rfl
    simp only [List.countP_true] at hall
    exact hall
  · exact run_countP_le h hrun fun a _ a' hkept _ hrec => hkept.reclaimed.trans hrec

theorem run_within_le (h : (system cfg).Reachable s) (hrun : (system cfg).Run s as t) (b : ℕ) :
    within s.db.toLedger b ≤ within t.db.toLedger b := by
  refine run_closed_le h hrun fun a _ hle => ?_
  unfold Attempt.duration at hle
  cases he : a.endedAt with
  | none =>
      rw [he] at hle
      cases hle
  | some _ => rfl

theorem run_count_le (h : (system cfg).Reachable s) (hrun : (system cfg).Run s as t) :
    (durations s.db.toLedger).count ≤ (durations t.db.toLedger).count :=
  run_closed_le h hrun fun _ _ hended => hended

/-- Scrapes one after the other, during any run, show counters and buckets that grow. The
histogram is one, and misses no attempt that the counters of the same scrape show. -/
theorem scrapes_grow (h : (system cfg).Reachable s) {x y : Snapshot}
    (hx : Scrapes cfg s t x) (hrun : (system cfg).Run t as u) (hy : Scrapes cfg u v y) :
    List.Forall₂ Metric.Grows (collect x) (collect y) ∧
    (x.durations.buckets.map Prod.snd).Pairwise (· ≤ ·) ∧ 0 ≤ x.durations.sum ∧
    x.attempts.completed + x.attempts.failed + x.attempts.retried ≤ x.durations.count := by
  obtain ⟨as₁, as₂, as₃, s₂, s₃, h₁, h₂, h₃, rfl⟩ := hx
  obtain ⟨bs₁, bs₂, bs₃, u₂, u₃, h₁', h₂', h₃', rfl⟩ := hy
  have hs₃ : (system cfg).Reachable s₃ := (h.run h₁).run h₂
  have ht : (system cfg).Reachable t := hs₃.run h₃
  obtain ⟨hclaimed, hcompleted, hfailed, hretried, hreclaimed⟩ :=
    run_counters_le hs₃ (((h₃.append hrun).append h₁').append h₂')
  have hlater := ((hrun.append h₁').append h₂').append h₃'
  have hwithin := run_within_le ht hlater
  refine ⟨?_, buckets_cumulative _, ?_, ?_⟩
  · simp only [collect, List.map_cons, List.map_nil, List.cons_append, List.nil_append]
    refine .cons (.counter hclaimed) (.cons (.counter hcompleted) (.cons (.counter hfailed)
      (.cons (.counter hretried) (.cons (.counter hreclaimed) (.cons (.gauge ..)
      (.cons (.gauge ..) (.cons (.gauge ..) (.cons (.gauge ..) (.cons (.histogram ?_
        (run_sum_le ht hlater)) .nil)))))))))
    exact .cons ⟨rfl, hwithin 1⟩ (.cons ⟨rfl, hwithin 5⟩ (.cons ⟨rfl, hwithin 10⟩
      (.cons ⟨rfl, hwithin 30⟩ (.cons ⟨rfl, hwithin 60⟩ (.cons ⟨rfl, hwithin 300⟩
      (.cons ⟨rfl, hwithin 900⟩ (.cons ⟨rfl, run_count_le ht hlater⟩ .nil)))))))
  · show 0 ≤ (durations t.db.toLedger).sum
    rw [durations_sum (reachable_settled ht)]
    exact Int.natCast_nonneg _
  · have hparts := ended_parts (reachable_timeline hs₃) (reachable_settled hs₃)
    have hcount := run_count_le hs₃ h₃
    simp only [snapshot]
    omega

/-- What a scrape of one state shows adds up: an attempt is open under a running job or
ended in one way, of which `cancelled` alone is not shown. -/
theorem snapshot_accounts (h : (system cfg).Reachable s) :
    let x := snapshot cfg s s s s
    x.attempts.claimed = x.durations.count + x.jobs.activeJobs ∧
    x.durations.count = x.attempts.completed + x.attempts.failed + x.attempts.retried +
      x.attempts.reclaimed + s.db.attempts.rows.countP (·.endedIn [.status .cancelled]) ∧
    x.jobs.activeJobs = s.db.execution.rows.countP (·.activeJobId.isSome) ∧
    x.jobs.activeLeases ≤ x.jobs.activeJobs := by
  have hok := (reachable_ok h).ledger
  have htime := reachable_timeline h
  have hs := reachable_settled h
  refine ⟨?_, ?_, (active_count hok).symm, ?_⟩
  · have hopen := open_count hok htime
    have hsplit : s.db.attempts.rows.length = s.db.attempts.rows.countP (·.endedAt.isSome) +
        s.db.attempts.rows.countP (·.endedAt.isNone) := by
      rw [List.length_eq_countP_add_countP fun a : Attempt => a.endedAt.isSome]
      refine congrArg _ (List.countP_congr fun a _ => ?_)
      cases a.endedAt <;> simp
    rw [hopen] at hsplit
    exact hsplit
  · have hparts := ended_parts htime hs
    have hexp := expired_count hs
    simp only [snapshot]
    omega
  · refine List.countP_mono_left fun j _ hj => ?_
    exact (Bool.and_eq_true_iff.mp hj).1

/-- A scrape while a job runs, and one after it was completed. -/
theorem scrapes_grow_completed :
    let s := (empty 0).exec .default oneClaim
    let t := s.exec .default [.advance 2000000, .completeJob oneClaimJob false]
    let x := snapshot .default s s s s
    let y := snapshot .default t t t t
    y.durations.buckets = [("1", 0), ("5", 1), ("10", 1), ("30", 1), ("60", 1), ("300", 1),
      ("900", 1), ("+Inf", 1)] ∧
    List.Forall₂ Metric.Grows (collect x) (collect y) := by
  have hadmits : (empty 0).Admits .default oneClaim := by decide
  have hmore : ((empty 0).exec .default oneClaim).Admits .default
      [.advance 2000000, .completeJob oneClaimJob false] := by decide
  have hone : ∀ s, Scrapes .default s s (snapshot .default s s s s) := fun s =>
    ⟨[], [], [], s, s, .nil s, .nil s, .nil s, rfl⟩
  exact ⟨by decide, (scrapes_grow (reachable_exec hadmits) (hone _) (run_exec hmore) (hone _)).1⟩

/-- The job that `oneClaim` leaves running. -/
theorem snapshot_accounts_running :
    let s := (empty 0).exec .default oneClaim
    let x := snapshot .default s s s s
    x.jobs.activeJobs = 1 ∧ x.attempts.claimed = x.durations.count + x.jobs.activeJobs :=
  ⟨by decide, (snapshot_accounts (reachable_exec (by decide))).1⟩

end Coord

end RepoMesh
