import RepoMesh.AttemptLedger

/-!
# The attempt ledger over runs

The timeline holds in every reachable state. Three more facts are about how a
state was reached: a job counts its attempts from the number it was inserted
with, the row of a job's last generation keeps the status its execution ended
in, and a retrying job is claimed only from its `available_at` on.
-/

namespace RepoMesh

section

variable {R : Rights} {cfg : Settings} {now : Time} {l l' : Ledger} {id : String}

/-- What a record says of a job that is not running is final. -/
theorem Effect.recorded_final (h : Effect R cfg now l l') (hok : l.Ok) {r : Job}
    (hr : l.jobs.get? id = some r) (hnot : r.status ≠ .running) {g : Nat} {status : JobStatus}
    (hrec : l.Recorded id g status) : l'.Recorded id g status := by
  obtain ⟨a, ha, ho⟩ := hrec
  exact ⟨a, h.attempt_final hok hr hnot ha, ho⟩

/-- A running job is untouched by the preludes, or finalised and recorded. -/
theorem prelude_run_recorded (cfg : Settings) (h : Relation.ReflTransGen (Prelude R now) l l')
    (hok : l.Ok) {r : Job} (hr : l.jobs.get? id = some r) (hrun : r.status = .running) :
    l'.Ok ∧ ∃ r', l'.jobs.get? id = some r' ∧
      (r' = r ∨ r'.status.terminal = true ∧
        l'.Recorded id r'.leaseGeneration r'.status) := by
  induction h with
  | refl => exact ⟨hok, r, hr, Or.inl rfl⟩
  | @tail m n _ hstep ih =>
      obtain ⟨hokm, rm, hrm, hcase⟩ := ih
      have heff : Effect R cfg now m n := .prelude hstep
      obtain ⟨rn, hrn, hmove⟩ := hstep.job cfg hrm
      refine ⟨hstep.ok hokm, rn, hrn, ?_⟩
      rcases hcase with rfl | ⟨hterm, hrec⟩
      · rcases hmove with rfl | ⟨-, hterm⟩
        · exact Or.inl rfl
        · have hnot := JobStatus.ne_running_of_terminal hterm
          exact Or.inr ⟨hterm, heff.recorded hokm hrm hrun hrn hnot⟩
      · have hnot := JobStatus.ne_running_of_terminal hterm
        rcases hmove with rfl | ⟨hjob, -⟩
        · exact Or.inr ⟨hterm, heff.recorded_final hokm hrm hnot hrec⟩
        · rw [hjob.not_terminal] at hterm
          cases hterm

/-- When a transaction ends a running job's execution, the job's current row says
in which status. -/
theorem Commit.recorded (h : Commit R cfg now l l') (hok : l.Ok) {r r' : Job}
    (hr : l.jobs.get? id = some r) (hrun : r.status = .running)
    (hr' : l'.jobs.get? id = some r') (hnot : r'.status ≠ .running) :
    l'.Recorded id r'.leaseGeneration r'.status := by
  obtain ⟨m, hm, hlast⟩ := h
  obtain ⟨hokm, rm, hrm, hcase⟩ := prelude_run_recorded cfg hm hok hr hrun
  rcases hlast with rfl | ⟨-, heff⟩
  · obtain rfl : rm = r' := Option.some.inj (hrm.symm.trans hr')
    rcases hcase with rfl | ⟨-, hrec⟩
    · exact absurd hrun hnot
    · exact hrec
  · rcases hcase with rfl | ⟨hterm, hrec⟩
    · exact heff.recorded hokm hrm hrun hr' hnot
    · obtain ⟨rn, hrn, hmove⟩ := heff.job hrm
      obtain rfl : rn = r' := Option.some.inj (hrn.symm.trans hr')
      rcases hmove with rfl | hjob
      · exact heff.recorded_final hokm hrm hnot hrec
      · rw [hjob.not_terminal] at hterm
        cases hterm

theorem Commit.recorded_final (h : Commit R cfg now l l') (hok : l.Ok) {r : Job}
    (hr : l.jobs.get? id = some r) (hterm : r.status.terminal = true) {g : Nat}
    {status : JobStatus} (hrec : l.Recorded id g status) : l'.Recorded id g status := by
  have hkeep : ∀ {m}, Relation.ReflTransGen (Prelude R now) l m →
      m.Ok ∧ m.jobs.get? id = some r ∧ m.Recorded id g status := by
    intro m hm
    induction hm with
    | refl => exact ⟨hok, hr, hrec⟩
    | @tail m n _ hstep ih =>
        obtain ⟨hokm, hrm, hrecm⟩ := ih
        have heff : Effect R cfg now m n := .prelude hstep
        have hnot := JobStatus.ne_running_of_terminal hterm
        obtain ⟨rn, hrn, rfl | ⟨hjob, -⟩⟩ := hstep.job cfg hrm
        · exact ⟨hstep.ok hokm, hrn, heff.recorded_final hokm hrm hnot hrecm⟩
        · rw [hjob.not_terminal] at hterm
          cases hterm
  obtain ⟨m, hm, hlast⟩ := h
  obtain ⟨hokm, hrm, hrecm⟩ := hkeep hm
  rcases hlast with rfl | ⟨-, heff⟩
  · exact hrecm
  · exact heff.recorded_final hokm hrm (JobStatus.ne_running_of_terminal hterm) hrecm

/-- A waiting job runs next only if it was due. -/
theorem JobStep.due {row row' : Job} (h : JobStep cfg now row row')
    (hw : row.status.waiting = true) (hrun : row'.status = .running) : row.availableAt ≤ now := by
  cases h with
  | claim _ hrunnable _ =>
      rcases hrunnable with ⟨-, hdue⟩ | ⟨hwas, -⟩
      · exact hdue
      · exact absurd hwas (JobStatus.ne_running_of_waiting hw)
  | cancel _ =>
      have hwas := (cancelRow_running now row).mp hrun
      exact absurd hwas (JobStatus.ne_running_of_waiting hw)
  | renew hlive => exact absurd hlive.1 (JobStatus.ne_running_of_waiting hw)
  | progress _ hlive => exact absurd hlive.1 (JobStatus.ne_running_of_waiting hw)
  | exhaust hexp _ => exact absurd hexp.1 (JobStatus.ne_running_of_waiting hw)
  | finish _ _ _ hlive _ => exact absurd hlive.1 (JobStatus.ne_running_of_waiting hw)

end

namespace Coord

variable {cfg : Settings} {s t : Coord} {id : String} {row : Job}

theorem reachable_timeline (h : (system cfg).Reachable s) :
    s.db.toLedger.Timeline s.now := by
  refine h.induct (I := fun u => u.db.toLedger.Timeline u.now) ?_ ?_
  · rintro s₀ ⟨hdb, -⟩
    rw [hdb]
    exact Ledger.Timeline.empty _
  · intro u a v hu htime hstep
    obtain ⟨-, jobs, -, hserves⟩ := step_serves (reachable_ok hu) hstep
    have hle : u.now ≤ v.now := now_le_of_run (.single hstep)
    exact (hserves.commit.timeline (reachable_ok hu).ledger htime).mono hle

/-- Attempts are counted by the generation. -/
theorem run_attempt (h : (system cfg).Reachable s) {as : List Action}
    (hrun : (system cfg).Run s as t) (hrow : s.db.jobs.get? id = some row) :
    ∃ row', t.db.jobs.get? id = some row' ∧
      row'.attempt + row.leaseGeneration = row.attempt + row'.leaseGeneration := by
  have hkeep : ∀ u a v, (system cfg).Reachable u →
      (∃ r, u.db.jobs.get? id = some r ∧
        r.attempt + row.leaseGeneration = row.attempt + r.leaseGeneration) →
      (system cfg).step u a v →
      ∃ r, v.db.jobs.get? id = some r ∧
        r.attempt + row.leaseGeneration = row.attempt + r.leaseGeneration := by
    rintro u a v hu ⟨r, hr, hcount⟩ hstep
    obtain ⟨r', hr', rfl | hjob⟩ := step_job hu hstep hr
    · exact ⟨r', hr', hcount⟩
    · refine ⟨r', hr', ?_⟩
      rcases hjob.generation with ⟨hg, ha⟩ | ⟨hg, ha⟩
      · omega
      · omega
  have hlater := hrun.stable hkeep h ⟨row, hrow, rfl⟩
  exact hlater

/-- Every job of a run's last state was inserted by one step of the run, and has
counted its attempts from there. -/
theorem run_birth {s₀ : Coord} (hinit : (system cfg).init s₀) {as : List Action}
    (hrun : (system cfg).Run s₀ as s) (hrow : s.db.jobs.get? id = some row) :
    ∃ bs b cs u v born, as = bs ++ b :: cs ∧ (system cfg).Run s₀ bs u ∧
      (system cfg).step u b v ∧ (system cfg).Run v cs s ∧
      u.db.jobs.get? id = none ∧ v.db.jobs.get? id = some born ∧ b.rights.inserts born ∧
      row.attempt = born.attempt + row.leaseGeneration := by
  have hnone : ¬ (s₀.db.jobs.get? id).isSome = true := by
    rw [hinit.1]
    simp [Db.empty, Ledger.empty]
  have hsome : (s.db.jobs.get? id).isSome = true := by rw [hrow]; rfl
  obtain ⟨bs, b, cs, u, v, heq, hbs, hstep, hcs, hu, hv⟩ :=
    hrun.crossing (P := fun w => (w.db.jobs.get? id).isSome = true) hnone hsome
  have hreach : (system cfg).Reachable u := ⟨s₀, bs, hinit, hbs⟩
  obtain ⟨born, hborn⟩ := Option.isSome_iff_exists.mp hv
  rw [Bool.not_eq_true, Option.isSome_eq_false_iff, Option.isNone_iff_eq_none] at hu
  obtain ⟨-, jobs, -, hserves⟩ := step_serves (reachable_ok hreach) hstep
  obtain ⟨hfresh, hinserts⟩ := hserves.commit.born hu hborn
  obtain ⟨row', hrow', hcount⟩ := run_attempt (hreach.step hstep) hcs hborn
  obtain rfl : row = row' := Option.some.inj (hrow.symm.trans hrow')
  refine ⟨bs, b, cs, u, v, born, heq, hbs, hstep, hcs, hu, hborn, hinserts, ?_⟩
  rw [hfresh.generation] at hcount
  omega

/-- The status a running job is left in is on record for good, once terminal. -/
theorem run_recorded (h : (system cfg).Reachable s) {a : Action}
    (hstep : (system cfg).step s a t) {u : Coord} {as : List Action}
    (hrun : (system cfg).Run t as u) {row' : Job} (hrow : s.db.jobs.get? id = some row)
    (hwas : row.status = .running) (hrow' : t.db.jobs.get? id = some row')
    (hterm : row'.status.terminal = true) :
    u.db.jobs.get? id = some row' ∧
      u.db.toLedger.Recorded id row'.leaseGeneration row'.status := by
  have hok := (reachable_ok h).ledger
  obtain ⟨-, jobs, -, hserves⟩ := step_serves (reachable_ok h) hstep
  have hrec := hserves.commit.recorded hok hrow hwas hrow'
    (JobStatus.ne_running_of_terminal hterm)
  have hkeep : ∀ x b y, (system cfg).Reachable x →
      x.db.jobs.get? id = some row' ∧
        x.db.toLedger.Recorded id row'.leaseGeneration row'.status →
      (system cfg).step x b y →
      y.db.jobs.get? id = some row' ∧
        y.db.toLedger.Recorded id row'.leaseGeneration row'.status := by
    rintro x b y hx ⟨hget, hrecx⟩ hxy
    obtain ⟨-, jobs, -, hserves⟩ := step_serves (reachable_ok hx) hxy
    exact ⟨terminal_final hx (.single hxy) hget hterm,
      hserves.commit.recorded_final (reachable_ok hx).ledger hget hterm hrecx⟩
  have hlater := hrun.stable hkeep (h.step hstep) ⟨hrow', hrec⟩
  exact hlater

/-- A waiting job is claimed only when it is due. -/
theorem step_due (h : (system cfg).Reachable s) {a : Action} (hstep : (system cfg).step s a t)
    {row' : Job} (hrow : s.db.jobs.get? id = some row) (hw : row.status.waiting = true)
    (hrow' : t.db.jobs.get? id = some row') (hrun : row'.status = .running) :
    row.availableAt ≤ s.now := by
  obtain ⟨r, hr, hcase⟩ := step_job h hstep hrow
  obtain rfl : r = row' := Option.some.inj (hr.symm.trans hrow')
  rcases hcase with rfl | hjob
  · exact absurd hrun (JobStatus.ne_running_of_waiting hw)
  · exact hjob.due hw hrun

/-- The attempts of a repository never overlap. -/
theorem attempts_disjoint (h : (system cfg).Reachable s) {a b : Attempt}
    (ha : a ∈ s.db.attempts.rows) (hb : b ∈ s.db.attempts.rows) (hne : a ≠ b)
    (hrepo : s.db.repositoryOf a.jobId = s.db.repositoryOf b.jobId) (τ : Time) :
    ¬ (a.covers τ ∧ b.covers τ) := by
  rintro ⟨hca, hcb⟩
  have hkey : a.key ≠ b.key := fun heq => hne (Table.eq_of_key ha hb heq)
  have horder := (reachable_timeline h).order (Table.get?_of_mem ha) (Table.get?_of_mem hb)
    hkey hrepo
  rcases horder with hab | hba
  · exact hab.disjoint hca hcb
  · exact hba.disjoint hcb hca

/-- The attempt ledger is exact and the budget is respected. -/
theorem attempt_ledger_exact {s₀ : Coord} (hinit : (system cfg).init s₀) {as : List Action}
    (hrun : (system cfg).Run s₀ as s) :
    -- attempts are counted from the insertion and stay within the budget
    (∀ id row, s.db.jobs.get? id = some row → row.attempt ≤ row.maxAttempts ∧
      ∃ bs b cs u v born, as = bs ++ b :: cs ∧ (system cfg).Run s₀ bs u ∧
        (system cfg).step u b v ∧ (system cfg).Run v cs s ∧
        u.db.jobs.get? id = none ∧ v.db.jobs.get? id = some born ∧ b.rights.inserts born ∧
        row.attempt = born.attempt + row.leaseGeneration) ∧
    -- one row for each generation
    (∀ id row, s.db.jobs.get? id = some row → ∀ g, 1 ≤ g ∧ g ≤ row.leaseGeneration ↔
      ∃ a ∈ s.db.attempts.rows, a.jobId = id ∧ a.leaseGeneration = g) ∧
    (∀ a ∈ s.db.attempts.rows, ∀ b ∈ s.db.attempts.rows, a.jobId = b.jobId →
      a.leaseGeneration = b.leaseGeneration → a = b) ∧
    -- the open ones, and the outcome of the closed ones
    (∀ a ∈ s.db.attempts.rows, (a.endedAt = none ↔ ∃ row ∈ s.db.jobs.rows,
      row.id = a.jobId ∧ row.status = .running ∧ row.leaseGeneration = a.leaseGeneration)) ∧
    (∀ a ∈ s.db.attempts.rows, a.endedAt.isSome = true → a.outcome.isSome = true) ∧
    (∀ bs b cs u v, as = bs ++ b :: cs → (system cfg).Run s₀ bs u → (system cfg).step u b v →
      (system cfg).Run v cs s → ∀ id row row', u.db.jobs.get? id = some row →
      row.status = .running → v.db.jobs.get? id = some row' → row'.status.terminal = true →
      ∃ a ∈ s.db.attempts.rows, a.jobId = id ∧ a.leaseGeneration = row'.leaseGeneration ∧
        a.outcome = some (.status row'.status) ∧ s.db.jobs.get? id = some row') ∧
    -- no claim of a retrying job before it is due
    (∀ a t, (system cfg).step s a t → ∀ id row row', s.db.jobs.get? id = some row →
      row.status = .retrying → t.db.jobs.get? id = some row' → row'.status = .running →
      row.availableAt ≤ s.now) ∧
    -- one attempt of a repository at a time
    ∀ a ∈ s.db.attempts.rows, ∀ b ∈ s.db.attempts.rows, a ≠ b →
      ∀ row ∈ s.db.jobs.rows, ∀ row' ∈ s.db.jobs.rows, row.id = a.jobId → row'.id = b.jobId →
      row.repositoryId = row'.repositoryId → ∀ τ, ¬ (a.covers τ ∧ b.covers τ) := by
  have hreach : (system cfg).Reachable s := ⟨s₀, as, hinit, hrun⟩
  have hok := (reachable_ok hreach).ledger
  have htime := reachable_timeline hreach
  refine ⟨?_, ?_, ?_, ?_, ?_, ?_, ?_, ?_⟩
  · intro id row hrow
    exact ⟨(hok.rows hrow).budget, run_birth hinit hrun hrow⟩
  · intro id row hrow g
    constructor
    · intro hg
      obtain ⟨a, ha⟩ := Option.isSome_iff_exists.mp ((hok.attempts id g).mpr ⟨row, hrow, hg⟩)
      have hkey : a.key = (id, g) := Table.key_of_get? ha
      obtain ⟨hid, hgen⟩ := Prod.mk.inj hkey
      exact ⟨a, Table.mem_of_get? ha, hid, hgen⟩
    · rintro ⟨a, ha, rfl, rfl⟩
      obtain ⟨r, hr, hg⟩ := (hok.attempts a.jobId a.leaseGeneration).mp
        (by rw [Table.get?_of_mem ha]; rfl)
      obtain rfl : row = r := Option.some.inj (hrow.symm.trans hr)
      exact hg
  · intro a ha b hb hid hgen
    exact Table.eq_of_key ha hb (Prod.ext hid hgen)
  · intro a ha
    rw [htime.current (Table.get?_of_mem ha)]
    constructor
    · rintro ⟨row, hrow, hrun, hgen⟩
      exact ⟨row, Table.mem_of_get? hrow, Table.key_of_get? hrow, hrun, hgen⟩
    · rintro ⟨row, hrow, hid, hrun, hgen⟩
      exact ⟨row, hid ▸ Table.get?_of_mem hrow, hrun, hgen⟩
  · intro a ha hended
    rw [htime.outcome (Table.get?_of_mem ha), hended]
  · intro bs b cs u v _ hbs hstep hcs id row row' hrow hwas hrow' hterm
    obtain ⟨hget, a, ha, ho⟩ :=
      run_recorded ⟨s₀, bs, hinit, hbs⟩ hstep hcs hrow hwas hrow' hterm
    have hkey : a.key = (id, row'.leaseGeneration) := Table.key_of_get? ha
    obtain ⟨hid, hgen⟩ := Prod.mk.inj hkey
    exact ⟨a, Table.mem_of_get? ha, hid, hgen, ho, hget⟩
  · intro a t hstep id row row' hrow hretry hrow' hrun'
    exact step_due hreach hstep hrow (by rw [hretry]; rfl) hrow' hrun'
  · intro a ha b hb hne row hrow row' hrow' hid hid' hrepo τ
    refine attempts_disjoint hreach ha hb hne ?_ τ
    rw [Ledger.repositoryOf, Ledger.repositoryOf, ← hid, ← hid', Table.get?_of_mem hrow,
      Table.get?_of_mem hrow', Option.map_some, Option.map_some, hrepo]

/-- The job is taken over after its lease: its two attempts do not overlap. -/
theorem attempt_ledger_exact_takeover :
    let s := (empty 0).exec .default (oneClaim ++
      [.advance 30000000, .claimJob "worker-1" "session-1" fun _ => false])
    s.db.attempts.rows.map (·.leaseGeneration) = [1, 2] ∧
      ∀ a ∈ s.db.attempts.rows, ∀ b ∈ s.db.attempts.rows, a ≠ b →
        ∀ row ∈ s.db.jobs.rows, ∀ row' ∈ s.db.jobs.rows, row.id = a.jobId →
        row'.id = b.jobId → row.repositoryId = row'.repositoryId →
        ∀ τ, ¬ (a.covers τ ∧ b.covers τ) := by
  have hadmits : (empty 0).Admits .default (oneClaim ++
      [.advance 30000000, .claimJob "worker-1" "session-1" fun _ => false]) := by decide
  exact ⟨by decide, (attempt_ledger_exact ⟨rfl, rfl⟩ (run_exec hadmits)).2.2.2.2.2.2.2⟩

end Coord

end RepoMesh
