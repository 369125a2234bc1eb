import RepoMesh.AutoSubmit
import RepoMesh.FirstClaim
import RepoMesh.UniqueColumn

/-!
# The legacy import

`import_legacy_jobs` over the rows of the single-node store. A row is inserted unless its
id or its idempotency key is there already (`importRow_eq`); so a row with a new id is lost
where another job holds its key, and no row is lost otherwise (`legacy_import_iff`).
-/

namespace RepoMesh

/-- The mode `execute` indexes with. -/
def executedMode (job : Job) : Mode :=
  if job.attempt = 1 then job.mode else .incremental

namespace LegacyRow

/-- The row passes the checks of the table `jobs`. -/
def Valid (old : LegacyRow) : Prop :=
  old.kind = "index" ∧ (Mode.ofText old.mode).isSome = true ∧ 0 ≤ old.importAttempt

/-- The id is new and the key is another job's. -/
def Clashes (l : Ledger) (old : LegacyRow) : Prop :=
  l.jobs.get? old.id = none ∧ old.idempotencyKey.isSome = true ∧
    ∃ other ∈ l.jobs.rows, other.idempotencyKey = old.idempotencyKey

/-- What the import makes of a row. -/
structure Carried (old : LegacyRow) (job : Job) : Prop where
  terminal : ∀ status, old.terminalStatus = some status → job.status = status
  cancelled : old.terminalStatus = none → old.cancelRequested = true → job.status = .cancelled
  queued : old.terminalStatus = none → old.cancelRequested = false →
    job.status = .queued ∧ job.attempt < job.maxAttempts

end LegacyRow

section

variable {cfg : Settings} {now : Time} {l l' : Ledger} {old : LegacyRow} {rows : List LegacyRow}
  {mode : Mode}

theorem toJob_carried (old : LegacyRow) (mode : Mode) :
    old.Carried (old.toJob cfg now mode) where
  terminal := by
    intro status hstatus
    show old.importStatus = status
    rw [LegacyRow.importStatus, hstatus]
  cancelled := by
    intro hnone hcancel
    show old.importStatus = .cancelled
    rw [LegacyRow.importStatus, hnone]
    simp [hcancel]
  queued := by
    intro hnone hcancel
    have hbudget : old.importAttempt = max 1 old.attempt := by
      rw [LegacyRow.importAttempt, hnone]
      rfl
    have hlt : old.importAttempt.toNat <
        (max (max (cfg.jobMaxRetries : Int) (old.attempt + 1)) 2).toNat := by omega
    refine ⟨?_, hlt⟩
    show old.importStatus = .queued
    rw [LegacyRow.importStatus, hnone]
    simp [hcancel]

/-- An imported job is over, or was attempted. -/
theorem toJob_attempted :
    (old.toJob cfg now mode).status.terminal = true ∨ 1 ≤ (old.toJob cfg now mode).attempt := by
  have hattempt : (old.toJob cfg now mode).attempt = old.importAttempt.toNat := rfl
  have hstatus : (old.toJob cfg now mode).status = old.importStatus := rfl
  cases hterm : old.terminalStatus with
  | some status =>
      left
      rw [hstatus, LegacyRow.importStatus, hterm]
      exact (Option.filter_eq_some_iff.mp hterm).2
  | none =>
      right
      rw [hattempt, LegacyRow.importAttempt, hterm]
      simp only [Option.isSome_none, Bool.false_eq_true, if_false]
      omega

/-! ## One row -/

theorem reserveRow_of_reserved {r : String} (h : (l.execution.get? r).isSome = true) :
    l.reserveRow r = l := by
  obtain ⟨e, he⟩ := Option.isSome_iff_exists.mp h
  have hsame : l.execution.insertNew ⟨r, none⟩ = l.execution := Table.insertNew_of_some he
  rw [Ledger.reserveRow, hsame]

/-- A legacy row conflicts by its id or by its key. -/
theorem conflicts_toJob : l.conflicts (old.toJob cfg now mode) = [] ↔
    l.jobs.get? old.id = none ∧ ¬ old.Clashes l := by
  have hrun : (old.toJob cfg now mode).status ≠ .running := (toJob_fresh old mode).not_running
  have hid : (old.toJob cfg now mode).id = old.id := rfl
  have hkey : (old.toJob cfg now mode).idempotencyKey = old.idempotencyKey := rfl
  have hparent : (old.toJob cfg now mode).parentJobId = none := rfl
  simp only [Ledger.conflicts, hid, hkey, hparent, hrun, LegacyRow.Clashes]
  cases hget : l.jobs.get? old.id <;> simp

/-- The import of a row that passes the checks. -/
theorem importRow_eq (hkind : old.kind = "index") (hmode : Mode.ofText old.mode = some mode)
    (hattempt : 0 ≤ old.importAttempt) :
    importRow cfg now old l = .ok (if l.conflicts (old.toJob cfg now mode) = [] then
      (true, { l.reserveRow old.repositoryId with
        jobs := l.jobs.insertNew (old.toJob cfg now mode) })
      else (false, l.reserveRow old.repositoryId)) := by
  have hfresh : (old.toJob cfg now mode).Fresh := toJob_fresh old mode
  have hreserved : (((l.reserveRow old.repositoryId).execution.get?
      (old.toJob cfg now mode).repositoryId).isNone) = false := by
    have hrepo : (old.toJob cfg now mode).repositoryId = old.repositoryId := rfl
    rw [hrepo, Ledger.reserveRow, Table.get?_insertNew, if_pos rfl]
    rfl
  have hsame : (l.reserveRow old.repositoryId).conflicts (old.toJob cfg now mode) =
      l.conflicts (old.toJob cfg now mode) := rfl
  unfold importRow
  simp only [hkind, hmode, not_lt.mpr hattempt, ne_eq, not_true_eq_false, if_false,
    Ledger.insertJob, hfresh.check_eq_none, hsame]
  cases hconf : l.conflicts (old.toJob cfg now mode) with
  | nil => simp [hreserved]
  | cons c cs => simp

theorem importRow_valid {b : Bool} (h : importRow cfg now old l = .ok (b, l')) : old.Valid := by
  unfold importRow at h
  simp only at h
  split at h
  · cases h
  rename_i hkind
  split at h
  · cases h
  rename_i mode hmode
  split at h
  · cases h
  rename_i hattempt
  exact ⟨not_not.mp hkind, by rw [hmode]; rfl, not_lt.mp hattempt⟩

/-- A row is inserted, or nothing is. -/
theorem importRow_jobs {b : Bool} (h : importRow cfg now old l = .ok (b, l')) :
    (l'.execution.get? old.repositoryId).isSome = true ∧
      ∃ mode, l.conflicts (old.toJob cfg now mode) = [] ∧
          l'.jobs = l.jobs.insertNew (old.toJob cfg now mode) ∨
        l.conflicts (old.toJob cfg now mode) ≠ [] ∧ b = false ∧ l'.jobs = l.jobs := by
  obtain ⟨hkind, hmode, hattempt⟩ := importRow_valid h
  obtain ⟨mode, hmode⟩ := Option.isSome_iff_exists.mp hmode
  rw [importRow_eq hkind hmode hattempt] at h
  have hreserved :
      ((l.reserveRow old.repositoryId).execution.get? old.repositoryId).isSome = true := by
    rw [Ledger.reserveRow, Table.get?_insertNew, if_pos rfl]
    rfl
  split at h
  · rename_i hconf
    obtain ⟨-, rfl⟩ := Prod.mk.inj (Except.ok.inj h)
    exact ⟨hreserved, mode, Or.inl ⟨hconf, rfl⟩⟩
  · rename_i hconf
    obtain ⟨rfl, rfl⟩ := Prod.mk.inj (Except.ok.inj h)
    exact ⟨hreserved, mode, Or.inr ⟨hconf, rfl, rfl⟩⟩

/-! ## All rows -/

/-- The jobs after an import: those before, and rows of the list under new ids. -/
theorem importRows_jobs {n n' : ℕ} (h : importRows cfg now rows n l = .ok (n', l')) :
    (∀ id job, l.jobs.get? id = some job → l'.jobs.get? id = some job) ∧
      ∀ id job, l'.jobs.get? id = some job → l.jobs.get? id = some job ∨
        ∃ old ∈ rows, old.id = id ∧ ∃ mode, job = old.toJob cfg now mode := by
  induction rows generalizing n l with
  | nil =>
      obtain ⟨-, rfl⟩ := Prod.mk.inj (Except.ok.inj h)
      exact ⟨fun _ _ hjob => hjob, fun _ _ hjob => Or.inl hjob⟩
  | cons old rows ih =>
      obtain ⟨b, m, hrow, hrest⟩ := importRows_cons h
      obtain ⟨hkeep, hnew⟩ := ih hrest
      obtain ⟨-, mode, ⟨-, hjobs⟩ | ⟨-, -, hjobs⟩⟩ := importRow_jobs hrow
      · rw [hjobs] at hkeep hnew
        refine ⟨fun id job hjob => hkeep id job (Table.get?_insertNew_of_some hjob), ?_⟩
        intro id job hjob
        rcases hnew id job hjob with hold | ⟨o, ho, hid, hfrom⟩
        · rw [Table.get?_insertNew] at hold
          split at hold
          · rename_i hid
            cases hget : l.jobs.get? id with
            | some j =>
                rw [hget, Option.getD_some] at hold
                exact Or.inl hold
            | none =>
                rw [hget, Option.getD_none] at hold
                exact Or.inr ⟨old, List.mem_cons_self, hid, mode, (Option.some.inj hold).symm⟩
          · exact Or.inl hold
        · exact Or.inr ⟨o, List.mem_cons_of_mem _ ho, hid, hfrom⟩
      · rw [hjobs] at hkeep hnew
        refine ⟨hkeep, fun id job hjob => ?_⟩
        rcases hnew id job hjob with hold | ⟨o, ho, hid, hfrom⟩
        · exact Or.inl hold
        · exact Or.inr ⟨o, List.mem_cons_of_mem _ ho, hid, hfrom⟩

theorem importRows_valid {n n' : ℕ} (h : importRows cfg now rows n l = .ok (n', l')) :
    ∀ old ∈ rows, old.Valid := by
  induction rows generalizing n l with
  | nil => simp
  | cons old rows ih =>
      obtain ⟨b, m, hrow, hrest⟩ := importRows_cons h
      intro o ho
      rcases List.mem_cons.mp ho with rfl | ho
      · exact importRow_valid hrow
      · exact ih hrest o ho

/-- Repositories of imported rows are reserved. -/
theorem importRows_reserved {n n' : ℕ} (h : importRows cfg now rows n l = .ok (n', l')) :
    ∀ old ∈ rows, (l'.execution.get? old.repositoryId).isSome = true := by
  induction rows generalizing n l with
  | nil => simp
  | cons old rows ih =>
      obtain ⟨b, m, hrow, hrest⟩ := importRows_cons h
      intro o ho
      rcases List.mem_cons.mp ho with rfl | ho
      · have hpreludes := importRows_preludes (P := fun _ => True) (fun _ _ _ _ => trivial) hrest
        exact prelude_run_reserved hpreludes (importRow_jobs hrow).1
      · exact ih hrest o ho

/-- Without a clash no row is lost. -/
theorem importRows_all (hvalid : ∀ old ∈ rows, old.Valid) (hids : (rows.map LegacyRow.id).Nodup)
    (hkeys : (rows.filterMap LegacyRow.idempotencyKey).Nodup)
    (hclear : ∀ old ∈ rows, ¬ old.Clashes l) (n : ℕ) :
    ∃ n' l', importRows cfg now rows n l = .ok (n', l') ∧
      ∀ old ∈ rows, (l'.jobs.get? old.id).isSome = true := by
  induction rows generalizing n l with
  | nil => exact ⟨n, l, rfl, by simp⟩
  | cons old rows ih =>
      obtain ⟨hkind, hmode, hattempt⟩ := hvalid old List.mem_cons_self
      obtain ⟨mode, hmode⟩ := Option.isSome_iff_exists.mp hmode
      have hvalid' : ∀ o ∈ rows, o.Valid := fun o ho => hvalid o (List.mem_cons_of_mem _ ho)
      rw [List.map_cons, List.nodup_cons] at hids
      have hkeys' : (rows.filterMap LegacyRow.idempotencyKey).Nodup :=
        ((List.sublist_cons_self old rows).filterMap _).nodup hkeys
      rw [importRows, importRow_eq hkind hmode hattempt]
      by_cases hconf : l.conflicts (old.toJob cfg now mode) = []
      · rw [if_pos hconf]
        simp only
        have hclear' : ∀ o ∈ rows, ¬ o.Clashes { l.reserveRow old.repositoryId with
            jobs := l.jobs.insertNew (old.toJob cfg now mode) } := by
          rintro o ho ⟨hnew, hsome, other, hother, heq⟩
          have hold := conflicts_id hconf
          have hrows : (l.jobs.insertNew (old.toJob cfg now mode)).rows =
              l.jobs.rows ++ [old.toJob cfg now mode] := Table.insertNew_rows hold
          have hnone : l.jobs.get? o.id = none := by
            cases hget : l.jobs.get? o.id with
            | none => rfl
            | some j =>
                have hkept : (l.jobs.insertNew (old.toJob cfg now mode)).get? o.id = some j :=
                  Table.get?_insertNew_of_some hget
                rw [hkept] at hnew
                cases hnew
          rw [hrows, List.mem_append, List.mem_singleton] at hother
          rcases hother with hother | rfl
          · exact hclear o (List.mem_cons_of_mem _ ho) ⟨hnone, hsome, other, hother, heq⟩
          · obtain ⟨k, hk⟩ := Option.isSome_iff_exists.mp hsome
            have hhead : old.idempotencyKey = some k := heq.trans hk
            rw [List.filterMap_cons_some hhead, List.nodup_cons] at hkeys
            exact hkeys.1 (List.mem_filterMap.mpr ⟨o, ho, hk⟩)
        obtain ⟨n', l', himport, hall⟩ :=
          ih hvalid' hids.2 hkeys' hclear' (n + if true then 1 else 0)
        refine ⟨n', l', himport, fun o ho => ?_⟩
        rcases List.mem_cons.mp ho with rfl | ho
        · have hold := conflicts_id hconf
          have hself : (l.jobs.insertNew (o.toJob cfg now mode)).get? o.id =
              some (o.toJob cfg now mode) := Table.get?_insertNew_self hold
          rw [(importRows_jobs himport).1 _ _ hself]
          rfl
        · exact hall o ho
      · rw [if_neg hconf]
        simp only
        have hclear' : ∀ o ∈ rows, ¬ o.Clashes (l.reserveRow old.repositoryId) :=
          fun o ho => hclear o (List.mem_cons_of_mem _ ho)
        obtain ⟨n', l', himport, hall⟩ := ih hvalid' hids.2 hkeys' hclear'
          (n + if false then 1 else 0)
        refine ⟨n', l', himport, fun o ho => ?_⟩
        rcases List.mem_cons.mp ho with rfl | ho
        · cases hget : l.jobs.get? o.id with
          | some j =>
              rw [(importRows_jobs himport).1 _ _ hget]
              rfl
          | none =>
              exact absurd (conflicts_toJob.mpr ⟨hget, hclear o List.mem_cons_self⟩) hconf
        · exact hall o ho

/-- Rows that are all there are imported without effect. -/
theorem importRows_again (hvalid : ∀ old ∈ rows, old.Valid)
    (hreserved : ∀ old ∈ rows, (l.execution.get? old.repositoryId).isSome = true)
    (hthere : ∀ old ∈ rows, (l.jobs.get? old.id).isSome = true) (n : ℕ) :
    importRows cfg now rows n l = .ok (n, l) := by
  induction rows with
  | nil => rfl
  | cons old rows ih =>
      obtain ⟨hkind, hmode, hattempt⟩ := hvalid old List.mem_cons_self
      obtain ⟨mode, hmode⟩ := Option.isSome_iff_exists.mp hmode
      have hconf : l.conflicts (old.toJob cfg now mode) ≠ [] := by
        intro hconf
        have hsome := hthere old List.mem_cons_self
        rw [(conflicts_toJob.mp hconf).1] at hsome
        cases hsome
      have hrest := ih (fun o ho => hvalid o (List.mem_cons_of_mem _ ho))
        (fun o ho => hreserved o (List.mem_cons_of_mem _ ho))
        (fun o ho => hthere o (List.mem_cons_of_mem _ ho))
      rw [importRows, importRow_eq hkind hmode hattempt, if_neg hconf,
        reserveRow_of_reserved (hreserved old List.mem_cons_self)]
      exact hrest

/-- The job that a claim takes was there before, and not over. -/
theorem claimJob_takes {workerId session : String} {locked : Job → Bool} {db db' : Db} {job : Job}
    (hok : db.toLedger.Ok)
    (h : claimJob cfg now workerId session locked db = .ok (some job, db')) :
    ∃ row, db.jobs.get? row.id = some row ∧ row.status.terminal = false ∧
      job = claimedRow cfg now workerId row := by
  unfold claimJob at h
  split at h
  swap
  · cases h
  obtain ⟨k, m, hclean, ⟨hnone, -⟩ | ⟨row, -, hcand, -, hjob, -⟩⟩ := claimLoop_cases hok h
  · cases hnone
  obtain ⟨hrow, hclaim, -, -⟩ := claimCandidate_eq_some hcand
  obtain ⟨-, -, -, hrun⟩ := claimable_iff.mp hclaim
  obtain ⟨done, -, rfl, hfin⟩ := hclean.finalises
  have hnot : row.id ∉ done.map Job.id := by
    intro hmem
    obtain ⟨r, hr, hid⟩ := List.mem_map.mp hmem
    have hleft := hfin.left r hr
    rw [hid, hrow] at hleft
    obtain rfl := Option.some.inj hleft
    have hterm : (exhaustedStatus r).terminal = false := hrun.not_terminal
    rw [exhaustedStatus_terminal r] at hterm
    cases hterm
  rw [hfin.others row.id hnot] at hrow
  exact ⟨row, hrow, hrun.not_terminal, Option.some.inj hjob⟩

end

namespace Coord

variable {cfg : Settings} {s t : Coord} {rows : List LegacyRow}

/-- The import loses no row and repeats safely: every row's job is there, a row with a new id
is carried over, earlier jobs stay as they are, and after any run another import does nothing
and a claim of an imported job is no first attempt. -/
def ImportLaw (cfg : Settings) (s : Coord) (rows : List LegacyRow) : Prop :=
  ∃ n db, s.answer cfg (.importLegacyJobs rows) = .ok (.count n, db) ∧
    (∀ old ∈ rows, (db.jobs.get? old.id).isSome = true) ∧
    (∀ old ∈ rows, s.db.jobs.get? old.id = none →
      ∃ job, db.jobs.get? old.id = some job ∧ old.Carried job) ∧
    (∀ id job, s.db.jobs.get? id = some job → db.jobs.get? id = some job) ∧
    ∀ as t, (system cfg).Run (s.next cfg (.importLegacyJobs rows)) as t →
      t.answer cfg (.importLegacyJobs rows) = .ok (.count 0, t.db) ∧
      ∀ old ∈ rows, s.db.jobs.get? old.id = none → ∀ workerId session locked job db',
        t.answer cfg (.claimJob workerId session locked) = .ok (.job job, db') →
          job.id = old.id → 2 ≤ job.attempt ∧ executedMode job = .incremental

/-- A job that is over or was attempted stays so. -/
theorem run_attempted (h : (system cfg).Reachable s) {as : List Action}
    (hrun : (system cfg).Run s as t) {id : String} {row : Job} (hrow : s.db.jobs.get? id = some row)
    (hrows : row.status.terminal = true ∨ 1 ≤ row.attempt) :
    ∃ row', t.db.jobs.get? id = some row' ∧ (row'.status.terminal = true ∨ 1 ≤ row'.attempt) := by
  refine hrun.stable (P := fun u => ∃ row', u.db.jobs.get? id = some row' ∧
    (row'.status.terminal = true ∨ 1 ≤ row'.attempt)) ?_ h ⟨row, hrow, hrows⟩
  intro u a v hu hget hstep
  obtain ⟨row₁, hrow₁, hattempted⟩ := hget
  obtain ⟨row₂, hrow₂, rfl | hjob⟩ := step_job hu hstep hrow₁
  · exact ⟨row₂, hrow₂, hattempted⟩
  · refine ⟨row₂, hrow₂, Or.inr ?_⟩
    rcases hattempted with hterm | hone
    · rw [hjob.not_terminal] at hterm
      cases hterm
    · rcases hjob.generation with ⟨-, heq⟩ | ⟨-, heq⟩ <;> omega

theorem run_reserved (h : (system cfg).Reachable s) {as : List Action}
    (hrun : (system cfg).Run s as t) {r : String}
    (hr : (s.db.execution.get? r).isSome = true) : (t.db.execution.get? r).isSome = true := by
  refine hrun.stable (P := fun u => (u.db.execution.get? r).isSome = true) ?_ h hr
  intro u a v hu hres hstep
  obtain ⟨-, jobs, -, hserves⟩ := step_serves (reachable_ok hu) hstep
  exact hserves.commit.reserved hres

/-- The next claim of an attempted job is not its first. -/
theorem claim_attempted (h : (system cfg).Reachable t) {id : String} {row : Job}
    (hrow : t.db.jobs.get? id = some row) (hrows : row.status.terminal = true ∨ 1 ≤ row.attempt)
    {workerId session : String} {locked : Job → Bool} {job : Job} {db : Db}
    (hans : t.answer cfg (.claimJob workerId session locked) = .ok (.job job, db))
    (hid : job.id = id) : 2 ≤ job.attempt ∧ executedMode job = .incremental := by
  obtain ⟨r, heq, hr⟩ := replying_ok hans
  cases r with
  | none => cases hr
  | some j =>
      obtain rfl : job = j := Reply.job.inj hr
      obtain ⟨row', hrow', hterm, rfl⟩ := claimJob_takes (reachable_ok h).ledger heq
      have hsame : row'.id = id := hid
      rw [hsame, hrow] at hrow'
      obtain rfl := Option.some.inj hrow'
      have hone : 1 ≤ row.attempt := by
        rcases hrows with hover | hone
        · rw [hover] at hterm
          cases hterm
        · exact hone
      have hattempt : (claimedRow cfg t.now workerId row).attempt = row.attempt + 1 := rfl
      refine ⟨by omega, if_neg ?_⟩
      omega

/-- The import loses a row where its id is new and its key is another job's, and only there. -/
theorem legacy_import_iff (h : (system cfg).Reachable s)
    (hids : (rows.map LegacyRow.id).Nodup)
    (hkeys : (rows.filterMap LegacyRow.idempotencyKey).Nodup) :
    ImportLaw cfg s rows ↔
      (∀ old ∈ rows, old.Valid) ∧ ∀ old ∈ rows, ¬ old.Clashes s.db.toLedger := by
  have hadm : s.Admissible (.importLegacyJobs rows) := by
    intro job hjob
    cases hjob
  have hreach : (system cfg).Reachable (s.next cfg (.importLegacyJobs rows)) := h.step ⟨hadm, rfl⟩
  have himport : ∀ {n : ℕ} {db : Db}, s.answer cfg (.importLegacyJobs rows) = .ok (.count n, db) →
      importRows cfg s.now rows 0 s.db.toLedger = .ok (n, db.toLedger) := by
    intro n db hans
    obtain ⟨m, heq, hm⟩ := replying_ok hans
    obtain rfl : n = m := Reply.count.inj hm
    unfold importLegacyJobs at heq
    split at heq
    · cases heq
    · rename_i hrows
      obtain ⟨rfl, rfl⟩ := Prod.mk.inj (Except.ok.inj heq)
      exact hrows
  have hone : ∀ {o o' : LegacyRow}, o ∈ rows → o' ∈ rows → o.id = o'.id → o = o' := by
    intro o o' ho ho' heq
    exact List.inj_on_of_nodup_map hids ho ho' heq
  constructor
  · rintro ⟨n, db, hans, hall, -, hkeep, -⟩
    have hrows := himport hans
    refine ⟨importRows_valid hrows, fun old hold hclash => ?_⟩
    obtain ⟨hnew, hsome, other, hother, heq⟩ := hclash
    obtain ⟨job, hjob⟩ := Option.isSome_iff_exists.mp (hall old hold)
    have hkey : job.idempotencyKey = old.idempotencyKey := by
      rcases (importRows_jobs hrows).2 old.id job hjob with hgone | ⟨o, ho, hid, mode, rfl⟩
      · rw [hnew] at hgone
        cases hgone
      · obtain rfl := hone ho hold hid
        rfl
    have hheld := hkeep other.id other (Table.get?_of_mem hother)
    have hunique : UniqueOn Job.idempotencyKey db.jobs := by
      rw [← next_of_ok hans]
      exact reachable_unique uniqueColumn_idempotencyKey hreach
    have hid : other.id = old.id := hunique hheld hjob (heq ▸ hsome) (heq.trans hkey.symm)
    rw [← hid, Table.get?_of_mem hother] at hnew
    cases hnew
  · rintro ⟨hvalid, hclear⟩
    obtain ⟨n, l, hrows, hall⟩ : ∃ n l, importRows cfg s.now rows 0 s.db.toLedger = .ok (n, l) ∧
        ∀ old ∈ rows, (l.jobs.get? old.id).isSome = true :=
      importRows_all hvalid hids hkeys hclear 0
    have hans : s.answer cfg (.importLegacyJobs rows) =
        .ok (.count n, { s.db with toLedger := l }) := by
      refine replying_of_ok .count ?_
      rw [importLegacyJobs, hrows]
    have hnext : (s.next cfg (.importLegacyJobs rows)).db.toLedger = l := by
      rw [next_of_ok hans]
    obtain ⟨hkeep, hfrom⟩ := importRows_jobs hrows
    have hmade : ∀ old ∈ rows, s.db.jobs.get? old.id = none →
        ∃ mode, l.jobs.get? old.id = some (old.toJob cfg s.now mode) := by
      intro old hold hnew
      obtain ⟨job, hjob⟩ := Option.isSome_iff_exists.mp (hall old hold)
      rcases hfrom old.id job hjob with hgone | ⟨o, ho, hid, mode, rfl⟩
      · rw [hnew] at hgone
        cases hgone
      · obtain rfl := hone ho hold hid
        exact ⟨mode, hjob⟩
    refine ⟨n, _, hans, hall, fun old hold hnew => ?_, hkeep, fun as t hrun => ⟨?_, ?_⟩⟩
    · obtain ⟨mode, hjob⟩ := hmade old hold hnew
      exact ⟨_, hjob, toJob_carried old mode⟩
    · have hthere : ∀ old ∈ rows, (t.db.jobs.get? old.id).isSome = true := by
        intro old hold
        obtain ⟨job, hjob⟩ := Option.isSome_iff_exists.mp (hall old hold)
        rw [← hnext] at hjob
        obtain ⟨job', hjob', -⟩ := run_column (fun hstep => hstep.id_eq) hreach hrun hjob
        rw [hjob']
        rfl
      have hreserved : ∀ old ∈ rows, (t.db.execution.get? old.repositoryId).isSome = true := by
        intro old hold
        refine run_reserved hreach hrun ?_
        rw [hnext]
        exact importRows_reserved hrows old hold
      refine replying_of_ok .count ?_
      rw [importLegacyJobs, importRows_again hvalid hreserved hthere 0]
    · intro old hold hnew workerId session locked job db' hclaim hid
      obtain ⟨mode, hjob⟩ := hmade old hold hnew
      rw [← hnext] at hjob
      obtain ⟨row, hrow, hattempted⟩ := run_attempted hreach hrun hjob toJob_attempted
      exact claim_attempted (hreach.run hrun) hrow hattempted hclaim hid

/-- An interrupted job of the single-node store, submitted under a key. -/
def interruptedRow : LegacyRow where
  id := "legacy-1"
  repositoryId := "repo"
  kind := "index"
  mode := "full"
  status := "running"
  attempt := 1
  idempotencyKey := some "nightly"
  createdAt := 0
  updatedAt := 0
  cancelRequested := false
  error := none
  indexedFiles := 0
  indexedChunks := 0
  deletedFiles := 0
  skippedFiles := 0
  errorCount := 0
  progressDone := 1
  progressTotal := 3

/-- A job that was over, and one without a key that nobody had begun. -/
def olderRows : List LegacyRow :=
  [{ interruptedRow with id := "legacy-2", status := "completed", idempotencyKey := some "once" },
    { interruptedRow with
      id := "legacy-3", status := "queued", attempt := 0, idempotencyKey := none }]

/-- A job of the new store beside the interrupted one, which was imported before. -/
def importedOnce : List Action :=
  [.submitJob "job-1" "repo" "full" (some "weekly") 0, .importLegacyJobs [interruptedRow]]

/-- The other two rows are imported beside it. -/
theorem legacy_import_iff_interrupted :
    ImportLaw .default ((empty 0).exec .default importedOnce) (interruptedRow :: olderRows) := by
  have hreach : (system .default).Reachable ((empty 0).exec .default importedOnce) :=
    reachable_exec (by decide)
  have hstore : ((empty 0).exec .default importedOnce).db.jobs.rows.map
      (fun job => (job.id, job.idempotencyKey)) =
    [("job-1", some "weekly"), ("legacy-1", some "nightly")] := by decide +kernel
  have hkept : (((empty 0).exec .default importedOnce).db.jobs.get? "legacy-1").isSome = true := by
    decide +kernel
  refine (legacy_import_iff hreach (by decide) (by decide)).mpr ⟨?_, ?_⟩
  · simp [LegacyRow.Valid, interruptedRow, olderRows, Mode.ofText, LegacyRow.importAttempt]
    split <;> decide
  · rintro old hold ⟨hnew, hkeyed, other, hother, hkey⟩
    have hmem : (other.id, other.idempotencyKey) ∈
        [("job-1", some "weekly"), ("legacy-1", some "nightly")] :=
      hstore ▸ List.mem_map_of_mem (f := fun job : Job => (job.id, job.idempotencyKey)) hother
    rw [hkey] at hmem
    simp only [olderRows, List.mem_cons, List.not_mem_nil, or_false] at hold
    rcases hold with rfl | rfl | rfl
    · have hnone : ((empty 0).exec .default importedOnce).db.jobs.get? "legacy-1" = none := hnew
      rw [hnone] at hkept
      cases hkept
    · simp at hmem
    · cases hkeyed

/-- A job of the new store took the key of the interrupted one, which is dropped. -/
theorem legacy_import_loses_row :
    ((((empty 0).exec .default
        [.submitJob "job-1" "repo" "incremental" (some "nightly") 0]).answer .default
          (.importLegacyJobs [interruptedRow])).toOption.map
        fun result => (result.1, result.2.jobs.get? "legacy-1")) = some (.count 0, none) ∧
      ¬ ∀ s rows, (system .default).Reachable s → (rows.map LegacyRow.id).Nodup →
        (rows.filterMap LegacyRow.idempotencyKey).Nodup → ImportLaw .default s rows := by
  have hlost : ((((empty 0).exec .default
      [.submitJob "job-1" "repo" "incremental" (some "nightly") 0]).answer .default
        (.importLegacyJobs [interruptedRow])).toOption.map
      fun result => (result.1, result.2.jobs.get? "legacy-1")) = some (.count 0, none) := by
    decide +kernel
  refine ⟨hlost, fun hlaw => ?_⟩
  have hadmits : (empty 0).Admits .default
      [.submitJob "job-1" "repo" "incremental" (some "nightly") 0] := by decide
  obtain ⟨n, db, hans, hall, -⟩ := hlaw _ [interruptedRow] (reachable_exec hadmits) (by simp)
    (by simp [interruptedRow])
  rw [hans] at hlost
  have hnone : db.jobs.get? "legacy-1" = none := congrArg Prod.snd (Option.some.inj hlost)
  have hsome : (db.jobs.get? "legacy-1").isSome = true := hall _ List.mem_cons_self
  rw [hnone] at hsome
  cases hsome

end Coord

end RepoMesh
