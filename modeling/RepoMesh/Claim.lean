import RepoMesh.Refine

/-!
# The claim loop

`claim_job` finalises expired candidates that are cancelled or out of attempts
until it meets one it can claim, runs out of candidates or has used its 32
iterations. `Cleanup` is the run of finalisations; `claimLoop_cases` says
exactly how the loop ends, and `claimJob_serves` that it is one `Commit`.
-/

namespace RepoMesh

section

variable {R : Rights} {cfg : Settings} {now : Time} {locked : Job → Bool} {l : Ledger} {row : Job}

/-! ## Candidates -/

theorem claimable_iff :
    claimable now l row = true ↔
      ∃ e, l.execution.get? row.repositoryId = some e ∧
        (e.activeJobId = none ∨ e.activeJobId = some row.id) ∧ Runnable now row := by
  unfold claimable
  cases l.execution.get? row.repositoryId with
  | none => simp
  | some e =>
      have hlease : row.leaseExpiresAt.any (· ≤ now) = true ↔
          ∃ t, row.leaseExpiresAt = some t ∧ t ≤ now := by
        cases row.leaseExpiresAt <;> simp
      simp [Runnable, Expired, hlease]

theorem claimCandidate_eq_some (h : claimCandidate now locked l = some row) :
    l.jobs.get? row.id = some row ∧ claimable now l row = true ∧ locked row = false ∧
      ∀ j ∈ l.jobs.rows, claimable now l j = true → locked j = false →
        claimOrder row ≤ claimOrder j := by
  have hmem := List.argmin_mem h
  simp only [List.mem_filter, Bool.and_eq_true, Bool.not_eq_true'] at hmem
  refine ⟨Table.get?_of_mem hmem.1, hmem.2.1, hmem.2.2, ?_⟩
  intro j hj hclaim hlocked
  refine List.le_of_mem_argmin ?_ h
  simp [List.mem_filter, hj, hclaim, hlocked]

theorem claimCandidate_eq_none (h : claimCandidate now locked l = none) :
    ∀ j ∈ l.jobs.rows, claimable now l j = true → locked j = true := by
  intro j hj hclaim
  have hnil := List.filter_eq_nil_iff.mp (List.argmin_eq_none.mp h) j hj
  simpa [hclaim] using hnil

/-- A waiting job always has an attempt left and no cancellation, so only an
expired candidate can be finalised. -/
theorem Runnable.expired_of_exhausted (hok : row.Ok) (h : Runnable now row)
    (hex : exhausted row = true) : Expired now row := by
  rcases h with ⟨hw, -⟩ | h
  · have hfalse : exhausted row = false :=
      exhausted_eq_false.mpr ⟨hok.waiting_cancel hw, hok.waiting_budget hw⟩
    rw [hfalse] at hex
    cases hex
  · exact h

/-! ## One iteration -/

theorem exhaustJob_eq {db : Db} (hok : db.toLedger.Ok) (hrow : db.jobs.get? row.id = some row)
    (hexp : Expired now row) :
    exhaustJob now row db =
      .ok ((), { db with
        toLedger := exhaustLedger now row db.toLedger
        workers := exhaustWorkers row db.workers }) := by
  have hok' : (exhaustedRow now row).Ok := exhaustedRow_ok (hok.rows hrow)
  have hput : (expireAttempt now row db.toLedger).putJob (exhaustedRow now row) =
      .ok ((expireAttempt now row db.toLedger).setJob (exhaustedRow now row)) :=
    putJob_eq_of_not_running hok'
      (JobStatus.ne_running_of_terminal (exhaustedStatus_terminal row))
  unfold exhaustJob
  rw [hput]
  simp only [hexp.1, if_true]
  rfl

/-- The attempt row a claim inserts is new. -/
theorem claimAttempt_new (cfg : Settings) (now : Time) (hok : l.Ok) (hrow : l.jobs.get? row.id = some row)
    (workerId : String) :
    (reserveLedger cfg now workerId row l).attempts.get?
      (claimAttempt cfg now workerId row).key = none := by
  have hsame : SameAttempts l (reserveLedger cfg now workerId row l) :=
    fun k => expireAttempt_same now row l k
  rw [← Option.not_isSome_iff_eq_none, hsame]
  show ¬ (l.attempts.get? (row.id, row.leaseGeneration + 1)).isSome = true
  rw [hok.attempts]
  rintro ⟨r, hr, -, hle⟩
  obtain rfl : row = r := Option.some.inj (hrow.symm.trans hr)
  omega

theorem takeJob_eq {db : Db} (hok : db.toLedger.Ok) (hrow : db.jobs.get? row.id = some row)
    (hclaim : claimable now db.toLedger row = true) (hex : exhausted row = false)
    (workerId session : String) :
    takeJob cfg now workerId session row db =
      match db.workers.get? workerId with
      | none => .error (.leaseLost "worker registry session lost during claim")
      | some w =>
          if w.sessionId = session then
            .ok (claimedRow cfg now workerId row,
              { db with
                toLedger := claimLedger cfg now workerId row db.toLedger
                workers := claimWorkers now workerId row.id db.workers })
          else .error (.leaseLost "worker registry session lost during claim") := by
  obtain ⟨e, he, hfree, hrun⟩ := claimable_iff.mp hclaim
  have hstep : JobStep cfg now row (claimedRow cfg now workerId row) := .claim workerId hrun hex
  have hput : (expireAttempt now row db.toLedger).putJob (claimedRow cfg now workerId row) =
      .ok ((expireAttempt now row db.toLedger).setJob (claimedRow cfg now workerId row)) :=
    putJob_eq hok (expireAttempt_jobs now row _) (hstep.ok (hok.rows hrow)) he hfree
  have hnew := claimAttempt_new cfg now hok hrow workerId
  rw [reserveLedger] at hnew
  unfold takeJob
  simp only [hput, hnew, Option.isSome_none, Bool.false_eq_true, if_false]
  rfl

/-! ## The loop -/

variable (now locked) in
/-- `n` finalisations in the order the loop makes them. -/
inductive Cleanup : Nat → Ledger → Ledger → Prop where
  | nil (l : Ledger) : Cleanup 0 l l
  | cons {n : Nat} {l m : Ledger} {row : Job} :
      claimCandidate now locked l = some row → Expired now row → exhausted row = true →
      Cleanup n (exhaustLedger now row l) m → Cleanup (n + 1) l m

theorem Cleanup.preludes {n : Nat} {l m : Ledger} (h : Cleanup now locked n l m) :
    Relation.ReflTransGen (Prelude R now) l m := by
  induction h with
  | nil l => exact .refl
  | cons hcand hexp hex _ ih =>
      exact .head (.exhaust (claimCandidate_eq_some hcand).1 hexp hex) ih

/-- A finalisation inserts nothing. -/
theorem Cleanup.get?_none {n : Nat} {l m : Ledger} (h : Cleanup now locked n l m) {id : String}
    (hnone : l.jobs.get? id = none) : m.jobs.get? id = none := by
  induction h with
  | nil l => exact hnone
  | @cons n l m row hcand _ _ _ ih =>
      have hrow := (claimCandidate_eq_some hcand).1
      refine ih ?_
      rw [get?_jobs_exhaustLedger hrow]
      split
      · rename_i hid
        rw [hid, hrow] at hnone
        cases hnone
      · exact hnone

/-- How the loop ends with `n` iterations left: after `k` finalisations it finds
nothing more to do, or claims the next candidate. -/
theorem claimLoop_cases {workerId session : String} {n : Nat} {db db' : Db}
    {r : Option Job} (hok : db.toLedger.Ok)
    (h : claimLoop cfg now workerId session locked n db = .ok (r, db')) :
    ∃ k m, Cleanup now locked k db.toLedger m ∧
      (r = none ∧ db'.toLedger = m ∧ (k = n ∨ k < n ∧ claimCandidate now locked m = none) ∨
        ∃ row, k < n ∧ claimCandidate now locked m = some row ∧ exhausted row = false ∧
          r = some (claimedRow cfg now workerId row) ∧
          db'.toLedger = claimLedger cfg now workerId row m) := by
  induction n generalizing db with
  | zero =>
      obtain ⟨rfl, rfl⟩ := Prod.mk.inj (Except.ok.inj h)
      exact ⟨0, _, .nil _, Or.inl ⟨rfl, rfl, Or.inl rfl⟩⟩
  | succ n ih =>
      simp only [claimLoop] at h
      split at h
      · rename_i hcand
        obtain ⟨rfl, rfl⟩ := Prod.mk.inj (Except.ok.inj h)
        exact ⟨0, _, .nil _, Or.inl ⟨rfl, rfl, Or.inr ⟨Nat.succ_pos n, hcand⟩⟩⟩
      · rename_i row hcand
        obtain ⟨hrow, hclaim, -, -⟩ := claimCandidate_eq_some hcand
        obtain ⟨-, -, -, hrun⟩ := claimable_iff.mp hclaim
        split at h
        · rename_i hex
          have hexp := hrun.expired_of_exhausted (hok.rows hrow) hex
          rw [exhaustJob_eq hok hrow hexp] at h
          have hok' : (exhaustLedger now row db.toLedger).Ok :=
            exhaustLedger_ok hok hrow hexp
          obtain ⟨k, m, hclean, hend⟩ := ih hok' h
          refine ⟨k + 1, m, .cons hcand hexp hex hclean, ?_⟩
          rcases hend with ⟨hr, hdb, hk | ⟨hk, hnone⟩⟩ | ⟨row', hk, hrest⟩
          · exact Or.inl ⟨hr, hdb, Or.inl (by omega)⟩
          · exact Or.inl ⟨hr, hdb, Or.inr ⟨by omega, hnone⟩⟩
          · exact Or.inr ⟨row', by omega, hrest⟩
        · rename_i hex
          rw [Bool.not_eq_true] at hex
          rw [takeJob_eq hok hrow hclaim hex] at h
          refine ⟨0, _, .nil _, Or.inr ⟨row, Nat.succ_pos n, hcand, hex, ?_⟩⟩
          split at h
          · cases h
          · rename_i heq
            split at heq
            · cases heq
            · split at heq
              · obtain ⟨rfl, rfl⟩ := Prod.mk.inj (Except.ok.inj heq)
                obtain ⟨rfl, rfl⟩ := Prod.mk.inj (Except.ok.inj h)
                exact ⟨rfl, rfl⟩
              · cases heq

/-- The loop fails only when the registry session went away. -/
theorem claimLoop_error {workerId session : String} {n : Nat} {db : Db} {e : Error}
    (hok : db.toLedger.Ok) (h : claimLoop cfg now workerId session locked n db = .error e) :
    e = .leaseLost "worker registry session lost during claim" := by
  induction n generalizing db with
  | zero => cases h
  | succ n ih =>
      simp only [claimLoop] at h
      split at h
      · cases h
      · rename_i row hcand
        obtain ⟨hrow, hclaim, -, -⟩ := claimCandidate_eq_some hcand
        obtain ⟨-, -, -, hrun⟩ := claimable_iff.mp hclaim
        split at h
        · rename_i hex
          have hexp := hrun.expired_of_exhausted (hok.rows hrow) hex
          rw [exhaustJob_eq hok hrow hexp] at h
          exact ih (exhaustLedger_ok hok hrow hexp) h
        · rename_i hex
          rw [Bool.not_eq_true] at hex
          rw [takeJob_eq hok hrow hclaim hex] at h
          split at h
          · rename_i heq
            obtain rfl := Except.error.inj h
            split at heq
            · exact (Except.error.inj heq).symm
            · split at heq
              · cases heq
              · exact (Except.error.inj heq).symm
          · cases h

/-- A claim is one transaction: the cleanups are its prelude. -/
theorem claimJob_serves {workerId session : String} {db db' : Db} {r : Option Job}
    (hok : db.toLedger.Ok)
    (h : claimJob cfg now workerId session locked db = .ok (r, db')) :
    Serves (.claim workerId) cfg now db (Reply.ofJob? r).jobs db' := by
  unfold claimJob at h
  split at h
  · obtain ⟨k, m, hclean, ⟨rfl, hdb, -⟩ | ⟨row, -, hcand, hex, rfl, hdb⟩⟩ :=
      claimLoop_cases hok h
    · exact ⟨⟨m, hclean.preludes, Or.inl hdb⟩, by simp [Reply.ofJob?, Reply.jobs]⟩
    · obtain ⟨hrow, hclaim, -, -⟩ := claimCandidate_eq_some hcand
      obtain ⟨e, he, hfree, hrun⟩ := claimable_iff.mp hclaim
      have hclaimed : Effect (.claim workerId) cfg now m db'.toLedger :=
        hdb ▸ .claim workerId rfl hrow hrun hex he hfree
      refine ⟨⟨m, hclean.preludes, Or.inr ⟨fun _ => hclean.get?_none, hclaimed⟩⟩, ?_⟩
      have hcur := setJob_current (claimedRow cfg now workerId row) hrow rfl
      simpa [Reply.ofJob?, Reply.jobs, hdb, claimLedger_jobs] using hcur
  · cases h

end

end RepoMesh
