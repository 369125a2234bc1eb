import RepoMesh.WorkerCounters

/-!
# What becomes of an attempt row

Rows of `job_attempts` are inserted by claims and never deleted. After that a row keeps
who was claimed what and when (`Attempt.Kept`); only the open row of a running job is
written again, and the row that is closed is final. `Effect.touch` says what an effect does to
one job and its attempts; `Effect.attempt_cases` reads it backwards, from a row of the
new ledger to where it came from, and `run_attempt_kept` forwards along a run.
-/

namespace RepoMesh

/-- What no statement writes after the insertion of an attempt row. -/
structure Attempt.Kept (a a' : Attempt) : Prop where
  jobId : a'.jobId = a.jobId
  leaseGeneration : a'.leaseGeneration = a.leaseGeneration
  workerId : a'.workerId = a.workerId
  attempt : a'.attempt = a.attempt
  claimedAt : a'.claimedAt = a.claimedAt
  reclaimed : a'.reclaimed = a.reclaimed

theorem Attempt.Kept.refl (a : Attempt) : a.Kept a :=
  ⟨rfl, rfl, rfl, rfl, rfl, rfl⟩

theorem Attempt.Kept.trans {a b c : Attempt} (h : a.Kept b) (h' : b.Kept c) : a.Kept c where
  jobId := h'.jobId.trans h.jobId
  leaseGeneration := h'.leaseGeneration.trans h.leaseGeneration
  workerId := h'.workerId.trans h.workerId
  attempt := h'.attempt.trans h.attempt
  claimedAt := h'.claimedAt.trans h.claimedAt
  reclaimed := h'.reclaimed.trans h.reclaimed

section

variable {R : Rights} {cfg : Settings} {now : Time} {l l' : Ledger} {id : String} {g : Nat}

/-- What an effect does to the row of one job and to the attempts of that job. -/
inductive Touch (cfg : Settings) (now : Time) (l l' : Ledger) (id : String) : Prop where
  | still : l'.jobs.get? id = l.jobs.get? id →
      (∀ g, l'.attempts.get? (id, g) = l.attempts.get? (id, g)) → Touch cfg now l l' id
  | born {row : Job} : row.Fresh → l.jobs.get? id = none → l'.jobs.get? id = some row →
      (∀ g, l'.attempts.get? (id, g) = l.attempts.get? (id, g)) → Touch cfg now l l' id
  | cancel {row : Job} : l.jobs.get? id = some row → row.status.terminal = false →
      l'.jobs.get? id = some (cancelRow now row) →
      (∀ g, l'.attempts.get? (id, g) = l.attempts.get? (id, g)) → Touch cfg now l l' id
  | progress {row : Job} (stats : IndexStats) : l.jobs.get? id = some row → Live now row →
      l'.jobs.get? id = some (progressRow now stats row) →
      (∀ g, l'.attempts.get? (id, g) = l.attempts.get? (id, g)) → Touch cfg now l l' id
  | renew {row : Job} : l.jobs.get? id = some row → Live now row →
      l'.jobs.get? id = some (renewedRow cfg now row) →
      (∀ g, l'.attempts.get? (id, g) = (l.attempts.get? (id, g)).map fun a =>
        if g = row.leaseGeneration then renewedAttempt cfg now a else a) → Touch cfg now l l' id
  | exhaust {row : Job} : l.jobs.get? id = some row → Expired now row → exhausted row = true →
      l'.jobs.get? id = some (exhaustedRow now row) →
      (∀ g, l'.attempts.get? (id, g) = (l.attempts.get? (id, g)).map fun a =>
        if g = row.leaseGeneration then exhaustedAttempt now row a else a) →
      Touch cfg now l l' id
  | claim {row : Job} (workerId : String) : l.jobs.get? id = some row → Runnable now row →
      exhausted row = false → l'.jobs.get? id = some (claimedRow cfg now workerId row) →
      (∀ g, l'.attempts.get? (id, g) = if g = row.leaseGeneration + 1 then
        some (claimAttempt cfg now workerId row)
        else (expireAttempt now row l).attempts.get? (id, g)) → Touch cfg now l l' id
  | finish {row : Job} (status : JobStatus) (error : Option String) (delay : Time) :
      l.jobs.get? id = some row → Live now row → Finishing row status →
      l'.jobs.get? id = some (finishRow now status error delay row) →
      (∀ g, l'.attempts.get? (id, g) = (l.attempts.get? (id, g)).map fun a =>
        if g = row.leaseGeneration then finishedAttempt now status error row a else a) →
      Touch cfg now l l' id

/-- An effect on another job. -/
theorem Touch.of_ne {row : Job} (row' : Job) (hrow : l.jobs.get? row.id = some row)
    (hid' : row'.id = row.id) (hid : id ≠ row.id) (hjobs : l'.jobs = (l.setJob row').jobs)
    (hattempts : ∀ g, (id, g).1 ≠ row.id →
      l'.attempts.get? (id, g) = l.attempts.get? (id, g)) : Touch cfg now l l' id := by
  refine .still ?_ fun g => hattempts g hid
  rw [hjobs, get?_setJob_of_get? row' hrow hid', if_neg hid]

theorem Effect.touch (h : Effect R cfg now l l') (hok : l.Ok) (id : String) :
    Touch cfg now l l' id := by
  have hself : ∀ {row : Job} (row' : Job), l.jobs.get? row.id = some row → row'.id = row.id →
      l'.jobs = (l.setJob row').jobs → l'.jobs.get? row.id = some row' := by
    intro row row' hrow hid hjobs
    rw [hjobs, get?_setJob_of_get? row' hrow hid, if_pos rfl]
  have hmap : ∀ {row : Job} (f : Attempt → Attempt) (i : String) (g : Nat),
      (l.attempts.get? (i, g)).map (fun a =>
        if (i, g) = (row.id, row.leaseGeneration) then f a else a) =
      (l.attempts.get? (i, g)).map fun a =>
        if i = row.id ∧ g = row.leaseGeneration then f a else a := by
    intro row f i g
    simp only [Prod.mk.injEq]
  have hother : ∀ {row : Job} (f : Attempt → Attempt) (i : String) (g : Nat), i ≠ row.id →
      (l.attempts.get? (i, g)).map (fun a =>
        if (i, g) = (row.id, row.leaseGeneration) then f a else a) = l.attempts.get? (i, g) := by
    intro row f i g hne
    rw [hmap]
    simp [hne]
  cases h with
  | prelude h =>
      cases h with
      | reserve => exact .still rfl fun _ => rfl
      | @insert row hfresh _ hconf _ =>
          by_cases hid : row.id = id
          · subst hid
            exact .born hfresh (conflicts_id hconf) (Table.get?_insertNew_self (conflicts_id hconf))
              fun _ => rfl
          · exact .still (Table.get?_insertNew_of_ne hid) fun _ => rfl
      | @exhaust row hrow hexp hex =>
          by_cases hid : id = row.id
          · subst hid
            refine .exhaust hrow hexp hex (hself _ hrow rfl (exhaustLedger_jobs _ _ _)) fun g => ?_
            rw [get?_exhaustLedger hexp.1, hmap]
            simp
          · refine .of_ne (exhaustedRow now row) hrow rfl hid (exhaustLedger_jobs _ _ _)
              fun g hne => ?_
            rw [get?_exhaustLedger hexp.1, hother _ _ _ hne]
  | @cancel row hrow hterm =>
      by_cases hid : id = row.id
      · subst hid
        exact .cancel hrow hterm (hself _ hrow rfl rfl) fun _ => rfl
      · exact .of_ne (cancelRow now row) hrow rfl hid rfl fun _ _ => rfl
  | @progress row stats hrow hlive =>
      by_cases hid : id = row.id
      · subst hid
        exact .progress stats hrow hlive (hself _ hrow rfl rfl) fun _ => rfl
      · exact .of_ne (progressRow now stats row) hrow rfl hid rfl fun _ _ => rfl
  | @renew row hrow hlive =>
      have hget : ∀ k, (renewLedger cfg now row l).attempts.get? k =
          (l.attempts.get? k).map fun a =>
            if k = (row.id, row.leaseGeneration) then renewedAttempt cfg now a else a := by
        intro k
        rw [renewLedger, Ledger.get?_updateAttempt, Ledger.setJob_attempts]
        simp only [and_true]
      by_cases hid : id = row.id
      · subst hid
        refine .renew hrow hlive (hself _ hrow rfl (renewLedger_jobs _ _ _ _)) fun g => ?_
        rw [hget, hmap]
        simp
      · refine .of_ne (renewedRow cfg now row) hrow rfl hid (renewLedger_jobs _ _ _ _)
          fun g hne => ?_
        rw [hget, hother _ _ _ hne]
  | @claim row e workerId _ hrow hrunnable hex _ _ =>
      by_cases hid : id = row.id
      · subst hid
        refine .claim workerId hrow hrunnable hex
          (hself _ hrow rfl (claimLedger_jobs _ _ _ _ _)) fun g => ?_
        rw [get?_claimLedger cfg hok hrow]
        simp
      · refine .of_ne (claimedRow cfg now workerId row) hrow rfl hid (claimLedger_jobs _ _ _ _ _)
          fun g hne => ?_
        rw [get?_claimLedger cfg hok hrow, if_neg fun hk => hne (Prod.mk.inj hk).1,
          get?_expireAttempt]
        simp [hne]
  | @finish row status error delay hrow hlive hstatus =>
      by_cases hid : id = row.id
      · subst hid
        refine .finish status error delay hrow hlive hstatus
          (hself _ hrow rfl (finishLedger_jobs _ _ _ _ _ _)) fun g => ?_
        rw [get?_finishLedger, hmap]
        simp
      · refine .of_ne (finishRow now status error delay row) hrow rfl hid
          (finishLedger_jobs _ _ _ _ _ _) fun g hne => ?_
        rw [get?_finishLedger, hother _ _ _ hne]

/-- Where a row of the ledger after an effect comes from: a claim of the job has inserted
it, or it was there, and was written only if it is the row of a running job. -/
theorem Effect.attempt_cases (h : Effect R cfg now l l') (hok : l.Ok) {a' : Attempt}
    (ha' : l'.attempts.get? (id, g) = some a') :
    (∃ row workerId, l.jobs.get? id = some row ∧ Runnable now row ∧
        g = row.leaseGeneration + 1 ∧ a' = claimAttempt cfg now workerId row ∧
        l'.attempts.get? (id, row.leaseGeneration) =
          (expireAttempt now row l).attempts.get? (id, row.leaseGeneration)) ∨
      ∃ a, l.attempts.get? (id, g) = some a ∧ a.Kept a' ∧
        (a' = a ∨ ∃ row, l.jobs.get? id = some row ∧ row.status = .running ∧
          row.leaseGeneration = g) := by
  have hupdate : ∀ {row : Job} (f : Attempt → Attempt), l.jobs.get? id = some row →
      row.status = .running → (∀ a : Attempt, a.Kept (f a)) →
      (l.attempts.get? (id, g)).map (fun a => if g = row.leaseGeneration then f a else a) =
        some a' →
      ∃ a, l.attempts.get? (id, g) = some a ∧ a.Kept a' ∧
        (a' = a ∨ ∃ row, l.jobs.get? id = some row ∧ row.status = .running ∧
          row.leaseGeneration = g) := by
    intro row f hrow hrun hkept hmap
    obtain ⟨a, ha, rfl⟩ := Option.map_eq_some_iff.mp hmap
    refine ⟨a, ha, ?_⟩
    split
    · rename_i hk
      exact ⟨hkept a, Or.inr ⟨row, hrow, hrun, hk.symm⟩⟩
    · exact ⟨.refl a, Or.inl rfl⟩
  cases h.touch hok id with
  | still _ hatt | born _ _ _ hatt | cancel _ _ _ hatt | progress _ _ _ _ hatt =>
      exact Or.inr ⟨a', hatt g ▸ ha', .refl a', Or.inl rfl⟩
  | renew hrow hlive _ hatt =>
      exact Or.inr (hupdate (renewedAttempt cfg now) hrow hlive.1
        (fun _ => ⟨rfl, rfl, rfl, rfl, rfl, rfl⟩) (hatt g ▸ ha'))
  | exhaust hrow hexp _ _ hatt =>
      exact Or.inr (hupdate (exhaustedAttempt now _) hrow hexp.1
        (fun _ => ⟨rfl, rfl, rfl, rfl, rfl, rfl⟩) (hatt g ▸ ha'))
  | finish status error _ hrow hlive _ _ hatt =>
      exact Or.inr (hupdate (finishedAttempt now status error _) hrow hlive.1
        (fun _ => ⟨rfl, rfl, rfl, rfl, rfl, rfl⟩) (hatt g ▸ ha'))
  | @claim row workerId hrow hrunnable _ _ hatt =>
      rw [hatt] at ha'
      split at ha'
      · rename_i hk
        refine Or.inl ⟨row, workerId, hrow, hrunnable, hk, (Option.some.inj ha').symm, ?_⟩
        rw [hatt, if_neg (Nat.ne_of_lt (Nat.lt_succ_self _))]
      · rw [get?_expireAttempt] at ha'
        obtain ⟨a, ha, rfl⟩ := Option.map_eq_some_iff.mp ha'
        refine Or.inr ⟨a, ha, ?_⟩
        split
        · rename_i hcur
          obtain ⟨hrun, hk, -⟩ := hcur
          exact ⟨⟨rfl, rfl, rfl, rfl, rfl, rfl⟩,
            Or.inr ⟨row, hrow, hrun, (Prod.mk.inj hk).2.symm⟩⟩
        · exact ⟨.refl a, Or.inl rfl⟩

/-- Across an effect a row stays, and once closed it is final. -/
theorem Effect.attempt_kept (h : Effect R cfg now l l') (hok : l.Ok) (htime : l.Timeline now)
    {a : Attempt} (ha : l.attempts.get? (id, g) = some a) :
    ∃ a', l'.attempts.get? (id, g) = some a' ∧ a.Kept a' ∧
      (a.endedAt.isSome = true → a' = a) := by
  obtain ⟨a', ha', -⟩ := h.attempt_worker hok ha
  refine ⟨a', ha', ?_⟩
  rcases h.attempt_cases hok ha' with ⟨row, _, hrow, -, rfl, -⟩ | ⟨b, hb, hkept, hcase⟩
  · obtain ⟨r, hr, -, hle⟩ := (hok.attempts id (row.leaseGeneration + 1)).mp (by rw [ha]; rfl)
    obtain rfl : row = r := Option.some.inj (hrow.symm.trans hr)
    omega
  · obtain rfl : a = b := Option.some.inj (ha.symm.trans hb)
    refine ⟨hkept, fun hended => ?_⟩
    rcases hcase with rfl | ⟨row, hrow, hrun, hgen⟩
    · rfl
    · have hopen := (htime.current ha).mpr ⟨row, hrow, hrun, hgen⟩
      rw [hopen] at hended
      cases hended

/-- What every effect keeps, a commit keeps. -/
theorem Commit.induct {I : Ledger → Prop} (h : Commit R cfg now l l') (hok : l.Ok)
    (htime : l.Timeline now) (hI : I l)
    (heff : ∀ {m n : Ledger}, Effect R cfg now m n → m.Ok → m.Timeline now → I m → I n) :
    I l' := by
  obtain ⟨m, hm, hlast⟩ := h
  obtain ⟨hokm, htimem, hIm⟩ : m.Ok ∧ m.Timeline now ∧ I m := by
    clear hlast
    induction hm with
    | refl => exact ⟨hok, htime, hI⟩
    | tail _ hstep ih =>
        obtain ⟨hokm, htimem, hIm⟩ := ih
        exact ⟨hstep.ok hokm, hstep.timeline hokm htimem, heff (.prelude hstep) hokm htimem hIm⟩
  rcases hlast with rfl | ⟨-, hlast⟩
  · exact hIm
  · exact heff hlast hokm htimem hIm

theorem Commit.attempt_kept (h : Commit R cfg now l l') (hok : l.Ok) (htime : l.Timeline now)
    {a : Attempt} (ha : l.attempts.get? (id, g) = some a) :
    ∃ a', l'.attempts.get? (id, g) = some a' ∧ a.Kept a' ∧
      (a.endedAt.isSome = true → a' = a) := by
  refine h.induct (I := fun m => ∃ a', m.attempts.get? (id, g) = some a' ∧ a.Kept a' ∧
    (a.endedAt.isSome = true → a' = a)) hok htime ⟨a, ha, .refl a, fun _ => rfl⟩ ?_
  rintro m n heff hokm htimem ⟨b, hb, hkept, hfinal⟩
  obtain ⟨c, hc, hkept', hfinal'⟩ := heff.attempt_kept hokm htimem hb
  refine ⟨c, hc, hkept.trans hkept', fun hended => ?_⟩
  obtain rfl := hfinal hended
  exact hfinal' hended

end

namespace Coord

variable {cfg : Settings} {s t : Coord} {k : String × Nat} {a : Attempt}

/-- Along a run a row stays, and once closed it is final. -/
theorem run_attempt_kept (h : (system cfg).Reachable s) {as : List Action}
    (hrun : (system cfg).Run s as t) (ha : s.db.attempts.get? k = some a) :
    ∃ a', t.db.attempts.get? k = some a' ∧ a.Kept a' ∧ (a.endedAt.isSome = true → a' = a) := by
  have hkeep : ∀ u b v, (system cfg).Reachable u →
      (∃ a', u.db.attempts.get? k = some a' ∧ a.Kept a' ∧ (a.endedAt.isSome = true → a' = a)) →
      (system cfg).step u b v →
      ∃ a', v.db.attempts.get? k = some a' ∧ a.Kept a' ∧ (a.endedAt.isSome = true → a' = a) := by
    rintro u b v hu ⟨a', ha', hkept, hfinal⟩ hstep
    obtain ⟨-, jobs, -, hserves⟩ := step_serves (reachable_ok hu) hstep
    obtain ⟨c, hc, hkept', hfinal'⟩ :=
      hserves.commit.attempt_kept (reachable_ok hu).ledger (reachable_timeline hu) ha'
    refine ⟨c, hc, hkept.trans hkept', fun hended => ?_⟩
    obtain rfl := hfinal hended
    exact hfinal' hended
  have hlater := hrun.stable hkeep h ⟨a, ha, .refl a, fun _ => rfl⟩
  exact hlater

end Coord

end RepoMesh
