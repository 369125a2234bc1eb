import RepoMesh.Lifecycle

/-!
# The reservation invariant

Every effect keeps `Ledger.Ok`. The reservation lives in a second table that
only three effects write, so the cases are by what happens to the one job that
moves: it keeps running or keeps not running and the reservations stay
(`Ok.stay`), it starts running and takes the reservation (`Ok.start`), or it
stops and frees it (`Ok.stop`).
-/

namespace RepoMesh

section

variable {l l' : Ledger} {row row' : Job}

/-- The attempt rows after a move that opens none. -/
def SameAttempts (l l' : Ledger) : Prop :=
  ∀ k, (l'.attempts.get? k).isSome = (l.attempts.get? k).isSome

theorem SameAttempts.trans {l l' l'' : Ledger} (h : SameAttempts l l')
    (h' : SameAttempts l' l'') : SameAttempts l l'' :=
  fun k => (h' k).trans (h k)

theorem updateAttempt_same (l : Ledger) (j : String) (g : Nat) (p : Attempt → Bool)
    (f : Attempt → Attempt) (hf : ∀ a, (f a).key = a.key) :
    SameAttempts l (l.updateAttempt j g p f hf) := fun k => by
  rw [Ledger.get?_updateAttempt, Option.isSome_map]

theorem expireAttempt_same (now : Time) (row : Job) (l : Ledger) :
    SameAttempts l (expireAttempt now row l) := by
  unfold expireAttempt
  split
  · exact fun k => updateAttempt_same _ _ _ _ _ _ k
  · exact fun _ => rfl

/-- Which attempt rows exist, after a move that opens none and keeps the
generation. -/
theorem Ledger.Ok.attempts_of_same (h : l.Ok) (hrow : l.jobs.get? row.id = some row)
    (hgen : row'.leaseGeneration = row.leaseGeneration)
    (hjobs : ∀ id, l'.jobs.get? id = if id = row.id then some row' else l.jobs.get? id)
    (hsame : SameAttempts l l') (id : String) (g : Nat) :
    (l'.attempts.get? (id, g)).isSome = true ↔
      ∃ r, l'.jobs.get? id = some r ∧ 1 ≤ g ∧ g ≤ r.leaseGeneration := by
  rw [hsame, h.attempts, hjobs]
  by_cases hid : id = row.id
  · rw [if_pos hid, hid]
    constructor
    · rintro ⟨r, hr, h1, h2⟩
      obtain rfl : row = r := Option.some.inj (hrow.symm.trans hr)
      exact ⟨row', rfl, h1, hgen ▸ h2⟩
    · rintro ⟨r, hr, h1, h2⟩
      obtain rfl : row' = r := Option.some.inj hr
      exact ⟨row, hrow, h1, hgen ▸ h2⟩
  · rw [if_neg hid]

theorem rows_of_move (h : l.Ok) (hok : row'.Ok)
    (hjobs : ∀ id, l'.jobs.get? id = if id = row.id then some row' else l.jobs.get? id)
    {id : String} {r : Job} (hr : l'.jobs.get? id = some r) : r.Ok := by
  rw [hjobs] at hr
  split at hr
  · exact Option.some.inj hr ▸ hok
  · exact h.rows hr

/-- The moving job keeps running, or keeps not running. -/
theorem Ledger.Ok.stay (h : l.Ok) (hrow : l.jobs.get? row.id = some row) (hok : row'.Ok)
    (hrepo : row'.repositoryId = row.repositoryId)
    (hgen : row'.leaseGeneration = row.leaseGeneration)
    (hrun : row'.status = .running ↔ row.status = .running)
    (hjobs : ∀ id, l'.jobs.get? id = if id = row.id then some row' else l.jobs.get? id)
    (hexec : l'.execution = l.execution) (hsame : SameAttempts l l') : l'.Ok where
  rows := rows_of_move h hok hjobs
  reserved := by
    intro id r hr
    rw [hjobs] at hr
    rw [hexec]
    split at hr
    · obtain rfl := Option.some.inj hr
      rw [hrepo]
      exact h.reserved hrow
    · exact h.reserved hr
  active := by
    intro r e id he hid
    rw [hexec] at he
    obtain ⟨j, hj, hjr, hjrun⟩ := h.active he hid
    rw [hjobs]
    by_cases heq : id = row.id
    · subst heq
      obtain rfl : row = j := Option.some.inj (hrow.symm.trans hj)
      exact ⟨row', if_pos rfl, hrepo.trans hjr, hrun.mpr hjrun⟩
    · exact ⟨j, by rw [if_neg heq, hj], hjr, hjrun⟩
  running := by
    intro id r hr hrrun
    rw [hjobs] at hr
    rw [hexec]
    split at hr
    · rename_i heq
      obtain rfl := Option.some.inj hr
      rw [hrepo, heq]
      exact h.running hrow (hrun.mp hrrun)
    · exact h.running hr hrrun
  attempts := h.attempts_of_same hrow hgen hjobs hsame

/-- The moving job was running and stops: its repository is free afterwards. -/
theorem Ledger.Ok.stop (h : l.Ok) (hrow : l.jobs.get? row.id = some row) (hok : row'.Ok)
    (hrepo : row'.repositoryId = row.repositoryId)
    (hgen : row'.leaseGeneration = row.leaseGeneration)
    (hwas : row.status = .running) (hrun : row'.status ≠ .running)
    (hjobs : ∀ id, l'.jobs.get? id = if id = row.id then some row' else l.jobs.get? id)
    (hexec : ∀ r, l'.execution.get? r =
      if r = row.repositoryId then some ⟨r, none⟩ else l.execution.get? r)
    (hsame : SameAttempts l l') : l'.Ok where
  rows := rows_of_move h hok hjobs
  reserved := by
    intro id r hr
    rw [hexec]
    split
    · rfl
    · rename_i hne
      rw [hjobs] at hr
      split at hr
      · obtain rfl := Option.some.inj hr
        exact absurd hrepo hne
      · exact h.reserved hr
  active := by
    intro r e id he hid
    rw [hexec] at he
    split at he
    · obtain rfl := Option.some.inj he
      cases hid
    · rename_i hne
      obtain ⟨j, hj, hjr, hjrun⟩ := h.active he hid
      have hidne : id ≠ row.id := by
        rintro rfl
        obtain rfl : row = j := Option.some.inj (hrow.symm.trans hj)
        exact hne hjr.symm
      exact ⟨j, by rw [hjobs, if_neg hidne, hj], hjr, hjrun⟩
  running := by
    intro id r hr hrrun
    rw [hjobs] at hr
    split at hr
    · obtain rfl := Option.some.inj hr
      exact absurd hrrun hrun
    · rename_i hne
      have hexecr := h.running hr hrrun
      have hrne : r.repositoryId ≠ row.repositoryId := by
        intro heq
        have hactive := h.running hrow hwas
        rw [← heq, hexecr] at hactive
        have : id = row.id := by simpa using hactive
        exact hne this
      rw [hexec, if_neg hrne, hexecr]
  attempts := h.attempts_of_same hrow hgen hjobs hsame

/-- The moving job starts running, or runs on under a new claim: it held the
reservation already, or nobody did. -/
theorem Ledger.Ok.start (h : l.Ok) (hrow : l.jobs.get? row.id = some row) (hok : row'.Ok)
    (hrepo : row'.repositoryId = row.repositoryId)
    (hgen : row'.leaseGeneration = row.leaseGeneration + 1) (hrun : row'.status = .running)
    {e : Execution} (he : l.execution.get? row.repositoryId = some e)
    (hfree : e.activeJobId = none ∨ e.activeJobId = some row.id)
    (hjobs : ∀ id, l'.jobs.get? id = if id = row.id then some row' else l.jobs.get? id)
    (hexec : ∀ r, l'.execution.get? r =
      if r = row.repositoryId then some ⟨r, some row.id⟩ else l.execution.get? r)
    (hattempts : ∀ k, (l'.attempts.get? k).isSome = true ↔
      (l.attempts.get? k).isSome = true ∨ k = (row.id, row.leaseGeneration + 1)) : l'.Ok where
  rows := rows_of_move h hok hjobs
  reserved := by
    intro id r hr
    rw [hexec]
    split
    · rfl
    · rename_i hne
      rw [hjobs] at hr
      split at hr
      · obtain rfl := Option.some.inj hr
        exact absurd hrepo hne
      · exact h.reserved hr
  active := by
    intro r e' id he' hid
    rw [hexec] at he'
    rw [hjobs]
    split at he'
    · rename_i heq
      obtain rfl := Option.some.inj he'
      obtain rfl : row.id = id := Option.some.inj hid
      exact ⟨row', if_pos rfl, hrepo.trans heq.symm, hrun⟩
    · rename_i hne
      obtain ⟨j, hj, hjr, hjrun⟩ := h.active he' hid
      have hidne : id ≠ row.id := by
        rintro rfl
        obtain rfl : row = j := Option.some.inj (hrow.symm.trans hj)
        exact hne hjr.symm
      exact ⟨j, by rw [if_neg hidne, hj], hjr, hjrun⟩
  running := by
    intro id r hr hrrun
    rw [hjobs] at hr
    split at hr
    · rename_i heq
      obtain rfl := Option.some.inj hr
      rw [hexec, hrepo, if_pos rfl, heq]
    · rename_i hne
      have hexecr := h.running hr hrrun
      have hrne : r.repositoryId ≠ row.repositoryId := by
        intro heq
        rw [← heq, hexecr] at he
        obtain rfl := Option.some.inj he
        rcases hfree with hfree | hfree
        · cases hfree
        · exact hne (Option.some.inj hfree)
      rw [hexec, if_neg hrne, hexecr]
  attempts := by
    intro id g
    rw [hattempts, h.attempts, hjobs]
    by_cases hid : id = row.id
    · subst hid
      rw [if_pos rfl]
      constructor
      · rintro (⟨r, hr, h1, h2⟩ | heq)
        · obtain rfl : row = r := Option.some.inj (hrow.symm.trans hr)
          exact ⟨row', rfl, h1, by omega⟩
        · obtain ⟨-, rfl⟩ := Prod.mk.inj heq
          exact ⟨row', rfl, by omega, by omega⟩
      · rintro ⟨r, hr, h1, h2⟩
        obtain rfl : row' = r := Option.some.inj hr
        rw [hgen] at h2
        rcases Nat.lt_or_eq_of_le h2 with h2 | rfl
        · exact Or.inl ⟨row, hrow, h1, by omega⟩
        · exact Or.inr rfl
    · rw [if_neg hid]
      constructor
      · rintro (hr | heq)
        · exact hr
        · exact absurd (Prod.mk.inj heq).1 hid
      · exact Or.inl

end

/-! ## Insertions -/

theorem Ledger.Ok.reserveRow {l : Ledger} (h : l.Ok) (r : String) : (l.reserveRow r).Ok where
  rows := h.rows
  reserved := by
    intro id row hrow
    rw [Ledger.get?_reserveRow]
    split
    · rfl
    · exact h.reserved hrow
  active := by
    intro r' e id he hid
    rw [Ledger.get?_reserveRow] at he
    split at he
    · rename_i heq
      cases hold : l.execution.get? r' with
      | none =>
          rw [hold, Option.getD_none] at he
          obtain rfl := Option.some.inj he
          cases hid
      | some e' =>
          rw [hold, Option.getD_some] at he
          obtain rfl := Option.some.inj he
          exact h.active hold hid
    · exact h.active he hid
  running := by
    intro id row hrow hrun
    have hexec := h.running hrow hrun
    rw [Ledger.get?_reserveRow]
    split
    · rw [hexec, Option.getD_some]
    · exact hexec
  attempts := h.attempts

theorem Ledger.Ok.insert {l : Ledger} (h : l.Ok) {row : Job} (hfresh : row.Fresh)
    (hnew : l.jobs.get? row.id = none)
    (hrepo : (l.execution.get? row.repositoryId).isSome = true) :
    Ledger.Ok { l with jobs := l.jobs.insertNew row } where
  rows := by
    intro id r hr
    rw [Table.get?_insertNew] at hr
    split at hr
    · rename_i hid
      rw [← hid, hnew, Option.getD_none] at hr
      obtain rfl := Option.some.inj hr
      exact hfresh.toOk
    · exact h.rows hr
  reserved := by
    intro id r hr
    rw [Table.get?_insertNew] at hr
    split at hr
    · rename_i hid
      rw [← hid, hnew, Option.getD_none] at hr
      obtain rfl := Option.some.inj hr
      exact hrepo
    · exact h.reserved hr
  active := by
    intro r e id he hid
    obtain ⟨j, hj, hjr, hjrun⟩ := h.active he hid
    exact ⟨j, Table.get?_insertNew_of_some hj, hjr, hjrun⟩
  running := by
    intro id r hr hrun
    rw [Table.get?_insertNew] at hr
    split at hr
    · rename_i hid
      rw [← hid, hnew, Option.getD_none] at hr
      obtain rfl := Option.some.inj hr
      exact absurd hrun hfresh.not_running
    · exact h.running hr hrun
  attempts := by
    intro id g
    rw [h.attempts, Table.get?_insertNew]
    constructor
    · rintro ⟨r, hr, h1, h2⟩
      refine ⟨r, ?_, h1, h2⟩
      split
      · rw [hr, Option.getD_some]
      · exact hr
    · rintro ⟨r, hr, h1, h2⟩
      split at hr
      · rename_i hid
        rw [← hid, hnew, Option.getD_none] at hr
        obtain rfl := Option.some.inj hr
        rw [hfresh.generation] at h2
        omega
      · exact ⟨r, hr, h1, h2⟩

/-! ## Effects -/

section

variable {R : Rights} {cfg : Settings} {now : Time} {l l' : Ledger}

theorem setActive_get?_of_some {l : Ledger} {r : String} {e : Execution}
    (h : l.execution.get? r = some e) (j : Option String) (r' : String) :
    (l.setActive r j).execution.get? r' =
      if r' = r then some ⟨r', j⟩ else l.execution.get? r' := by
  rw [Ledger.get?_setActive]
  split
  · rename_i heq
    rw [heq, h, Option.map_some]
  · rfl

theorem exhaustLedger_execution (h : l.Ok) {row : Job} (hrow : l.jobs.get? row.id = some row)
    (hrun : row.status = .running) (r : String) :
    (exhaustLedger now row l).execution.get? r =
      if r = row.repositoryId then some ⟨r, none⟩ else l.execution.get? r := by
  have hexec := h.running hrow hrun
  rw [exhaustLedger, Ledger.updateAttempt_execution,
    setActive_get?_of_some (by simpa using hexec),
    Ledger.setJob_execution, expireAttempt_execution]

theorem finishLedger_execution (h : l.Ok) {row : Job} (hrow : l.jobs.get? row.id = some row)
    (hrun : row.status = .running) (status : JobStatus) (error : Option String) (delay : Time)
    (r : String) :
    (finishLedger now status error delay row l).execution.get? r =
      if r = row.repositoryId then some ⟨r, none⟩ else l.execution.get? r := by
  have hexec := h.running hrow hrun
  rw [finishLedger, Ledger.updateAttempt_execution, Ledger.get?_releaseActive,
    Ledger.setJob_execution]
  by_cases hr : r = row.repositoryId
  · rw [if_pos hr, hr, hexec]
    simp
  · rw [if_neg hr]
    cases l.execution.get? r <;> simp [hr]

theorem claimLedger_attempts (row : Job) (workerId : String) (k : String × Nat) :
    ((claimLedger cfg now workerId row l).attempts.get? k).isSome = true ↔
      (l.attempts.get? k).isSome = true ∨ k = (row.id, row.leaseGeneration + 1) := by
  have hsame : SameAttempts l (reserveLedger cfg now workerId row l) :=
    fun k => expireAttempt_same now row l k
  have hkey : (claimAttempt cfg now workerId row).key = (row.id, row.leaseGeneration + 1) := rfl
  rw [claimLedger, Table.get?_insertNew, hkey, ← hsame k]
  by_cases hk : (row.id, row.leaseGeneration + 1) = k
  · simp [hk]
  · simp [hk, Ne.symm hk]

theorem claimLedger_execution {row : Job} {e : Execution}
    (he : l.execution.get? row.repositoryId = some e) (workerId r : String) :
    (claimLedger cfg now workerId row l).execution.get? r =
      if r = row.repositoryId then some ⟨r, some row.id⟩ else l.execution.get? r := by
  show (reserveLedger cfg now workerId row l).execution.get? r = _
  rw [reserveLedger, setActive_get?_of_some (by simpa using he),
    Ledger.setJob_execution, expireAttempt_execution]

theorem exhaustLedger_ok (hok : l.Ok) {row : Job} (hrow : l.jobs.get? row.id = some row)
    (hexp : Expired now row) : (exhaustLedger now row l).Ok := by
  have hok' : (exhaustedRow now row).Ok := exhaustedRow_ok (hok.rows hrow)
  have hsame : SameAttempts l (exhaustLedger now row l) :=
    (expireAttempt_same now row l).trans fun k => updateAttempt_same _ _ _ _ _ _ k
  exact hok.stop hrow hok' rfl rfl hexp.1
    (JobStatus.ne_running_of_terminal (exhaustedStatus_terminal row)) (get?_jobs_exhaustLedger hrow)
    (exhaustLedger_execution hok hrow hexp.1) hsame

theorem Prelude.ok (h : Prelude R now l l') (hok : l.Ok) : l'.Ok := by
  cases h with
  | reserve r => exact hok.reserveRow r
  | @insert row hfresh _ hconf hrepo => exact hok.insert hfresh (conflicts_id hconf) hrepo
  | @exhaust row hrow hexp _ => exact exhaustLedger_ok hok hrow hexp

theorem cancelRow_running (now : Time) (row : Job) :
    (cancelRow now row).status = .running ↔ row.status = .running := by
  show (if row.status.waiting = true then JobStatus.cancelled else row.status) = .running ↔ _
  split
  · rename_i hw
    simp [JobStatus.ne_running_of_waiting hw]
  · rfl

theorem Effect.ok (h : Effect R cfg now l l') (hok : l.Ok) : l'.Ok := by
  cases h with
  | prelude h => exact h.ok hok
  | @cancel row hrow ht =>
      exact hok.stay hrow (cancelRow_ok (hok.rows hrow) ht) rfl rfl (cancelRow_running now row)
        (get?_setJob_of_get? _ hrow rfl) rfl fun _ => rfl
  | @renew row hrow hl =>
      have hstep : JobStep cfg now row (renewedRow cfg now row) := .renew hl
      exact hok.stay hrow (hstep.ok (hok.rows hrow)) rfl rfl Iff.rfl
        (get?_setJob_of_get? _ hrow rfl) rfl fun k => updateAttempt_same _ _ _ _ _ _ k
  | @progress row stats hrow hl =>
      have hstep : JobStep cfg now row (progressRow now stats row) := .progress stats hl
      exact hok.stay hrow (hstep.ok (hok.rows hrow)) rfl rfl Iff.rfl
        (get?_setJob_of_get? _ hrow rfl) rfl fun _ => rfl
  | @claim row e workerId _ hrow hr hex he hfree =>
      have hstep : JobStep cfg now row (claimedRow cfg now workerId row) := .claim workerId hr hex
      have hjobs : ∀ id, (claimLedger cfg now workerId row l).jobs.get? id =
          if id = row.id then some (claimedRow cfg now workerId row) else l.jobs.get? id :=
        fun id => by
          rw [claimLedger_jobs, get?_setJob_of_get? (claimedRow cfg now workerId row) hrow rfl]
      exact hok.start hrow (hstep.ok (hok.rows hrow)) rfl rfl rfl he hfree hjobs
        (claimLedger_execution he workerId) (claimLedger_attempts row workerId)
  | @finish row status error delay hrow hl hs =>
      exact hok.stop hrow (finishRow_ok (hok.rows hrow) hs) rfl rfl hl.1
        (finishStatus_ne_running hs) (get?_setJob_of_get? _ hrow rfl)
        (finishLedger_execution hok hrow hl.1 status error delay)
        fun k => updateAttempt_same _ _ _ _ _ _ k

theorem prelude_run_ok (h : Relation.ReflTransGen (Prelude R now) l l') (hok : l.Ok) : l'.Ok := by
  induction h with
  | refl => exact hok
  | tail _ hstep ih => exact hstep.ok ih

theorem Commit.ok (h : Commit R cfg now l l') (hok : l.Ok) : l'.Ok := by
  obtain ⟨m, hm, rfl | ⟨-, heff⟩⟩ := h
  · exact prelude_run_ok hm hok
  · exact heff.ok (prelude_run_ok hm hok)

end

theorem Ledger.Ok.empty : Ledger.empty.Ok where
  rows := by
    intro id row h
    cases h
  reserved := by
    intro id row h
    cases h
  active := by
    intro r e id h
    cases h
  running := by
    intro id row h
    cases h
  attempts := by
    intro id g
    constructor
    · intro h
      cases h
    · rintro ⟨_, h, _⟩
      cases h

end RepoMesh
