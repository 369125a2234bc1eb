import RepoMesh.Fencing

/-!
# The attempt ledger

`job_attempts` records who held which job when. A row is opened by a claim and
closed in three places: by the claim that takes the job over, by the cleanup of
an exhausted job and by the owner's finish. `Timeline` is what the three keep
true together: the open rows are the current generations of the running jobs, a
closed row says how it ended, and the rows of one repository follow one another
in time. The last part rests on the reservation: a row that is still open when
another one is claimed would be a second running job.
-/

namespace RepoMesh

/-! ## Attempts in time -/

/-- The attempt holds its repository at `t`, an open one from its claim on. -/
def Attempt.covers (a : Attempt) (t : Time) : Prop :=
  a.claimedAt ≤ t ∧ ∀ e, a.endedAt = some e → t < e

/-- The attempt was over when the other one was claimed. -/
def Attempt.Before (a b : Attempt) : Prop :=
  ∃ e, a.endedAt = some e ∧ e ≤ b.claimedAt

theorem Attempt.Before.disjoint {a b : Attempt} (h : a.Before b) {t : Time}
    (ha : a.covers t) : ¬ b.covers t := by
  rintro ⟨hb, -⟩
  obtain ⟨e, he, hle⟩ := h
  exact absurd (ha.2 e he) (not_lt.mpr (le_trans hle hb))

/-- The job runs under this generation. -/
def Ledger.RunsAt (l : Ledger) (id : String) (g : Nat) : Prop :=
  ∃ row, l.jobs.get? id = some row ∧ row.status = .running ∧ row.leaseGeneration = g

/-- The repository of a job. -/
def Ledger.repositoryOf (l : Ledger) (id : String) : Option String :=
  (l.jobs.get? id).map (·.repositoryId)

structure Ledger.Timeline (now : Time) (l : Ledger) : Prop where
  current : ∀ {id g a}, l.attempts.get? (id, g) = some a → (a.endedAt = none ↔ l.RunsAt id g)
  outcome : ∀ {k a}, l.attempts.get? k = some a → a.outcome.isSome = a.endedAt.isSome
  claimed : ∀ {k a}, l.attempts.get? k = some a → a.claimedAt ≤ now
  ended : ∀ {k a e}, l.attempts.get? k = some a → a.endedAt = some e → e ≤ now
  order : ∀ {k k' a b}, l.attempts.get? k = some a → l.attempts.get? k' = some b → k ≠ k' →
    l.repositoryOf k.1 = l.repositoryOf k'.1 → a.Before b ∨ b.Before a

/-- What may happen to one attempt row in an instant: nothing that counts, or it
is closed, or it is opened. -/
inductive AttemptStep (now : Time) (l : Ledger) (k : String × Nat) (a' : Attempt) : Prop where
  | keep {a : Attempt} : l.attempts.get? k = some a → a'.claimedAt = a.claimedAt →
      a'.endedAt = a.endedAt → a'.outcome = a.outcome → AttemptStep now l k a'
  | close {a : Attempt} : l.attempts.get? k = some a → a'.claimedAt = a.claimedAt →
      a.endedAt = none → a'.endedAt = some now → a'.outcome.isSome = true →
      AttemptStep now l k a'
  | opened : a'.claimedAt = now → a'.endedAt = none → a'.outcome = none → AttemptStep now l k a'

section

variable {now later : Time} {l l' : Ledger} {row row' : Job}

theorem Ledger.Timeline.empty (now : Time) : Ledger.empty.Timeline now where
  current := by
    intro id g a h
    cases h
  outcome := by
    intro k a h
    cases h
  claimed := by
    intro k a h
    cases h
  ended := by
    intro k a e h
    cases h
  order := by
    intro k k' a b h
    cases h

theorem Ledger.Timeline.mono (h : l.Timeline now) (hle : now ≤ later) : l.Timeline later where
  current := h.current
  outcome := h.outcome
  claimed := fun ha => le_trans (h.claimed ha) hle
  ended := fun ha he => le_trans (h.ended ha he) hle
  order := h.order

/-- Two attempts of one repository under which jobs run are the same attempt. -/
theorem Ledger.Ok.runsAt_unique (h : l.Ok) {id id' : String} {g g' : Nat} (hrun : l.RunsAt id g)
    (hrun' : l.RunsAt id' g') (hrepo : l.repositoryOf id = l.repositoryOf id') :
    (id, g) = (id', g') := by
  obtain ⟨r, hr, hrrun, rfl⟩ := hrun
  obtain ⟨r', hr', hrrun', rfl⟩ := hrun'
  have heq : r.repositoryId = r'.repositoryId := by
    simpa [Ledger.repositoryOf, hr, hr'] using hrepo
  have hexec := h.running hr hrrun
  rw [heq, h.running hr' hrrun'] at hexec
  obtain rfl : id' = id := by simpa using hexec
  obtain rfl : r = r' := Option.some.inj (hr.symm.trans hr')
  rfl

/-- The step lemma of the timeline: it is enough to say what happens to each
row and which rows are open afterwards. -/
theorem Ledger.Timeline.step (h : l.Timeline now) (hok : l.Ok) (hok' : l'.Ok)
    (hrows : ∀ {k a'}, l'.attempts.get? k = some a' → AttemptStep now l k a')
    (hcurrent : ∀ {id g a'}, l'.attempts.get? (id, g) = some a' →
      (a'.endedAt = none ↔ l'.RunsAt id g))
    (hrepo : ∀ {id row}, l.jobs.get? id = some row →
      l'.repositoryOf id = some row.repositoryId) : l'.Timeline now := by
  have hended : ∀ {k a' e}, l'.attempts.get? k = some a' → a'.endedAt = some e → e ≤ now := by
    intro k a' e ha' he
    cases hrows ha' with
    | keep ha _ hsame _ => exact h.ended ha (hsame ▸ he)
    | close _ _ _ hnow _ =>
        obtain rfl : now = e := Option.some.inj (hnow.symm.trans he)
        exact le_refl _
    | opened _ hopen _ =>
        rw [hopen] at he
        cases he
  have hclaimed : ∀ {k a'}, l'.attempts.get? k = some a' → a'.claimedAt ≤ now := by
    intro k a' ha'
    cases hrows ha' with
    | keep ha hc _ _ => exact hc ▸ h.claimed ha
    | close ha hc _ _ _ => exact hc ▸ h.claimed ha
    | opened hc _ _ => exact le_of_eq hc
  have hsame : ∀ {k a}, l.attempts.get? k = some a →
      l'.repositoryOf k.1 = l.repositoryOf k.1 := by
    intro k a ha
    obtain ⟨r, hr, -⟩ := (hok.attempts k.1 k.2).mp (by rw [ha]; rfl)
    rw [hrepo hr, Ledger.repositoryOf, hr, Option.map_some]
  have hbefore : ∀ {a b a' b' : Attempt} {k : String × Nat}, a.Before b →
      l.attempts.get? k = some a → b'.claimedAt = b.claimedAt →
      (a'.endedAt = a.endedAt ∨ a.endedAt = none) → a'.Before b' := by
    rintro a b a' b' k ⟨e, he, hle⟩ - hb hcase
    refine ⟨e, ?_, hb ▸ hle⟩
    rcases hcase with hcase | hcase
    · rw [hcase, he]
    · rw [he] at hcase
      cases hcase
  have hnew : ∀ {k k' a' b'}, l'.attempts.get? k = some a' → l'.attempts.get? k' = some b' →
      k ≠ k' → l'.repositoryOf k.1 = l'.repositoryOf k'.1 → a'.claimedAt = now →
      a'.endedAt = none → b'.Before a' := by
    intro k k' a' b' ha' hb' hne hr hc hopen
    cases hb : b'.endedAt with
    | some e => exact ⟨e, hb, hc ▸ hended hb' hb⟩
    | none =>
        exact absurd (hok'.runsAt_unique ((hcurrent ha').mp hopen) ((hcurrent hb').mp hb) hr) hne
  refine ⟨hcurrent, ?_, hclaimed, hended, ?_⟩
  · intro k a' ha'
    cases hrows ha' with
    | keep ha _ he ho => rw [he, ho, h.outcome ha]
    | close _ _ _ he ho => rw [he, ho]; rfl
    | opened _ he ho => rw [he, ho]; rfl
  · intro k k' a' b' ha' hb' hne hr
    have hold : ∀ {a b : Attempt}, l.attempts.get? k = some a → l.attempts.get? k' = some b →
        a'.claimedAt = a.claimedAt → b'.claimedAt = b.claimedAt →
        (a'.endedAt = a.endedAt ∨ a.endedAt = none) →
        (b'.endedAt = b.endedAt ∨ b.endedAt = none) → a'.Before b' ∨ b'.Before a' := by
      intro a b ha hb hac hbc hae hbe
      rw [hsame ha, hsame hb] at hr
      rcases h.order ha hb hne hr with hab | hba
      · exact Or.inl (hbefore hab ha hbc hae)
      · exact Or.inr (hbefore hba hb hac hbe)
    cases hrows ha' with
    | opened hc he _ => exact Or.inr (hnew ha' hb' hne hr hc he)
    | keep ha hac hae _ =>
        cases hrows hb' with
        | opened hc he _ => exact Or.inl (hnew hb' ha' hne.symm hr.symm hc he)
        | keep hb hbc hbe _ => exact hold ha hb hac hbc (Or.inl hae) (Or.inl hbe)
        | close hb hbc hbe _ _ => exact hold ha hb hac hbc (Or.inl hae) (Or.inr hbe)
    | close ha hac hae _ _ =>
        cases hrows hb' with
        | opened hc he _ => exact Or.inl (hnew hb' ha' hne.symm hr.symm hc he)
        | keep hb hbc hbe _ => exact hold ha hb hac hbc (Or.inr hae) (Or.inl hbe)
        | close hb hbc hbe _ _ => exact hold ha hb hac hbc (Or.inr hae) (Or.inr hbe)

/-! ## Which generation runs, after one job moves -/

theorem runsAt_of_get? (hrow : l.jobs.get? row.id = some row) {g : Nat} :
    l.RunsAt row.id g ↔ row.status = .running ∧ row.leaseGeneration = g := by
  constructor
  · rintro ⟨r, hr, hrun, hgen⟩
    obtain rfl : row = r := Option.some.inj (hrow.symm.trans hr)
    exact ⟨hrun, hgen⟩
  · rintro ⟨hrun, hgen⟩
    exact ⟨row, hrow, hrun, hgen⟩

section

variable (hjobs : ∀ id, l'.jobs.get? id = if id = row.id then some row' else l.jobs.get? id)
include hjobs

theorem runsAt_of_move {g : Nat} :
    l'.RunsAt row.id g ↔ row'.status = .running ∧ row'.leaseGeneration = g := by
  have hrow' : l'.jobs.get? row.id = some row' := by rw [hjobs, if_pos rfl]
  constructor
  · rintro ⟨r, hr, hrun, hgen⟩
    obtain rfl : row' = r := Option.some.inj (hrow'.symm.trans hr)
    exact ⟨hrun, hgen⟩
  · rintro ⟨hrun, hgen⟩
    exact ⟨row', hrow', hrun, hgen⟩

theorem runsAt_of_move_ne {id : String} (hid : id ≠ row.id) {g : Nat} :
    l'.RunsAt id g ↔ l.RunsAt id g := by
  unfold Ledger.RunsAt
  rw [hjobs, if_neg hid]

theorem repositoryOf_of_move (hrow : l.jobs.get? row.id = some row)
    (hrepo : row'.repositoryId = row.repositoryId) {id : String} {r : Job}
    (hr : l.jobs.get? id = some r) : l'.repositoryOf id = some r.repositoryId := by
  rw [Ledger.repositoryOf, hjobs]
  split
  · rename_i hid
    rw [hid] at hr
    obtain rfl : row = r := Option.some.inj (hrow.symm.trans hr)
    rw [Option.map_some, hrepo]
  · rw [hr, Option.map_some]

/-- The moving job keeps its generation and keeps running, or keeps not running,
and no row is opened or closed. -/
theorem Ledger.Timeline.stay (h : l.Timeline now) (hok : l.Ok) (hok' : l'.Ok)
    (hrow : l.jobs.get? row.id = some row) (hrepo : row'.repositoryId = row.repositoryId)
    (hgen : row'.leaseGeneration = row.leaseGeneration)
    (hrun : row'.status = .running ↔ row.status = .running)
    (hrows : ∀ {k a'}, l'.attempts.get? k = some a' → ∃ a, l.attempts.get? k = some a ∧
      a'.claimedAt = a.claimedAt ∧ a'.endedAt = a.endedAt ∧ a'.outcome = a.outcome) :
    l'.Timeline now := by
  refine h.step hok hok' ?_ ?_ (repositoryOf_of_move hjobs hrow hrepo)
  · intro k a' ha'
    obtain ⟨a, ha, hc, he, ho⟩ := hrows ha'
    exact .keep ha hc he ho
  · intro id g a' ha'
    obtain ⟨a, ha, -, he, -⟩ := hrows ha'
    rw [he, h.current ha]
    by_cases hid : id = row.id
    · rw [hid, runsAt_of_get? hrow, runsAt_of_move hjobs, hrun, hgen]
    · rw [runsAt_of_move_ne hjobs hid]

/-- The moving job stops: the row of its generation is closed now. -/
theorem Ledger.Timeline.stop (h : l.Timeline now) (hok : l.Ok) (hok' : l'.Ok)
    (hrow : l.jobs.get? row.id = some row) (hrepo : row'.repositoryId = row.repositoryId)
    (hwas : row.status = .running) (hrun : row'.status ≠ .running)
    (hrows : ∀ {k a'}, l'.attempts.get? k = some a' → ∃ a, l.attempts.get? k = some a ∧
      a'.claimedAt = a.claimedAt ∧
      (k = (row.id, row.leaseGeneration) ∧
          (a.endedAt = none → a'.endedAt = some now ∧ a'.outcome.isSome = true) ∨
        k ≠ (row.id, row.leaseGeneration) ∧ a'.endedAt = a.endedAt ∧
          a'.outcome = a.outcome)) :
    l'.Timeline now := by
  have hopen : ∀ {a}, l.attempts.get? (row.id, row.leaseGeneration) = some a →
      a.endedAt = none := fun ha =>
    (h.current ha).mpr ((runsAt_of_get? hrow).mpr ⟨hwas, rfl⟩)
  refine h.step hok hok' ?_ ?_ (repositoryOf_of_move hjobs hrow hrepo)
  · intro k a' ha'
    obtain ⟨a, ha, hc, ⟨rfl, hclose⟩ | ⟨-, he, ho⟩⟩ := hrows ha'
    · obtain ⟨he, ho⟩ := hclose (hopen ha)
      exact .close ha hc (hopen ha) he ho
    · exact .keep ha hc he ho
  · intro id g a' ha'
    obtain ⟨a, ha, -, ⟨hk, hclose⟩ | ⟨hk, he, -⟩⟩ := hrows ha'
    · obtain ⟨rfl, rfl⟩ := Prod.mk.inj hk
      rw [(hclose (hopen ha)).1, runsAt_of_move hjobs]
      simp [hrun]
    · rw [he, h.current ha]
      by_cases hid : id = row.id
      · subst hid
        have hg : row.leaseGeneration ≠ g := by
          rintro rfl
          exact hk rfl
        rw [runsAt_of_get? hrow, runsAt_of_move hjobs]
        simp [hrun, hg]
      · rw [runsAt_of_move_ne hjobs hid]

/-- The moving job starts under the next generation: if it ran before, the row of
the old one is closed now. -/
theorem Ledger.Timeline.start (h : l.Timeline now) (hok : l.Ok) (hok' : l'.Ok)
    (hrow : l.jobs.get? row.id = some row) (hrepo : row'.repositoryId = row.repositoryId)
    (hgen : row'.leaseGeneration = row.leaseGeneration + 1) (hrun : row'.status = .running)
    (hrows : ∀ {k a'}, l'.attempts.get? k = some a' →
      k = (row.id, row.leaseGeneration + 1) ∧ a'.claimedAt = now ∧ a'.endedAt = none ∧
          a'.outcome = none ∨
        k ≠ (row.id, row.leaseGeneration + 1) ∧ ∃ a, l.attempts.get? k = some a ∧
          a'.claimedAt = a.claimedAt ∧
          (row.status = .running ∧ k = (row.id, row.leaseGeneration) ∧
              (a.endedAt = none → a'.endedAt = some now ∧ a'.outcome.isSome = true) ∨
            (row.status = .running → k ≠ (row.id, row.leaseGeneration)) ∧
              a'.endedAt = a.endedAt ∧ a'.outcome = a.outcome)) :
    l'.Timeline now := by
  have hopen : row.status = .running → ∀ {a},
      l.attempts.get? (row.id, row.leaseGeneration) = some a → a.endedAt = none :=
    fun hwas _ ha => (h.current ha).mpr ((runsAt_of_get? hrow).mpr ⟨hwas, rfl⟩)
  refine h.step hok hok' ?_ ?_ (repositoryOf_of_move hjobs hrow hrepo)
  · intro k a' ha'
    rcases hrows ha' with ⟨-, hc, he, ho⟩ | ⟨-, a, ha, hc, ⟨hwas, rfl, hclose⟩ | ⟨-, he, ho⟩⟩
    · exact .opened hc he ho
    · obtain ⟨he, ho⟩ := hclose (hopen hwas ha)
      exact .close ha hc (hopen hwas ha) he ho
    · exact .keep ha hc he ho
  · intro id g a' ha'
    rcases hrows ha' with ⟨hk, -, he, -⟩ | ⟨hk, a, ha, -, ⟨hwas, hk', hclose⟩ | ⟨hk', he, -⟩⟩
    · obtain ⟨rfl, rfl⟩ := Prod.mk.inj hk
      simp [he, runsAt_of_move hjobs, hrun, hgen]
    · obtain ⟨rfl, rfl⟩ := Prod.mk.inj hk'
      rw [(hclose (hopen hwas ha)).1, runsAt_of_move hjobs]
      simp [hgen]
    · rw [he, h.current ha]
      by_cases hid : id = row.id
      · subst hid
        have hg : row.leaseGeneration + 1 ≠ g := by
          rintro rfl
          exact hk rfl
        have hg' : row.status = .running → row.leaseGeneration ≠ g := by
          rintro hwas rfl
          exact hk' hwas rfl
        rw [runsAt_of_get? hrow, runsAt_of_move hjobs]
        constructor
        · rintro ⟨hwas, hcur⟩
          exact absurd hcur (hg' hwas)
        · rintro ⟨-, hcur⟩
          exact absurd (hgen ▸ hcur) hg
      · rw [runsAt_of_move_ne hjobs hid]

end

/-! ## The rows after each effect -/

theorem get?_expireAttempt (k : String × Nat) :
    (expireAttempt now row l).attempts.get? k = (l.attempts.get? k).map fun a =>
      if row.status = .running ∧ k = (row.id, row.leaseGeneration) ∧ a.endedAt = none then
        { a with endedAt := some now, outcome := some .expired }
      else a := by
  unfold expireAttempt
  by_cases hrun : row.status = .running
  · rw [if_pos hrun, Ledger.get?_updateAttempt]
    simp [hrun]
  · rw [if_neg hrun]
    simp [hrun]

/-- The row a finish leaves for the generation it ends. -/
def finishedAttempt (now : Time) (status : JobStatus) (error : Option String) (row : Job)
    (a : Attempt) : Attempt :=
  { a with
    endedAt := some now
    outcome := some (.status (finishStatus status row))
    error := error }

theorem get?_finishLedger (status : JobStatus) (error : Option String) (delay : Time)
    (k : String × Nat) :
    (finishLedger now status error delay row l).attempts.get? k =
      (l.attempts.get? k).map fun a =>
        if k = (row.id, row.leaseGeneration) then finishedAttempt now status error row a
        else a := by
  rw [finishLedger, Ledger.get?_updateAttempt]
  simp only [Ledger.releaseActive_attempts, Ledger.setJob_attempts, and_true]
  rfl

/-- The row the cleanup leaves for the generation it ends. -/
def exhaustedAttempt (now : Time) (row : Job) (a : Attempt) : Attempt :=
  { a with
    endedAt := if a.endedAt = none then some now else a.endedAt
    outcome := some (.status (exhaustedStatus row)) }

theorem get?_exhaustLedger (hrun : row.status = .running) (k : String × Nat) :
    (exhaustLedger now row l).attempts.get? k = (l.attempts.get? k).map fun a =>
      if k = (row.id, row.leaseGeneration) then exhaustedAttempt now row a else a := by
  rw [exhaustLedger, Ledger.get?_updateAttempt]
  simp only [Ledger.setActive_attempts, Ledger.setJob_attempts, get?_expireAttempt,
    Option.map_map, and_true]
  refine congrArg (fun f => Option.map f (l.attempts.get? k)) (funext fun a => ?_)
  by_cases hk : k = (row.id, row.leaseGeneration)
  · by_cases he : a.endedAt = none
    · simp [exhaustedAttempt, settledAttempt, hk, he, hrun]
    · simp [exhaustedAttempt, settledAttempt, hk, he]
  · simp [hk]

theorem get?_renewLedger {cfg : Settings} {k : String × Nat} {a' : Attempt}
    (h : (renewLedger cfg now row l).attempts.get? k = some a') :
    ∃ a, l.attempts.get? k = some a ∧ a'.claimedAt = a.claimedAt ∧
      a'.endedAt = a.endedAt ∧ a'.outcome = a.outcome := by
  rw [renewLedger, Ledger.get?_updateAttempt, Ledger.setJob_attempts] at h
  obtain ⟨a, ha, rfl⟩ := Option.map_eq_some_iff.mp h
  refine ⟨a, ha, ?_⟩
  split <;> exact ⟨rfl, rfl, rfl⟩

theorem get?_claimLedger (cfg : Settings) (hok : l.Ok) (hrow : l.jobs.get? row.id = some row)
    (workerId : String) (k : String × Nat) :
    (claimLedger cfg now workerId row l).attempts.get? k =
      if k = (row.id, row.leaseGeneration + 1) then some (claimAttempt cfg now workerId row)
      else (expireAttempt now row l).attempts.get? k := by
  have hkey : (claimAttempt cfg now workerId row).key = (row.id, row.leaseGeneration + 1) := rfl
  have hnew := claimAttempt_new cfg now hok hrow workerId
  rw [claimLedger, Table.get?_insertNew, hkey]
  by_cases hk : k = (row.id, row.leaseGeneration + 1)
  · rw [if_pos hk.symm, if_pos hk, hk, ← hkey, hnew, Option.getD_none]
  · rw [if_neg (Ne.symm hk), if_neg hk]
    rfl

/-! ## The timeline across effects -/

variable {R : Rights} {cfg : Settings}

theorem Ledger.Timeline.insert (h : l.Timeline now) (hok : l.Ok)
    (hok' : Ledger.Ok { l with jobs := l.jobs.insertNew row }) (hfresh : row.Fresh)
    (hnew : l.jobs.get? row.id = none) :
    Ledger.Timeline now { l with jobs := l.jobs.insertNew row } := by
  refine h.step hok hok' (fun ha => .keep ha rfl rfl rfl) ?_ ?_
  · intro id g a ha
    rw [h.current ha]
    unfold Ledger.RunsAt
    show _ ↔ ∃ r, (l.jobs.insertNew row).get? id = some r ∧ _
    rw [Table.get?_insertNew]
    by_cases hid : row.id = id
    · rw [if_pos hid, ← hid, hnew]
      simp [hfresh.not_running]
    · rw [if_neg hid]
  · intro id r hr
    have hr' : (l.jobs.insertNew row).get? id = some r := Table.get?_insertNew_of_some hr
    show ((l.jobs.insertNew row).get? id).map _ = _
    rw [hr', Option.map_some]

theorem exhaustLedger_timeline (h : l.Timeline now) (hok : l.Ok)
    (hrow : l.jobs.get? row.id = some row) (hexp : Expired now row) :
    (exhaustLedger now row l).Timeline now := by
  have hjobs : ∀ id, (exhaustLedger now row l).jobs.get? id =
      if id = row.id then some (exhaustedRow now row) else l.jobs.get? id :=
    get?_jobs_exhaustLedger hrow
  refine h.stop hjobs hok (exhaustLedger_ok hok hrow hexp) hrow rfl hexp.1
    (JobStatus.ne_running_of_terminal (exhaustedStatus_terminal row)) ?_
  intro k a' ha'
  rw [get?_exhaustLedger hexp.1] at ha'
  obtain ⟨a, ha, rfl⟩ := Option.map_eq_some_iff.mp ha'
  refine ⟨a, ha, ?_⟩
  by_cases hk : k = (row.id, row.leaseGeneration)
  · rw [if_pos hk]
    exact ⟨rfl, Or.inl ⟨hk, fun hopen => ⟨if_pos hopen, rfl⟩⟩⟩
  · rw [if_neg hk]
    exact ⟨rfl, Or.inr ⟨hk, rfl, rfl⟩⟩

theorem Prelude.timeline (h : Prelude R now l l') (hok : l.Ok) (ht : l.Timeline now) :
    l'.Timeline now := by
  have hok' := h.ok hok
  cases h with
  | reserve r => exact ⟨ht.current, ht.outcome, ht.claimed, ht.ended, ht.order⟩
  | insert hfresh _ hconf _ => exact ht.insert hok hok' hfresh (conflicts_id hconf)
  | exhaust hrow hexp _ => exact exhaustLedger_timeline ht hok hrow hexp

theorem Effect.timeline (h : Effect R cfg now l l') (hok : l.Ok) (ht : l.Timeline now) :
    l'.Timeline now := by
  have hok' := h.ok hok
  cases h with
  | prelude h => exact h.timeline hok ht
  | @cancel row hrow hterm =>
      exact ht.stay (get?_setJob_of_get? (cancelRow now row) hrow rfl) hok hok' hrow rfl rfl
        (cancelRow_running now row) fun ha => ⟨_, ha, rfl, rfl, rfl⟩
  | @renew row hrow hlive =>
      exact ht.stay (get?_setJob_of_get? (renewedRow cfg now row) hrow rfl) hok hok' hrow rfl
        rfl Iff.rfl get?_renewLedger
  | @progress row stats hrow hlive =>
      exact ht.stay (get?_setJob_of_get? (progressRow now stats row) hrow rfl) hok hok' hrow
        rfl rfl Iff.rfl fun ha => ⟨_, ha, rfl, rfl, rfl⟩
  | @claim row e workerId _ hrow hrunnable hex he hfree =>
      have hjobs : ∀ id, (claimLedger cfg now workerId row l).jobs.get? id =
          if id = row.id then some (claimedRow cfg now workerId row) else l.jobs.get? id :=
        fun id => by
          rw [claimLedger_jobs, get?_setJob_of_get? (claimedRow cfg now workerId row) hrow rfl]
      refine ht.start hjobs hok hok' hrow rfl rfl rfl ?_
      intro k a' ha'
      rw [get?_claimLedger cfg hok hrow] at ha'
      split at ha'
      · rename_i hk
        obtain rfl := Option.some.inj ha'
        exact Or.inl ⟨hk, rfl, rfl, rfl⟩
      · rename_i hk
        rw [get?_expireAttempt] at ha'
        obtain ⟨a, ha, rfl⟩ := Option.map_eq_some_iff.mp ha'
        refine Or.inr ⟨hk, a, ha, ?_⟩
        by_cases hcur : row.status = .running ∧ k = (row.id, row.leaseGeneration)
        · obtain ⟨hrun, hk'⟩ := hcur
          by_cases hopen : a.endedAt = none
          · rw [if_pos ⟨hrun, hk', hopen⟩]
            exact ⟨rfl, Or.inl ⟨hrun, hk', fun _ => ⟨rfl, rfl⟩⟩⟩
          · rw [if_neg fun hc => hopen hc.2.2]
            exact ⟨rfl, Or.inl ⟨hrun, hk', fun hc => absurd hc hopen⟩⟩
        · rw [if_neg fun hc => hcur ⟨hc.1, hc.2.1⟩]
          exact ⟨rfl, Or.inr ⟨fun hrun hk' => hcur ⟨hrun, hk'⟩, rfl, rfl⟩⟩
  | @finish row status error delay hrow hlive hs =>
      refine ht.stop (get?_setJob_of_get? (finishRow now status error delay row) hrow rfl) hok
        hok' hrow rfl hlive.1 (finishStatus_ne_running hs) ?_
      intro k a' ha'
      rw [get?_finishLedger] at ha'
      obtain ⟨a, ha, rfl⟩ := Option.map_eq_some_iff.mp ha'
      refine ⟨a, ha, ?_⟩
      by_cases hk : k = (row.id, row.leaseGeneration)
      · rw [if_pos hk]
        exact ⟨rfl, Or.inl ⟨hk, fun _ => ⟨rfl, rfl⟩⟩⟩
      · rw [if_neg hk]
        exact ⟨rfl, Or.inr ⟨hk, rfl, rfl⟩⟩

theorem Commit.timeline (h : Commit R cfg now l l') (hok : l.Ok) (ht : l.Timeline now) :
    l'.Timeline now := by
  obtain ⟨m, hm, hlast⟩ := h
  have hmid : m.Ok ∧ m.Timeline now := by
    clear hlast
    induction hm with
    | refl => exact ⟨hok, ht⟩
    | tail _ hstep ih => exact ⟨hstep.ok ih.1, hstep.timeline ih.1 ih.2⟩
  rcases hlast with rfl | ⟨-, heff⟩
  · exact hmid.2
  · exact heff.timeline hmid.1 hmid.2

/-! ## How a generation ends -/

/-- The rows of a job that is not running are final until it is claimed again,
and stay final then. -/
theorem Effect.attempt_final (h : Effect R cfg now l l') (hok : l.Ok) {id : String} {r : Job}
    (hr : l.jobs.get? id = some r) (hnot : r.status ≠ .running) {g : Nat} {a : Attempt}
    (ha : l.attempts.get? (id, g) = some a) : l'.attempts.get? (id, g) = some a := by
  have hother : ∀ {row : Job}, l.jobs.get? row.id = some row → row.status = .running →
      (id, g) ≠ (row.id, row.leaseGeneration) := by
    rintro row hrow hrun heq
    obtain ⟨rfl, -⟩ := Prod.mk.inj heq
    obtain rfl : row = r := Option.some.inj (hrow.symm.trans hr)
    exact hnot hrun
  cases h with
  | prelude h =>
      cases h with
      | reserve | insert => exact ha
      | exhaust hrow hexp _ =>
          rw [get?_exhaustLedger hexp.1, ha, Option.map_some, if_neg (hother hrow hexp.1)]
  | cancel _ _ => exact ha
  | progress _ _ _ => exact ha
  | @renew row hrow hlive =>
      rw [renewLedger, Ledger.get?_updateAttempt, Ledger.setJob_attempts, ha, Option.map_some,
        if_neg fun hc => hother hrow hlive.1 hc.1]
  | @claim row e workerId _ hrow hrunnable _ _ _ =>
      rw [get?_claimLedger cfg hok hrow, if_neg, get?_expireAttempt, ha, Option.map_some, if_neg]
      · rintro ⟨hrun, hk, -⟩
        exact hother hrow hrun hk
      · intro hk
        obtain ⟨r', hr', -, hle⟩ := (hok.attempts id g).mp (by rw [ha]; rfl)
        obtain ⟨rfl, rfl⟩ := Prod.mk.inj hk
        obtain rfl : row = r' := Option.some.inj (hrow.symm.trans hr')
        omega
  | finish _ _ _ hrow hlive _ =>
      rw [get?_finishLedger, ha, Option.map_some, if_neg (hother hrow hlive.1)]

/-- The row of the current generation of a job names the status the job has. -/
def Ledger.Recorded (l : Ledger) (id : String) (g : Nat) (status : JobStatus) : Prop :=
  ∃ a, l.attempts.get? (id, g) = some a ∧ a.outcome = some (.status status)

theorem exhaustLedger_recorded (hok : l.Ok) (hrow : l.jobs.get? row.id = some row)
    (hexp : Expired now row) (hgen : 1 ≤ row.leaseGeneration) :
    (exhaustLedger now row l).Recorded row.id row.leaseGeneration (exhaustedStatus row) := by
  obtain ⟨a, ha⟩ := Option.isSome_iff_exists.mp
    ((hok.attempts row.id row.leaseGeneration).mpr ⟨row, hrow, hgen, le_refl _⟩)
  refine ⟨exhaustedAttempt now row a, ?_, rfl⟩
  rw [get?_exhaustLedger hexp.1, ha, Option.map_some, if_pos rfl]

/-- When an effect ends a running job's execution, the job's current row says in
which status. -/
theorem Effect.recorded (h : Effect R cfg now l l') (hok : l.Ok) {id : String} {r r' : Job}
    (hr : l.jobs.get? id = some r) (hrun : r.status = .running)
    (hr' : l'.jobs.get? id = some r') (hnot : r'.status ≠ .running) :
    l'.Recorded id r'.leaseGeneration r'.status := by
  have hgen := (hok.rows hr).claimed hrun
  have hmoved : ∀ {row : Job} (row' : Job), l.jobs.get? row.id = some row → row'.id = row.id →
      l'.jobs = (l.setJob row').jobs → id = row.id ∧ r = row ∧ r' = row' := by
    intro row row' hrow hid hjobs
    rw [hjobs, get?_setJob_of_get? row' hrow hid] at hr'
    split at hr'
    · rename_i heq
      rw [heq] at hr
      exact ⟨heq, Option.some.inj (hr.symm.trans hrow), (Option.some.inj hr').symm⟩
    · obtain rfl : r = r' := Option.some.inj (hr.symm.trans hr')
      exact absurd hrun hnot
  cases h with
  | prelude h =>
      cases h with
      | reserve =>
          obtain rfl : r = r' := Option.some.inj (hr.symm.trans hr')
          exact absurd hrun hnot
      | insert _ _ _ _ =>
          obtain rfl : r = r' :=
            Option.some.inj ((Table.get?_insertNew_of_some hr).symm.trans hr')
          exact absurd hrun hnot
      | exhaust hrow hexp _ =>
          obtain ⟨rfl, rfl, rfl⟩ := hmoved (exhaustedRow now _) hrow rfl (exhaustLedger_jobs _ _ _)
          exact exhaustLedger_recorded hok hrow hexp hgen
  | @cancel row hrow _ =>
      obtain ⟨-, rfl, rfl⟩ := hmoved (cancelRow now row) hrow rfl rfl
      exact absurd ((cancelRow_running now r).mpr hrun) hnot
  | @renew row hrow _ =>
      obtain ⟨-, rfl, rfl⟩ := hmoved (renewedRow cfg now row) hrow rfl rfl
      exact absurd hrun hnot
  | @progress row stats hrow _ =>
      obtain ⟨-, rfl, rfl⟩ := hmoved (progressRow now stats row) hrow rfl rfl
      exact absurd hrun hnot
  | @claim row _ workerId _ hrow _ _ _ _ =>
      obtain ⟨-, rfl, rfl⟩ :=
        hmoved (claimedRow cfg now workerId row) hrow rfl (claimLedger_jobs _ _ _ _ _)
      exact absurd rfl hnot
  | @finish row status error delay hrow hlive _ =>
      obtain ⟨rfl, rfl, rfl⟩ := hmoved (finishRow now status error delay row) hrow rfl rfl
      obtain ⟨a, ha⟩ := Option.isSome_iff_exists.mp
        ((hok.attempts r.id r.leaseGeneration).mpr ⟨r, hrow, hgen, le_refl _⟩)
      refine ⟨finishedAttempt now status error r a, ?_, rfl⟩
      show (finishLedger now status error delay r l).attempts.get? (r.id, r.leaseGeneration) = _
      rw [get?_finishLedger, ha, Option.map_some, if_pos rfl]

end

end RepoMesh
