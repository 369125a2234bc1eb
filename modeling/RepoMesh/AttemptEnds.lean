import RepoMesh.AttemptRows

/-!
# How attempts end

An attempt row is closed by its owner or by the cleanup, which leave it in a status the
job has then, or by a takeover, which leaves it `expired` and opens the next row as
`reclaimed`. So the two marks of a takeover come in pairs, and nothing else puts either.
-/

namespace RepoMesh

/-- What may become of an attempt row across an effect. -/
inductive Turn (now : Time) (l' : Ledger) (id : String) (g : Nat) (a a' : Attempt) : Prop where
  | keep : a'.endedAt = a.endedAt → a'.outcome = a.outcome → Turn now l' id g a a'
  | settle {status : JobStatus} : a.endedAt = none → a'.endedAt = some now →
      a'.outcome = some (.status status) → status.terminal = true ∨ status = .retrying →
      Turn now l' id g a a'
  | expire {b : Attempt} : a.endedAt = none → a'.endedAt = some now →
      a'.outcome = some .expired → l'.attempts.get? (id, g + 1) = some b →
      b.reclaimed = true → Turn now l' id g a a'

/-- The closed rows: when they ended, in which outcome, and who came after an expired one. -/
structure Ledger.Settled (l : Ledger) : Prop where
  span : ∀ {k a e}, l.attempts.get? k = some a → a.endedAt = some e → a.claimedAt ≤ e
  outcome : ∀ {k a status}, l.attempts.get? k = some a → a.outcome = some (.status status) →
    status.terminal = true ∨ status = .retrying
  expired : ∀ {id g a}, l.attempts.get? (id, g) = some a → a.outcome = some .expired →
    ∃ b, l.attempts.get? (id, g + 1) = some b ∧ b.reclaimed = true
  reclaimed : ∀ {id g b}, l.attempts.get? (id, g) = some b → b.reclaimed = true →
    ∃ g' a, g = g' + 1 ∧ l.attempts.get? (id, g') = some a ∧ a.outcome = some .expired

theorem Ledger.Settled.empty : Ledger.empty.Settled where
  span := by
    intro k a e h
    cases h
  outcome := by
    intro k a status h
    cases h
  expired := by
    intro id g a h
    cases h
  reclaimed := by
    intro id g b h
    cases h

section

variable {R : Rights} {cfg : Settings} {now : Time} {l l' : Ledger} {id : String} {g : Nat}

theorem finishStatus_settled {row : Job} {status : JobStatus} (h : Finishing row status) :
    (finishStatus status row).terminal = true ∨ finishStatus status row = .retrying := by
  unfold finishStatus
  split
  · exact Or.inl rfl
  · rcases h with hterm | ⟨rfl, -⟩
    · exact Or.inl hterm
    · exact Or.inr rfl

theorem Effect.turn (h : Effect R cfg now l l') (hok : l.Ok) (htime : l.Timeline now)
    {a a' : Attempt} (ha : l.attempts.get? (id, g) = some a)
    (ha' : l'.attempts.get? (id, g) = some a') : Turn now l' id g a a' := by
  have hopen : ∀ {row : Job}, l.jobs.get? id = some row → row.status = .running →
      g = row.leaseGeneration → a.endedAt = none := by
    intro row hrow hrun hg
    exact (htime.current ha).mpr ⟨row, hrow, hrun, hg.symm⟩
  cases h.touch hok id with
  | still _ hatt | born _ _ _ hatt | cancel _ _ _ hatt | progress _ _ _ _ hatt =>
      rw [hatt, ha] at ha'
      obtain rfl := Option.some.inj ha'
      exact .keep rfl rfl
  | renew _ _ _ hatt =>
      rw [hatt, ha, Option.map_some] at ha'
      obtain rfl := Option.some.inj ha'
      split <;> exact .keep rfl rfl
  | @exhaust row hrow hexp _ _ hatt =>
      rw [hatt, ha, Option.map_some] at ha'
      obtain rfl := Option.some.inj ha'
      split
      · rename_i hg
        have hnone := hopen hrow hexp.1 hg
        refine .settle hnone ?_ rfl (Or.inl (exhaustedStatus_terminal row))
        show (if a.endedAt = none then some now else a.endedAt) = some now
        rw [if_pos hnone]
      · exact .keep rfl rfl
  | finish status _ _ hrow hlive hstatus _ hatt =>
      rw [hatt, ha, Option.map_some] at ha'
      obtain rfl := Option.some.inj ha'
      split
      · rename_i hg
        exact .settle (hopen hrow hlive.1 hg) rfl rfl (finishStatus_settled hstatus)
      · exact .keep rfl rfl
  | @claim row workerId hrow hrunnable _ _ hatt =>
      have hne : g ≠ row.leaseGeneration + 1 := by
        rintro rfl
        obtain ⟨r, hr, -, hle⟩ := (hok.attempts id (row.leaseGeneration + 1)).mp (by rw [ha]; rfl)
        obtain rfl : row = r := Option.some.inj (hrow.symm.trans hr)
        omega
      rw [hatt, if_neg hne, get?_expireAttempt, ha, Option.map_some] at ha'
      obtain rfl := Option.some.inj ha'
      split
      · rename_i hcur
        obtain ⟨hrun, hk, hnone⟩ := hcur
        refine .expire hnone rfl rfl (b := claimAttempt cfg now workerId row) ?_ ?_
        · rw [hatt, if_pos (congrArg (· + 1) (Prod.mk.inj hk).2)]
        · simp [claimAttempt, hrun]
      · exact .keep rfl rfl

theorem Effect.settled (h : Effect R cfg now l l') (hok : l.Ok) (htime : l.Timeline now)
    (hs : l.Settled) : l'.Settled := by
  refine ⟨?_, ?_, ?_, ?_⟩
  · rintro ⟨id, g⟩ a' e ha' he
    rcases h.attempt_cases hok ha' with ⟨row, workerId, -, -, -, rfl, -⟩ | ⟨a, ha, hkept, -⟩
    · cases he
    · rw [hkept.claimedAt]
      cases h.turn hok htime ha ha' with
      | keep hsame _ => exact hs.span ha (hsame ▸ he)
      | settle _ hnow _ _ | expire _ hnow _ _ _ =>
          obtain rfl : now = e := Option.some.inj (hnow.symm.trans he)
          exact htime.claimed ha
  · rintro ⟨id, g⟩ a' status ha' ho
    rcases h.attempt_cases hok ha' with ⟨row, workerId, -, -, -, rfl, -⟩ | ⟨a, ha, -, -⟩
    · cases ho
    · cases h.turn hok htime ha ha' with
      | keep _ hsame => exact hs.outcome ha (hsame ▸ ho)
      | settle _ _ hnew hst =>
          rw [hnew] at ho
          cases ho
          exact hst
      | expire _ _ hnew _ _ =>
          rw [hnew] at ho
          cases ho
  · intro id g a' ha' ho
    rcases h.attempt_cases hok ha' with ⟨row, workerId, -, -, -, rfl, -⟩ | ⟨a, ha, -, -⟩
    · cases ho
    · cases h.turn hok htime ha ha' with
      | keep _ hsame =>
          obtain ⟨b, hb, hrec⟩ := hs.expired ha (hsame ▸ ho)
          obtain ⟨b', hb', hkept, -⟩ := h.attempt_kept hok htime hb
          exact ⟨b', hb', hkept.reclaimed.trans hrec⟩
      | settle _ _ hnew _ =>
          rw [hnew] at ho
          cases ho
      | expire _ _ _ hb hrec => exact ⟨_, hb, hrec⟩
  · intro id g b' hb' hrec
    rcases h.attempt_cases hok hb' with
      ⟨row, workerId, hrow, -, rfl, rfl, hlast⟩ | ⟨b, hb, hkept, -⟩
    · have hrun : row.status = .running := by simpa [claimAttempt] using hrec
      obtain ⟨a, ha⟩ := Option.isSome_iff_exists.mp
        ((hok.attempts id row.leaseGeneration).mpr
          ⟨row, hrow, (hok.rows hrow).claimed hrun, le_refl _⟩)
      have hnone : a.endedAt = none := (htime.current ha).mpr ⟨row, hrow, hrun, rfl⟩
      have hid : row.id = id := Table.key_of_get? hrow
      refine ⟨row.leaseGeneration, { a with endedAt := some now, outcome := some .expired },
        rfl, ?_, rfl⟩
      rw [hlast, get?_expireAttempt, ha, Option.map_some, hid, if_pos ⟨hrun, rfl, hnone⟩]
    · obtain ⟨g', a, rfl, ha, ho⟩ := hs.reclaimed hb (hkept.reclaimed ▸ hrec)
      obtain ⟨a', ha', -, hfinal⟩ := h.attempt_kept hok htime ha
      have hended : a.endedAt.isSome = true := by
        rw [← htime.outcome ha, ho]
        rfl
      obtain rfl := hfinal hended
      exact ⟨g', a', rfl, ha', ho⟩

end

namespace Coord

variable {cfg : Settings} {s : Coord}

theorem reachable_settled (h : (system cfg).Reachable s) : s.db.toLedger.Settled := by
  refine h.induct (I := fun u => u.db.toLedger.Settled) ?_ ?_
  · rintro s₀ ⟨hdb, -⟩
    rw [hdb]
    exact Ledger.Settled.empty
  · intro u a v hu hs hstep
    obtain ⟨-, jobs, -, hserves⟩ := step_serves (reachable_ok hu) hstep
    exact hserves.commit.induct (reachable_ok hu).ledger (reachable_timeline hu) hs
      fun heff hok htime hm => heff.settled hok htime hm

end Coord

end RepoMesh
