import RepoMesh.Progress
import RepoMesh.Registry
import RepoMesh.Tenancy

/-!
# Worker sessions

The registry row of a worker id against the history of the id: registrations enter it,
heartbeats and claims are sightings, a stop leaves it. A row carries the session that entered
last, is stopped when that session has left, and has seen it no earlier than its last sighting
(`Tracked`). So an accepted session is the one that holds the id.
-/

namespace RepoMesh

open Visit

/-- The session that a registration draws. -/
def Action.drawn? : Action → Option String
  | .registerWorker session _ _ _ _ => some session
  | _ => none

namespace Coord

/-- What an action adds to the history of a worker id. -/
def visit? (cfg : Settings) (workerId : String) (s : Coord) (a : Action) :
    Option (Visit String Time) :=
  match a, s.answer cfg a with
  | .registerWorker session claimer _ _ _, .ok _ =>
      if claimer = workerId then some (.entered session s.now) else none
  | .heartbeatWorker claimer session _, .ok _ =>
      if claimer = workerId then some (.seen session s.now) else none
  | .claimJob claimer session _, .ok (.job _, _) =>
      if claimer = workerId then some (.seen session s.now) else none
  | .stopWorker claimer session, .ok _ =>
      if claimer = workerId then some (.left session s.now) else none
  | _, _ => none

/-- The history of a worker id in a run, newest first. -/
def history (cfg : Settings) (workerId : String) : Coord → List Action → List (Visit String Time)
  | _, [] => []
  | s, a :: as =>
      history cfg workerId (s.next cfg a) as ++ (s.visit? cfg workerId a).toList

end Coord

/-! ## A row and its history -/

/-- A registry row as the history of its id has it. -/
structure Tracked (now : Time) (w : WorkerRow) (l : List (Visit String Time)) : Prop where
  occupant : occupant l = some w.sessionId
  vacated : vacated l = true ↔ w.status = .stopped
  stopped : w.status = .stopped → w.currentJobId = none
  seen : ∀ v ∈ l, ∀ t, v.sighting = some t → t ≤ w.lastSeenAt
  past : w.lastSeenAt ≤ now

/-- What a lookup of the id finds; without a row nothing of the id was ever seen. -/
def TrackedAt (now : Time) (w : Option WorkerRow) (l : List (Visit String Time)) : Prop :=
  match w with
  | none => ∀ v ∈ l, v.sighting = none
  | some w => Tracked now w l

section

variable {cfg : Settings} {now : Time} {db db' : Db} {w : WorkerRow} {l l' : List (Visit String Time)}
  {workerId : String}

theorem Tracked.later (h : Tracked now w l) (duration : ℕ) : Tracked (now + duration) w l :=
  { h with past := h.past.trans (Int.le_add_of_nonneg_right (Int.natCast_nonneg duration)) }

/-- An idle row under a name it carried is not stopped. -/
theorem Tracked.idle (h : Tracked now w l) {job : String} (hjob : w.currentJobId = some job)
    (w' : WorkerRow) (hsession : w'.sessionId = w.sessionId) (hseen : w'.lastSeenAt = w.lastSeenAt)
    (hstatus : w'.status = .idle) : Tracked now w' l where
  occupant := by rw [hsession, h.occupant]
  vacated := by
    have hrun : w.status ≠ .stopped := by
      intro hstopped
      rw [h.stopped hstopped] at hjob
      cases hjob
    rw [h.vacated, hstatus]
    simp [hrun]
  stopped := by
    rw [hstatus]
    intro heq
    cases heq
  seen := by rw [hseen]; exact h.seen
  past := by rw [hseen]; exact h.past

/-- A sighting of the session. -/
theorem Tracked.sight (h : Tracked now w l) (hrun : w.status ≠ .stopped) (w' : WorkerRow)
    (hsession : w'.sessionId = w.sessionId) (hseen : w'.lastSeenAt = now)
    (hstatus : w'.status ≠ .stopped) : Tracked now w' (.seen w.sessionId now :: l) where
  occupant := by rw [hsession, occupant_cons_seen, h.occupant]
  vacated := by
    rw [Visit.vacated, h.vacated]
    simp [hrun, hstatus]
  stopped := fun hstopped => absurd hstopped hstatus
  seen := by
    intro v hv t ht
    rw [hseen]
    rcases List.mem_cons.mp hv with rfl | hv
    · exact (Option.some.inj ht).ge
    · exact (h.seen v hv t ht).trans h.past
  past := hseen.le

/-- A registration of the id. -/
theorem Tracked.enter {session : String} (hpast : ∀ v ∈ l, ∀ t, v.sighting = some t → t ≤ now)
    (w' : WorkerRow) (hsession : w'.sessionId = session) (hseen : w'.lastSeenAt = now)
    (hstatus : w'.status = .idle) : Tracked now w' (.entered session now :: l) where
  occupant := by rw [hsession, occupant_cons_entered]
  vacated := by simp [Visit.vacated, hstatus]
  stopped := by
    rw [hstatus]
    intro heq
    cases heq
  seen := by
    intro v hv t ht
    rw [hseen]
    rcases List.mem_cons.mp hv with rfl | hv
    · exact (Option.some.inj ht).ge
    · exact hpast v hv t ht
  past := hseen.le

/-- A stop of the session, or of another one. -/
theorem Tracked.leave (h : Tracked now w l) (session : String) :
    Tracked now
      (if w.sessionId = session then
        { w with status := .stopped, currentJobId := none, lastSeenAt := now } else w)
      (.left session now :: l) := by
  by_cases heq : w.sessionId = session
  · rw [if_pos heq]
    refine ⟨?_, ?_, fun _ => rfl, ?_, le_rfl⟩
    · rw [occupant_cons_left, h.occupant]
    · simp [Visit.vacated, h.occupant, heq]
    · intro v hv t ht
      rcases List.mem_cons.mp hv with rfl | hv
      · cases ht
      · exact (h.seen v hv t ht).trans h.past
  · rw [if_neg heq]
    refine ⟨?_, ?_, h.stopped, ?_, h.past⟩
    · rw [occupant_cons_left, h.occupant]
    · simp [Visit.vacated, h.occupant, heq, h.vacated]
    · intro v hv t ht
      rcases List.mem_cons.mp hv with rfl | hv
      · cases ht
      · exact h.seen v hv t ht

/-- An update of the registry, one row at a time. -/
theorem TrackedAt.update {t t' : Table WorkerRow.workerId} {p : WorkerRow → Bool}
    {f : WorkerRow → WorkerRow} (h : TrackedAt now (t.get? workerId) l)
    (hf : ∀ w, (f w).workerId = w.workerId) (ht : t' = t.update p f hf)
    (hrow : ∀ w, t.get? workerId = some w → Tracked now w l → Tracked now (if p w then f w else w) l')
    (hnone : t.get? workerId = none → (∀ v ∈ l, v.sighting = none) → ∀ v ∈ l', v.sighting = none) :
    TrackedAt now (t'.get? workerId) l' := by
  rw [ht, Table.get?_update]
  cases hget : t.get? workerId with
  | none =>
      rw [hget] at h
      exact hnone hget h
  | some w =>
      rw [hget] at h
      exact hrow w hget h

/-- An update of one id's row, which is a visit of the id. -/
theorem TrackedAt.update_id {t t' : Table WorkerRow.workerId} {f : WorkerRow → WorkerRow}
    {claimer : String} {v : Visit String Time} (h : TrackedAt now (t.get? workerId) l)
    (hf : ∀ w, (f w).workerId = w.workerId) (ht : t' = t.update (·.workerId = claimer) f hf)
    (hsome : (t.get? claimer).isSome = true)
    (hrow : ∀ w, t.get? claimer = some w → Tracked now w l → Tracked now (f w) (v :: l)) :
    TrackedAt now (t'.get? workerId)
      ((if claimer = workerId then some v else none).toList ++ l) := by
  by_cases hid : claimer = workerId
  · rw [if_pos hid]
    rw [hid] at hsome
    refine h.update hf ht (fun w hw htracked => ?_) (fun hnone _ => ?_)
    · have hwid : w.workerId = claimer := (Table.key_of_get? hw).trans hid.symm
      rw [if_pos (decide_eq_true hwid)]
      exact hrow w (by rw [hid, hw]) htracked
    · rw [hnone] at hsome
      cases hsome
  · rw [if_neg hid]
    refine h.update hf ht (fun w hw htracked => ?_) (fun _ hl => hl)
    have hwid : w.workerId ≠ claimer := fun heq => hid (heq.symm.trans (Table.key_of_get? hw))
    rw [if_neg (by simpa using hwid)]
    exact htracked

/-- Everything seen was seen by now. -/
theorem TrackedAt.past {w : Option WorkerRow} (h : TrackedAt now w l) :
    ∀ v ∈ l, ∀ t, v.sighting = some t → t ≤ now := by
  intro v hv t ht
  cases w with
  | none =>
      rw [h v hv] at ht
      cases ht
  | some w => exact (Tracked.seen h v hv t ht).trans (Tracked.past h)

/-! ## What the transactions do to the row of an id -/

variable {session : String}

theorem registerWorker_tracked {claimer hostname version r : String} {pid : Int}
    (h : TrackedAt now (db.workers.get? workerId) l)
    (heq : registerWorker cfg now session claimer hostname pid version db = .ok (r, db')) :
    TrackedAt now (db'.workers.get? workerId)
      ((if claimer = workerId then some (entered session now) else none).toList ++ l) := by
  unfold registerWorker at heq
  split at heq
  · rename_i hnone
    obtain ⟨-, rfl⟩ := Prod.mk.inj (Except.ok.inj heq)
    rw [Table.get?_insertNew]
    split
    · rename_i hid
      obtain rfl : claimer = workerId := hid
      rw [hnone, Option.getD_none]
      exact .enter h.past _ rfl rfl rfl
    · exact h
  · rename_i hw
    split at heq
    · obtain ⟨-, rfl⟩ := Prod.mk.inj (Except.ok.inj heq)
      refine h.update_id (by intro _; rfl) rfl (by rw [hw]; rfl) fun _ _ _ => ?_
      exact .enter h.past _ rfl rfl rfl
    · cases heq

theorem heartbeatWorker_tracked {claimer : String} {currentJob : Option String}
    (h : TrackedAt now (db.workers.get? workerId) l)
    (heq : heartbeatWorker now claimer session currentJob db = .ok ((), db')) :
    TrackedAt now (db'.workers.get? workerId)
      ((if claimer = workerId then some (seen session now) else none).toList ++ l) := by
  unfold heartbeatWorker at heq
  split at heq
  · rename_i hlive
    obtain ⟨-, rfl⟩ := Prod.mk.inj (Except.ok.inj heq)
    obtain ⟨v, hv, rfl, hrun⟩ := sessionLive_iff.mp hlive
    refine h.update_id (by intro _; rfl) rfl (by rw [hv]; rfl) fun w hw htracked => ?_
    obtain rfl := Option.some.inj (hv.symm.trans hw)
    refine htracked.sight hrun _ rfl rfl ?_
    dsimp only
    split <;> simp
  · cases heq

theorem stopWorker_tracked {claimer : String}
    (h : TrackedAt now (db.workers.get? workerId) l)
    (heq : stopWorker now claimer session db = .ok ((), db')) :
    TrackedAt now (db'.workers.get? workerId)
      ((if claimer = workerId then some (left session now) else none).toList ++ l) := by
  obtain ⟨-, rfl⟩ := Prod.mk.inj (Except.ok.inj heq)
  by_cases hid : claimer = workerId
  · rw [if_pos hid]
    refine h.update (by intro _; rfl) rfl (fun w hw htracked => ?_) (fun _ hl => ?_)
    · have hwid : w.workerId = claimer := (Table.key_of_get? hw).trans hid.symm
      have hleft := htracked.leave session
      simpa [hwid] using hleft
    · intro v hv
      rcases List.mem_cons.mp hv with rfl | hv
      · rfl
      · exact hl v hv
  · rw [if_neg hid]
    refine h.update (by intro _; rfl) rfl (fun w hw htracked => ?_) (fun _ hl => hl)
    have hwid : w.workerId ≠ claimer := fun heq => hid (heq.symm.trans (Table.key_of_get? hw))
    rw [if_neg (by simp [hwid])]
    exact htracked

/-- The cleanup branch and `_finish` idle the rows that name the job. -/
theorem TrackedAt.idled {t t' : Table WorkerRow.workerId} {p : WorkerRow → Bool} {jobId : String}
    {f : WorkerRow → WorkerRow} (h : TrackedAt now (t.get? workerId) l)
    (hf : ∀ w, (f w).workerId = w.workerId) (ht : t' = t.update p f hf)
    (hp : ∀ w, p w = true → w.currentJobId = some jobId)
    (hidle : ∀ w, (f w).sessionId = w.sessionId ∧ (f w).lastSeenAt = w.lastSeenAt ∧
      (f w).status = .idle) : TrackedAt now (t'.get? workerId) l := by
  refine h.update hf ht (fun w _ htracked => ?_) (fun _ hl => hl)
  split
  · rename_i hw
    obtain ⟨hsession, hseen, hstatus⟩ := hidle w
    exact htracked.idle (hp w hw) _ hsession hseen hstatus
  · exact htracked

theorem finish_tracked {job job' : Job} {status : JobStatus} {error : Option String} {delay : Time}
    (h : TrackedAt now (db.workers.get? workerId) l)
    (heq : finish now job status error delay db = .ok (job', db')) :
    TrackedAt now (db'.workers.get? workerId) l := by
  unfold finish at heq
  split at heq
  · cases heq
  simp only at heq
  split at heq
  · cases heq
  · obtain ⟨-, rfl⟩ := Prod.mk.inj (Except.ok.inj heq)
    have hnamed : ∀ w : WorkerRow, (decide (some w.workerId = job.workerId) &&
        decide (w.currentJobId = some job.id)) = true → w.currentJobId = some job.id := by
      intro w hw
      rw [Bool.and_eq_true] at hw
      exact of_decide_eq_true hw.2
    exact h.idled (by intro _; rfl) rfl hnamed fun _ => ⟨rfl, rfl, rfl⟩

theorem renewLease_workers {job : Job} {b : Bool} (heq : renewLease cfg now job db = .ok (b, db')) :
    db'.workers = db.workers := by
  unfold renewLease at heq
  split at heq
  · cases heq
  split at heq
  · cases heq
  · obtain ⟨-, rfl⟩ := Prod.mk.inj (Except.ok.inj heq)
    rfl

theorem exhaustJob_workers {row : Job} (heq : exhaustJob now row db = .ok ((), db')) :
    db'.workers = db.workers ∨ db'.workers = exhaustWorkers row db.workers := by
  unfold exhaustJob at heq
  split at heq
  · cases heq
  simp only at heq
  split at heq
  · obtain ⟨-, rfl⟩ := Prod.mk.inj (Except.ok.inj heq)
    exact Or.inr rfl
  · obtain ⟨-, rfl⟩ := Prod.mk.inj (Except.ok.inj heq)
    exact Or.inl rfl

theorem takeJob_workers {row job : Job} {claimer : String}
    (heq : takeJob cfg now claimer session row db = .ok (job, db')) :
    db'.workers = claimWorkers now claimer row.id db.workers := by
  unfold takeJob at heq
  simp only at heq
  split at heq
  · cases heq
  split at heq
  · cases heq
  split at heq
  · cases heq
  split at heq
  · obtain ⟨-, rfl⟩ := Prod.mk.inj (Except.ok.inj heq)
    rfl
  · cases heq

/-- A claim is a sighting where it takes a job. -/
theorem claimLoop_tracked {claimer : String} {locked : Job → Bool} {n : ℕ} {r : Option Job}
    (h : TrackedAt now (db.workers.get? workerId) l)
    (hlive : sessionLive db claimer session = true)
    (heq : claimLoop cfg now claimer session locked n db = .ok (r, db')) :
    TrackedAt now (db'.workers.get? workerId)
      ((if r.isSome ∧ claimer = workerId then some (seen session now) else none).toList ++ l) := by
  induction n generalizing db with
  | zero =>
      obtain ⟨rfl, rfl⟩ := Prod.mk.inj (Except.ok.inj heq)
      simpa using h
  | succ n ih =>
      simp only [claimLoop] at heq
      split at heq
      · obtain ⟨rfl, rfl⟩ := Prod.mk.inj (Except.ok.inj heq)
        simpa using h
      rename_i row _
      split at heq
      · split at heq
        · cases heq
        · rename_i db₁ hexhaust
          rcases exhaustJob_workers hexhaust with hworkers | hworkers
          · refine ih ?_ ?_ heq
            · rw [hworkers]
              exact h
            · unfold sessionLive
              rw [hworkers]
              exact hlive
          · have hkeeps : KeepsSessions db.workers db₁.workers := by
              rw [hworkers]
              exact exhaustWorkers_keeps row db.workers
            refine ih ?_ (hkeeps.live hlive) heq
            rw [hworkers]
            have hnamed : ∀ w : WorkerRow, (decide (some w.workerId = row.workerId) &&
                decide (w.currentJobId = some row.id)) = true → w.currentJobId = some row.id := by
              intro w hw
              rw [Bool.and_eq_true] at hw
              exact of_decide_eq_true hw.2
            exact h.idled (by intro _; rfl) rfl hnamed fun _ => ⟨rfl, rfl, rfl⟩
      · split at heq
        · cases heq
        · rename_i htake
          obtain ⟨rfl, rfl⟩ := Prod.mk.inj (Except.ok.inj heq)
          rw [takeJob_workers htake]
          obtain ⟨v, hv, rfl, hrun⟩ := sessionLive_iff.mp hlive
          simp only [Option.isSome_some, true_and]
          refine h.update_id (by intro _; rfl) rfl (by rw [hv]; rfl) fun w hw htracked => ?_
          obtain rfl := Option.some.inj (hv.symm.trans hw)
          exact htracked.sight hrun _ rfl rfl (by simp)

theorem TrackedAt.later {w : Option WorkerRow} (h : TrackedAt now w l) (duration : ℕ) :
    TrackedAt (now + duration) w l := by
  cases w with
  | none => exact h
  | some w => exact Tracked.later h duration

/-- The session that the registry accepts is the one that holds the id. -/
theorem TrackedAt.live_iff (h : TrackedAt now (db.workers.get? workerId) l) :
    sessionLive db workerId session = true ↔ holder l = some session := by
  unfold sessionLive holder
  cases hw : db.workers.get? workerId with
  | none =>
      rw [hw] at h
      rw [occupant_eq_none h]
      simp
  | some w =>
      rw [hw] at h
      have hocc := Tracked.occupant h
      have hvac := Tracked.vacated h
      rw [hocc]
      by_cases hstopped : w.status = .stopped
      · simp [hvac.mpr hstopped, hstopped]
      · have hheld : vacated l = false := by
          rw [Bool.eq_false_iff]
          exact fun hv => hstopped (hvac.mp hv)
        simp [hheld, hstopped]

/-- A registration finds the id unused, stopped, or unseen for too long. -/
theorem TrackedAt.register {hostname version r : String} {pid : Int}
    (h : TrackedAt now (db.workers.get? workerId) l)
    (heq : registerWorker cfg now session workerId hostname pid version db = .ok (r, db')) :
    occupant l = none ∨ vacated l = true ∨
      ∀ v ∈ l, ∀ t, v.sighting = some t → t < now - cfg.workerOfflineSeconds := by
  unfold registerWorker at heq
  split at heq
  · rename_i hnone
    rw [hnone] at h
    exact Or.inl (occupant_eq_none h)
  · rename_i w hw
    rw [hw] at h
    split at heq
    · rename_i hfree
      rcases hfree with hstopped | hoffline
      · exact Or.inr (Or.inl ((Tracked.vacated h).mpr hstopped))
      · exact Or.inr (Or.inr fun v hv t ht => (Tracked.seen h v hv t ht).trans_lt hoffline)
    · cases heq

end

namespace Coord

variable {cfg : Settings} {s s₀ t : Coord} {a : Action} {workerId session : String}
  {l : List (Visit String Time)}

theorem answer_tracked {reply : Reply} {db : Db}
    (h : TrackedAt s.now (s.db.workers.get? workerId) l) (hans : s.answer cfg a = .ok (reply, db)) :
    TrackedAt s.now (db.workers.get? workerId) ((s.visit? cfg workerId a).toList ++ l) := by
  cases ha : a.writesRegistry with
  | false =>
      have hframe := answer_frame ha hans
      have hnone : s.visit? cfg workerId a = none := by
        cases a <;> first | rfl | cases ha
      rw [hnone, hframe.workers]
      exact h
  | true =>
      have hvisit := hans
      unfold answer at hans
      cases a with
      | registerWorker _ _ _ _ _ =>
          simp only [visit?, hvisit]
          obtain ⟨_, heq, -⟩ := replying_ok hans
          exact registerWorker_tracked h heq
      | heartbeatWorker _ _ _ =>
          simp only [visit?, hvisit]
          obtain ⟨_, heq, -⟩ := replying_ok hans
          exact heartbeatWorker_tracked h heq
      | stopWorker _ _ =>
          simp only [visit?, hvisit]
          simp only [Action.tx] at hans
          obtain ⟨_, heq, -⟩ := replying_ok hans
          exact stopWorker_tracked h heq
      | claimJob claimer session locked =>
          obtain ⟨r, heq, rfl⟩ := replying_ok hans
          simp only [visit?, hvisit]
          unfold claimJob at heq
          split at heq
          · rename_i hlive
            have hloop := claimLoop_tracked h hlive heq
            cases r with
            | none => simpa [Reply.ofJob?] using hloop
            | some job => simpa [Reply.ofJob?] using hloop
          · cases heq
      | renewLease _ =>
          obtain ⟨_, heq, -⟩ := replying_ok hans
          rw [renewLease_workers heq]
          exact h
      | completeJob _ _ | cancelJob _ | failJob _ _ =>
          obtain ⟨_, heq, -⟩ := replying_ok hans
          exact finish_tracked h heq
      | scheduleRetry _ _ _ =>
          obtain ⟨_, heq, -⟩ := replying_ok hans
          rw [scheduleRetry_eq] at heq
          exact finish_tracked h heq
      | _ => cases ha

theorem step_tracked (h : TrackedAt s.now (s.db.workers.get? workerId) l)
    (hstep : (system cfg).step s a t) :
    TrackedAt t.now (t.db.workers.get? workerId) ((s.visit? cfg workerId a).toList ++ l) := by
  obtain ⟨-, rfl⟩ := hstep
  cases hans : s.answer cfg a with
  | error e =>
      have hnone : s.visit? cfg workerId a = none := by
        unfold visit?
        rw [hans]
        cases a <;> rfl
      rw [hnone, next, hans]
      exact h.later _
  | ok result =>
      obtain ⟨reply, db⟩ := result
      rw [next, hans]
      exact (answer_tracked h hans).later _

theorem run_tracked {as : List Action} (h : TrackedAt s.now (s.db.workers.get? workerId) l)
    (hrun : (system cfg).Run s as t) :
    TrackedAt t.now (t.db.workers.get? workerId) (history cfg workerId s as ++ l) := by
  induction hrun generalizing l with
  | nil s => exact h
  | @cons s m t a as hstep _ ih =>
      obtain rfl : m = s.next cfg a := hstep.2
      rw [history, List.append_assoc]
      exact ih (step_tracked h hstep)

/-- The history of a run has the sessions that its registrations drew. -/
theorem entries_history (cfg : Settings) (workerId : String) (s : Coord) (as : List Action) :
    List.Sublist (entries (history cfg workerId s as)).reverse (as.filterMap Action.drawn?) := by
  induction as generalizing s with
  | nil => exact .slnil
  | cons a as ih =>
      have hone : List.Sublist (entries (s.visit? cfg workerId a).toList).reverse a.drawn?.toList := by
        unfold visit?
        split
        · split
          · exact List.Sublist.refl _
          · exact List.nil_sublist _
        all_goals
          first
          | exact List.nil_sublist _
          | (split <;> exact List.nil_sublist _)
      rw [history, entries_append, List.reverse_append, List.filterMap_cons]
      cases hdrawn : a.drawn? with
      | none =>
          rw [hdrawn] at hone
          rw [List.sublist_nil.mp hone]
          exact ih _
      | some session =>
          rw [hdrawn] at hone
          exact hone.append (ih _)

/-! ## The law -/

/-- The registry accepts a session: a heartbeat or a claim with it goes through. -/
def Accepted (cfg : Settings) (s : Coord) (workerId session : String) : Prop :=
  (∃ currentJob r, s.answer cfg (.heartbeatWorker workerId session currentJob) = .ok r) ∨
    ∃ locked r, s.answer cfg (.claimJob workerId session locked) = .ok r

theorem heartbeat_error (h : ¬ sessionLive s.db workerId session = true)
    (currentJob : Option String) :
    s.answer cfg (.heartbeatWorker workerId session currentJob) =
      .error (.leaseLost "worker registry session lost") := by
  refine replying_error.mpr ?_
  rw [heartbeatWorker, if_neg h]

theorem claim_error (h : ¬ sessionLive s.db workerId session = true) (locked : Job → Bool) :
    s.answer cfg (.claimJob workerId session locked) =
      .error (.leaseLost "worker registry session lost") := by
  refine replying_error.mpr ?_
  rw [claimJob, if_neg h]

theorem Accepted.live (h : Accepted cfg s workerId session) :
    sessionLive s.db workerId session = true := by
  by_contra hlive
  rcases h with ⟨currentJob, r, hans⟩ | ⟨locked, r, hans⟩
  · rw [heartbeat_error hlive] at hans
    cases hans
  · rw [claim_error hlive] at hans
    cases hans

/-- The calls that a session is presented with. -/
def Presents (workerId session : String) (a : Action) : Prop :=
  (∃ currentJob, a = .heartbeatWorker workerId session currentJob) ∨
    (∃ locked, a = .claimJob workerId session locked) ∨ a = .stopWorker workerId session

/-- A session that is not accepted changes no table but the registry, and there no row but its
own. -/
theorem presents_keeps (h : ¬ sessionLive s.db workerId session = true)
    (ha : Presents workerId session a) :
    (s.next cfg a).db.toLedger = s.db.toLedger ∧
      ∀ k w, s.db.workers.get? k = some w → ¬ (k = workerId ∧ w.sessionId = session) →
        (s.next cfg a).db.workers.get? k = some w := by
  rcases ha with ⟨currentJob, rfl⟩ | ⟨locked, rfl⟩ | rfl
  · rw [next_of_error (heartbeat_error h currentJob)]
    exact ⟨rfl, fun _ _ hw _ => hw⟩
  · rw [next_of_error (claim_error h locked)]
    exact ⟨rfl, fun _ _ hw _ => hw⟩
  · refine ⟨rfl, fun k w hw hother => ?_⟩
    have hkey : w.workerId = k := Table.key_of_get? hw
    have hrow : (s.next cfg (.stopWorker workerId session)).db.workers.get? k =
        (s.db.workers.get? k).map fun w => if w.workerId = workerId && w.sessionId = session then
          { w with status := .stopped, currentJobId := none, lastSeenAt := s.now } else w :=
      Table.get?_update _ _ _ (by intro _; rfl) _
    rw [hrow, hw, Option.map_some, if_neg]
    rw [hkey]
    simpa using hother

/-- Worker sessions are fenced. In the state that a run reaches whose registrations drew
distinct sessions: an id is registered anew only if nobody registered it, its last session
left it, or it was last seen too long ago; one session of it at most is accepted; and a
session that was replaced or stopped is refused, and changes nothing but a row of its own. -/
theorem worker_sessions_fenced (h₀ : (system cfg).init s₀) {as : List Action}
    (hrun : (system cfg).Run s₀ as s) (hdrawn : (as.filterMap Action.drawn?).Nodup)
    (workerId : String) :
    (∀ session hostname pid version r,
      s.answer cfg (.registerWorker session workerId hostname pid version) = .ok r →
        occupant (history cfg workerId s₀ as) = none ∨
          vacated (history cfg workerId s₀ as) = true ∨
          ∀ v ∈ history cfg workerId s₀ as, ∀ t, v.sighting = some t →
            t < s.now - cfg.workerOfflineSeconds) ∧
    (∀ session session', Accepted cfg s workerId session → Accepted cfg s workerId session' →
      session = session') ∧
    ∀ session, Ended session (history cfg workerId s₀ as) →
      (∀ currentJob, s.answer cfg (.heartbeatWorker workerId session currentJob) =
        .error (.leaseLost "worker registry session lost")) ∧
      (∀ locked, s.answer cfg (.claimJob workerId session locked) =
        .error (.leaseLost "worker registry session lost")) ∧
      ∀ a, Presents workerId session a →
        (s.next cfg a).db.toLedger = s.db.toLedger ∧
          ∀ k w, s.db.workers.get? k = some w → ¬ (k = workerId ∧ w.sessionId = session) →
            (s.next cfg a).db.workers.get? k = some w := by
  have hfirst : TrackedAt s₀.now (s₀.db.workers.get? workerId) [] := by
    rw [h₀.1]
    intro v hv
    cases hv
  have htracked := run_tracked hfirst hrun
  rw [List.append_nil] at htracked
  refine ⟨fun session hostname pid version r hans => ?_, fun session session' h h' => ?_,
    fun session hended => ?_⟩
  · obtain ⟨reply, db⟩ := r
    obtain ⟨_, heq, -⟩ := replying_ok hans
    exact htracked.register heq
  · have hholds := htracked.live_iff.mp h.live
    rw [htracked.live_iff.mp h'.live] at hholds
    exact (Option.some.inj hholds).symm
  · have hnodup : (entries (history cfg workerId s₀ as)).Nodup :=
      List.nodup_reverse.mp ((entries_history cfg workerId s₀ as).nodup hdrawn)
    have hlost : ¬ sessionLive s.db workerId session = true := fun hlive =>
      hended.not_holder hnodup (htracked.live_iff.mp hlive)
    exact ⟨heartbeat_error hlost, claim_error hlost, fun a ha => presents_keeps hlost ha⟩

/-- An id changes hands after a session was not seen for too long. -/
def handover : List Action :=
  [.registerWorker "session-1" "worker-1" "host" 1 "1", .advance 60000001,
    .registerWorker "session-2" "worker-1" "host" 2 "1"]

/-- The first session of the handover is refused. -/
theorem worker_sessions_fenced_handover :
    history .default "worker-1" (.empty 0) handover =
        [.entered "session-2" 60000001, .entered "session-1" 0] ∧
      ((empty 0).exec .default handover).answer .default
          (.heartbeatWorker "worker-1" "session-1" none) =
        .error (.leaseLost "worker registry session lost") := by
  have hhistory : history .default "worker-1" (.empty 0) handover =
      [.entered "session-2" 60000001, .entered "session-1" 0] := by decide +kernel
  have hadmits : (empty 0).Admits .default handover := by decide +kernel
  have hdrawn : (handover.filterMap Action.drawn?).Nodup := by decide
  have hinit : (system .default).init (empty 0) := ⟨rfl, rfl⟩
  have hended : Ended "session-1" (history .default "worker-1" (.empty 0) handover) := by
    rw [hhistory]
    exact ⟨[.entered "session-2" 60000001], 0, [], rfl,
      Or.inl ⟨"session-2", 60000001, List.mem_cons_self⟩⟩
  have hlaw := worker_sessions_fenced hinit (run_exec hadmits) hdrawn "worker-1"
  exact ⟨hhistory, (hlaw.2.2 "session-1" hended).1 none⟩

end Coord

end RepoMesh
