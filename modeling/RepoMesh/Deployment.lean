import RepoMesh.FailedFile
import RepoMesh.Fleet
import RepoMesh.Guard
import RepoMesh.LegacyImport
import RepoMesh.Settling

/-!
# Workers and the index they share

`Worker.execute` around its pass: what the `try` block comes to decides which finishing call
the worker makes. A deployment is a fleet, the index its workers write and, for each process,
what its execution has come to; its fleet moves are those of the fleet as far as a worker
that runs `execute` makes them.

A pass is one move, made while the job is owned. The calls of a real pass are spread over
time; the storage calls of two executions of one repository follow each other in the order
of their claims because the guard fences them (`Cluster`).
-/

namespace RepoMesh

/-- A pass that an execution ran, in the world where it began. -/
structure ExecutedPass where
  job : Job
  pass : Pass
  before : World

namespace ExecutedPass

def outcome (h : Hashing) (e : ExecutedPass) : Except Exc IndexStats := (e.pass.run h e.before).1

def after (h : Hashing) (e : ExecutedPass) : World := (e.pass.run h e.before).2

end ExecutedPass

/-- `Database.add_repository` -/
def World.addRepository (row : RepositoryRow) (w : World) : World :=
  { w with db := { w.db with repositories := w.db.repositories.insertNew row } }

/-- The finishing calls that `execute` makes when its `try` block has come to `result`. -/
def Process.Move.follows (result : Option (Except Exc IndexStats)) : Process.Move → Bool
  | .complete withErrors =>
      match result with
      | some (.ok stats) => withErrors == (stats.errorCount != 0)
      | _ => false
  | .cancel =>
      match result with
      | some (.error .indexCancelled) => true
      | _ => false
  | .fail error _ =>
      match result with
      | some (.error e) => e.counted && error == e.text
      -- `complete_job` could not reach PostgreSQL
      | some (.ok _) => true
      | none => false
  | _ => true

structure Deployment where
  fleet : Fleet
  world : World
  /-- what the `try` block of the process has come to, if it is over -/
  results : ℕ → Option (Except Exc IndexStats)
  /-- newest first -/
  executions : List ExecutedPass

namespace Deployment

inductive Move where
  | fleet (m : Fleet.Move)
  | addRepository (row : RepositoryRow)
  /-- the repository is missing, or its path is not valid any more -/
  | refuse (i : ℕ) (text : String)
  | index (i : ℕ) (pass : Pass)

/-- The job whose pass the process is to run. -/
def pending (d : Deployment) (i : ℕ) : Option Job :=
  (d.fleet.processes i).bind fun p =>
    match p.phase, d.results i with
    | .executing _ job _ false, none => some job
    | _, _ => none

/-- The job is the store's, and the pass is the one that `execute` makes of it. -/
def Executes (d : Deployment) (job : Job) (pass : Pass) : Prop :=
  (ownedRow d.fleet.coord.now d.fleet.coord.db.toLedger job).isSome = true ∧
    pass.repositoryId.text = job.repositoryId ∧ pass.mode = executedMode job

instance (d : Deployment) (job : Job) (pass : Pass) : Decidable (d.Executes job pass) :=
  inferInstanceAs (Decidable (_ ∧ _))

/-- A finishing call is the one that follows from the result. -/
def follows (d : Deployment) : Fleet.Move → Bool
  | .process i m => m.follows (d.results i)
  | _ => true

/-- A claim begins an execution. -/
def resultsAfter (d : Deployment) : Fleet.Move → ℕ → Option (Except Exc IndexStats)
  | .process i (.claim _) => Function.update d.results i none
  | _ => d.results

/-- The process runs the pass. -/
def ran (h : Hashing) (d : Deployment) (i : ℕ) (e : ExecutedPass) : Deployment :=
  { d with
    world := e.after h
    results := Function.update d.results i (some (e.outcome h))
    executions := e :: d.executions }

/-- The deployment after a move, if it is possible. -/
def next (cfg : Settings) (h : Hashing) (d : Deployment) : Move → Option Deployment
  | .fleet m =>
      if d.follows m then
        (d.fleet.next cfg m).map fun f => { d with fleet := f, results := d.resultsAfter m }
      else none
  | .addRepository row => some { d with world := d.world.addRepository row }
  | .refuse i text =>
      (d.pending i).map fun _ =>
        { d with results := Function.update d.results i (some (.error (.other text))) }
  | .index i pass =>
      (d.pending i).bind fun job =>
        if d.Executes job pass then some (d.ran h i ⟨job, pass, d.world⟩) else none

/-- A deployment starts with an empty store, an empty index and no process. -/
def system (cfg : Settings) (h : Hashing) : System Deployment Move where
  init d := (Fleet.system cfg).init d.fleet ∧ d.world.Fresh ∧ d.executions = []
  step d m d' := d.next cfg h m = some d'

theorem pending_eq_some {d : Deployment} {i : ℕ} {job : Job} (h : d.pending i = some job) :
    d.results i = none ∧ ∃ p, d.fleet.processes i = some p ∧ p.job? = some job := by
  obtain ⟨p, hp, hjob⟩ := Option.bind_eq_some_iff.mp h
  split at hjob
  · rename_i hphase hresult
    refine ⟨hresult, p, hp, ?_⟩
    rw [Process.job?, hphase]
    exact hjob
  · cases hjob

end Deployment

/-! ## The fleet under a deployment -/

namespace Process

variable {p p' : Process} {m : Move} {a : Action} {job : Job}

/-- What becomes of a process depends on the reply to its claims alone. -/
theorem turn_reply {after : Except Error Reply → Option Process}
    (h : p.turn m = some (.call a after)) (hm : ∀ locked, m ≠ .claim locked) (r r' : Reply) :
    after (.ok r) = after (.ok r') := by
  unfold turn at h
  split at h <;> cases h <;> first | rfl | exact absurd rfl (hm _)

/-- A process goes on with its job, or its claim gives it one. -/
theorem turn_job {after : Except Error Reply → Option Process} {r : Except Error Reply}
    (h : p.turn m = some (.call a after)) (hafter : after r = some p')
    (hjob : p'.job? = some job) :
    (p.job? = some job ∧ ∀ locked, m ≠ .claim locked) ∨
      ∃ workerId session locked, m = .claim locked ∧ a = .claimJob workerId session locked ∧
        r = .ok (.job job) := by
  by_cases hclaim : ∃ locked, m = .claim locked
  · obtain ⟨locked, rfl⟩ := hclaim
    cases hphase : p.phase with
    | polled session =>
        simp only [turn, hphase] at h
        cases h
        exact Or.inr ⟨_, _, _, rfl, rfl, claimed_job hafter hjob⟩
    | _ =>
        simp only [turn, hphase] at h
        cases h
  · have hm : ∀ locked, m ≠ .claim locked := fun locked heq => hclaim ⟨locked, heq⟩
    refine Or.inl ⟨?_, hm⟩
    cases r with
    | error e => exact (call_job h hafter hjob).resolve_right (by simp)
    | ok reply =>
        rw [turn_reply h hm reply .unit] at hafter
        exact (call_job h hafter hjob).resolve_right (by simp)

end Process

namespace Fleet

variable {cfg : Settings} {f f' : Fleet} {m : Move}

theorem init_holds (h : (system cfg).init f) : f.Holds := by
  intro i p job hp
  rw [h.2 i] at hp
  cases hp

theorem reachable_holds (h : (system cfg).Reachable f) : f.Holds :=
  h.induct (I := Holds) (fun _ => init_holds) fun _ _ _ _ hholds hstep =>
    (next_step hholds hstep).1

theorem reachable_coord (h : (system cfg).Reachable f) :
    (Coord.system cfg).Reachable f.coord := by
  obtain ⟨f₀, ms, hinit, hrun⟩ := h
  exact ⟨f₀.coord, _, hinit.1, coord_run (init_holds hinit) hrun⟩

/-- A move leaves the store alone, or is one of its steps. -/
theorem next_coord (h : f.Holds) (hnext : f.next cfg m = some f') :
    f'.coord = f.coord ∨
      ∃ a, f.action? m = some a ∧ (Coord.system cfg).step f.coord a f'.coord := by
  obtain ⟨-, hadm, hcoord⟩ := next_step h hnext
  cases ha : f.action? m with
  | none =>
      rw [ha] at hcoord
      exact Or.inl hcoord
  | some a =>
      rw [ha] at hcoord
      exact Or.inr ⟨a, rfl, hadm a ha, hcoord⟩

/-- The move is the claim by which process `i` was handed the job. -/
structure Hands (cfg : Settings) (f f' : Fleet) (m : Move) (i : ℕ) (job : Job) : Prop where
  move : ∃ locked, m = .process i (.claim locked)
  claim : ∃ workerId session locked db,
    f.coord.answer cfg (.claimJob workerId session locked) = .ok (.job job, db) ∧
      f'.coord = f.coord.next cfg (.claimJob workerId session locked)
  others : ∀ k, k ≠ i → f'.processes k = f.processes k

/-- Where a process that executes a job was before the move. -/
theorem next_job (hnext : f.next cfg m = some f') {i : ℕ} {p' : Process} {job : Job}
    (hp' : f'.processes i = some p') (hjob : p'.job? = some job) :
    ((∃ p, f.processes i = some p ∧ p.job? = some job) ∧
      ∀ locked, m ≠ .process i (.claim locked)) ∨ Hands cfg f f' m i job := by
  have hset : ∀ {g : Fleet} {k : ℕ} {q : Option Process}, g.setProcess k q = f' →
      i ≠ k ∧ g.processes i = some p' ∨ i = k ∧ q = some p' := by
    rintro g k q rfl
    simp only [setProcess, Function.update_apply] at hp'
    split at hp'
    · rename_i hik
      exact Or.inr ⟨hik, hp'⟩
    · rename_i hik
      exact Or.inl ⟨hik, hp'⟩
  cases m with
  | start k workerId hostname pid version =>
      refine Or.inl ⟨?_, by simp⟩
      rw [next] at hnext
      split at hnext
      · rcases hset (Option.some.inj hnext) with ⟨-, hsame⟩ | ⟨-, hq⟩
        · exact ⟨p', hsame, hjob⟩
        · obtain rfl := Option.some.inj hq
          cases hjob
      · cases hnext
  | client a =>
      refine Or.inl ⟨?_, by simp⟩
      rw [next] at hnext
      split at hnext
      · obtain rfl := Option.some.inj hnext
        exact ⟨p', hp', hjob⟩
      · cases hnext
  | process k m =>
      rw [next] at hnext
      split at hnext
      · cases hnext
      · rename_i q hturn
        obtain ⟨p, hp, hq⟩ := Option.bind_eq_some_iff.mp hturn
        rcases hset (Option.some.inj hnext) with ⟨hne, hsame⟩ | ⟨rfl, rfl⟩
        · exact Or.inl ⟨⟨p', hsame, hjob⟩, fun _ heq => hne (Move.process.inj heq).1.symm⟩
        · refine Or.inl ⟨⟨p, hp, Process.pass_job hq hjob⟩, fun locked heq => ?_⟩
          rw [(Move.process.inj heq).2] at hq
          unfold Process.turn at hq
          split at hq <;> cases hq <;> simp_all
      · rename_i a after hturn
        obtain ⟨p, hp, hcall⟩ := Option.bind_eq_some_iff.mp hturn
        rcases hset (Option.some.inj hnext) with ⟨hne, hsame⟩ | ⟨rfl, hq⟩
        · exact Or.inl ⟨⟨p', hsame, hjob⟩, fun _ heq => hne (Move.process.inj heq).1.symm⟩
        · rcases Process.turn_job hcall hq hjob with ⟨hold, hm⟩ | ⟨workerId, session, locked, rfl, rfl, hr⟩
          · exact Or.inl ⟨⟨p, hp, hold⟩, fun locked heq => hm locked (Move.process.inj heq).2⟩
          · obtain ⟨db, hans⟩ : ∃ db, f.coord.answer cfg (.claimJob workerId session locked) =
                .ok (.job job, db) := by
              cases hans : f.coord.answer cfg (.claimJob workerId session locked) with
              | error e =>
                  rw [hans] at hr
                  cases hr
              | ok result =>
                  obtain ⟨reply, db⟩ := result
                  rw [hans] at hr
                  obtain rfl : reply = .job job := Except.ok.inj hr
                  exact ⟨db, rfl⟩
            have hnext := Option.some.inj hnext
            refine Or.inr ⟨⟨locked, rfl⟩, ⟨workerId, session, locked, db, hans, ?_⟩, ?_⟩
            · rw [← hnext]
              rfl
            · intro k hk
              rw [← hnext]
              exact Function.update_of_ne hk _ _

end Fleet

namespace Deployment

variable {cfg : Settings} {h : Hashing} {d d' : Deployment} {m : Move}

/-- What a move does. -/
inductive Steps (cfg : Settings) (h : Hashing) (d : Deployment) : Deployment → Prop where
  | fleet {m : Fleet.Move} {f : Fleet} : d.follows m = true → d.fleet.next cfg m = some f →
      Steps cfg h d { d with fleet := f, results := d.resultsAfter m }
  | addRepository (row : RepositoryRow) :
      Steps cfg h d { d with world := d.world.addRepository row }
  | refuse {i : ℕ} {job : Job} (text : String) : d.pending i = some job →
      Steps cfg h d
        { d with results := Function.update d.results i (some (.error (.other text))) }
  | index {i : ℕ} {job : Job} {pass : Pass} : d.pending i = some job → d.Executes job pass →
      Steps cfg h d (d.ran h i ⟨job, pass, d.world⟩)

theorem next_steps (hnext : d.next cfg h m = some d') : Steps cfg h d d' := by
  cases m with
  | fleet m =>
      rw [next] at hnext
      split at hnext
      · rename_i hfollows
        obtain ⟨f, hf, rfl⟩ := Option.map_eq_some_iff.mp hnext
        exact .fleet hfollows hf
      · cases hnext
  | addRepository row =>
      obtain rfl := Option.some.inj hnext
      exact .addRepository row
  | refuse i text =>
      obtain ⟨job, hjob, rfl⟩ := Option.map_eq_some_iff.mp hnext
      exact .refuse text hjob
  | index i pass =>
      obtain ⟨job, hjob, hran⟩ := Option.bind_eq_some_iff.mp hnext
      split at hran
      · obtain rfl := Option.some.inj hran
        exact .index hjob ‹_›
      · cases hran

end Deployment

end RepoMesh
