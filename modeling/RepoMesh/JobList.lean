import RepoMesh.Insertions
import RepoMesh.Paging
import RepoMesh.StateMachine

/-!
# Listing jobs

`list_jobs` counts and reads one page in one snapshot; the pages of a reader are snapshots
of different states. Rows stay, and keep the columns they are ordered by, so a listing only
grows, unless it filters by a status that jobs leave.
-/

namespace RepoMesh

/-- The `WHERE` of `list_jobs`. -/
def Job.listed (repositoryId status : Option String) (j : Job) : Bool :=
  (repositoryId.filter (· ≠ "")).all (j.repositoryId = ·) &&
    match status.filter (· ≠ "") with
    | none => true
    | some s =>
        if s = "active" then !j.status.terminal
        else JobStatus.ofText s = some j.status

/-- `ORDER BY created_at DESC,id DESC`. -/
def newestFirst (j : Job) : (Time ×ₗ String)ᵒᵈ :=
  OrderDual.toDual (toLex (j.createdAt, j.id))

structure JobPage where
  jobs : List Job
  total : ℕ
  limit : ℕ
  offset : ℕ

def listJobs (repositoryId status : Option String) (limit offset : ℕ) (l : Ledger) : JobPage where
  jobs := page newestFirst limit offset (l.jobs.rows.filter (·.listed repositoryId status))
  total := l.jobs.rows.countP (·.listed repositoryId status)
  limit := limit
  offset := offset

/-- No filter by status, or by one that jobs do not leave. -/
def Lasting (status : Option String) : Prop :=
  ∀ s, status = some s → s = "" ∨ ∃ st, JobStatus.ofText s = some st ∧ st.terminal = true

section

variable {l : Ledger} {repositoryId status : Option String} {j j' : Job}

theorem newestFirst_inj (h : newestFirst j = newestFirst j') : j.id = j'.id :=
  congrArg (fun k => (ofLex (OrderDual.ofDual k)).2) h

theorem newestFirst_congr (hid : j'.id = j.id) (hcreated : j'.createdAt = j.createdAt) :
    newestFirst j' = newestFirst j := by
  rw [newestFirst, hid, hcreated]
  rfl

/-- The order tells the rows apart. -/
theorem nodup_newestFirst (l : Ledger) (p : Job → Bool) :
    ((l.jobs.rows.filter p).map newestFirst).Nodup := by
  refine ((l.jobs.nodup.of_map Job.id).filter p).map_on fun j hj j' hj' heq => ?_
  exact Table.eq_of_key (List.mem_filter.mp hj).1 (List.mem_filter.mp hj').1 (newestFirst_inj heq)

/-- A terminal status is not the name `active`. -/
theorem listed_lasting (hlast : Lasting status) (hlisted : j.listed repositoryId status = true) :
    (status.filter (· ≠ "")) = none ∨ j.status.terminal = true := by
  cases hs : status.filter (· ≠ "") with
  | none => exact Or.inl rfl
  | some s =>
      obtain ⟨hsome, hne⟩ := Option.filter_eq_some_iff.mp hs
      rcases hlast s hsome with rfl | ⟨st, hst, hterm⟩
      · simp at hne
      · have hactive : s ≠ "active" := by
          rintro rfl
          cases hst
        have hmatch : JobStatus.ofText s = some j.status := by
          unfold Job.listed at hlisted
          rw [hs] at hlisted
          have hstatus := (Bool.and_eq_true_iff.mp hlisted).2
          simp only [hactive, if_false] at hstatus
          exact of_decide_eq_true hstatus
        obtain rfl := Option.some.inj (hst.symm.trans hmatch)
        exact Or.inr hterm

end

namespace Coord

variable {cfg : Settings} {s t : Coord} {as : List Action} {repositoryId status : Option String}
  {j : Job}

/-- What is listed stays listed. -/
theorem run_listed (h : (system cfg).Reachable s) (hrun : (system cfg).Run s as t)
    (hlast : Lasting status) (hj : j ∈ s.db.jobs.rows)
    (hlisted : j.listed repositoryId status = true) :
    ∃ j' ∈ t.db.jobs.rows, j'.listed repositoryId status = true ∧
      newestFirst j' = newestFirst j := by
  rcases listed_lasting hlast hlisted with hnone | hterm
  · obtain ⟨j', hj', hkept, -⟩ := run_job_kept h hrun (Table.get?_of_mem hj)
    refine ⟨j', Table.mem_of_get? hj', ?_, newestFirst_congr hkept.id hkept.createdAt⟩
    have hrepo := (Bool.and_eq_true_iff.mp hlisted).1
    rw [← hkept.repositoryId] at hrepo
    rw [Job.listed, hrepo, hnone]
    rfl
  · have hget := terminal_final h hrun (Table.get?_of_mem hj) hterm
    exact ⟨j, Table.mem_of_get? hget, hlisted, rfl⟩

/-- Page after page, read while the store goes on, until a page is the last by the total it
shows: every job listed at the start is on one of them. Read in one state, the pages are the
listing. -/
theorem pages_meet_all {u : ℕ → Coord} (h : (system cfg).Reachable (u 0))
    (hrun : ∀ i, ∃ as, (system cfg).Run (u i) as (u (i + 1))) (hlast : Lasting status)
    (repositoryId : Option String) {limit n : ℕ}
    (hend : (listJobs repositoryId status limit (n * limit) (u n).db.toLedger).total ≤
      (n + 1) * limit) :
    (∀ j ∈ (u 0).db.jobs.rows, j.listed repositoryId status = true →
      ∃ i ≤ n, ∃ j' ∈ (listJobs repositoryId status limit (i * limit) (u i).db.toLedger).jobs,
        j'.id = j.id) ∧
    ((∀ i, u i = u 0) →
      (List.range (n + 1)).flatMap (fun i =>
        (listJobs repositoryId status limit (i * limit) (u i).db.toLedger).jobs) =
      sortBy newestFirst ((u 0).db.jobs.rows.filter (·.listed repositoryId status))) := by
  let ls : ℕ → List Job := fun i => (u i).db.jobs.rows.filter (·.listed repositoryId status)
  have hlength : ∀ i, (ls i).length =
      (u i).db.jobs.rows.countP (·.listed repositoryId status) := fun i =>
    (List.countP_eq_length_filter).symm
  have hreach : ∀ i, (system cfg).Reachable (u i) := by
    intro i
    induction i with
    | zero => exact h
    | succ i ih =>
        obtain ⟨as, hi⟩ := hrun i
        exact ih.run hi
  have hfits : (ls n).length ≤ (n + 1) * limit := (hlength n).le.trans hend
  constructor
  · intro j hj hlisted
    have hgrow : ∀ i, ∀ k ∈ (ls i).map newestFirst, k ∈ (ls (i + 1)).map newestFirst := by
      intro i k hk
      obtain ⟨r, hr, rfl⟩ := List.mem_map.mp hk
      obtain ⟨hr, hrlisted⟩ := List.mem_filter.mp hr
      obtain ⟨as, hi⟩ := hrun i
      obtain ⟨r', hr', hlisted', hkey⟩ := run_listed (hreach i) hi hlast hr hrlisted
      exact List.mem_map.mpr ⟨r', List.mem_filter.mpr ⟨hr', hlisted'⟩, hkey⟩
    obtain ⟨i, hi, r, hr, hkey⟩ :=
      paging_meets (fun i => nodup_newestFirst (u i).db.toLedger _) hgrow hfits
        (List.mem_map_of_mem (List.mem_filter.mpr ⟨hj, hlisted⟩))
    exact ⟨i, hi, r, hr, newestFirst_inj hkey⟩
  · intro hsame
    have hpages : (fun i => (listJobs repositoryId status limit (i * limit)
        (u i).db.toLedger).jobs) = fun i => page newestFirst limit (i * limit) (ls 0) := by
      funext i
      rw [hsame i]
      rfl
    rw [hpages]
    refine pages_of_one newestFirst (ls 0) ?_
    rw [← show ls n = ls 0 from congrArg (fun s : Coord => s.db.jobs.rows.filter
      (·.listed repositoryId status)) (hsame n)]
    exact hfits

/-- Two jobs, listed one to a page; a third is submitted after the first page was read. -/
theorem pages_meet_all_shifted :
    let s := (empty 0).exec .default [.submitJob "job-1" "repo" "full" none 0, .advance 1,
      .submitJob "job-2" "repo" "full" none 0, .advance 1]
    let t := s.exec .default [.submitJob "job-3" "repo" "full" none 0]
    let u : ℕ → Coord := fun i => if i = 0 then s else t
    (List.range 3).map (fun i =>
        (listJobs none none 1 (i * 1) (u i).db.toLedger).jobs.map (·.id)) =
      [["job-2"], ["job-2"], ["job-1"]] ∧
    ∀ j ∈ (u 0).db.jobs.rows, j.listed none none = true →
      ∃ i ≤ 2, ∃ j' ∈ (listJobs none none 1 (i * 1) (u i).db.toLedger).jobs, j'.id = j.id := by
  intro s t u
  have hs : (system .default).Reachable s := reachable_exec (by decide)
  have hst : (system .default).Run s [.submitJob "job-3" "repo" "full" none 0] t :=
    run_exec (by decide)
  refine ⟨by decide +kernel, ?_⟩
  refine (pages_meet_all (u := u) hs (fun i => ?_) (fun _ h => by cases h) none
    (by decide +kernel)).1
  cases i with
  | zero => exact ⟨_, hst⟩
  | succ i => exact ⟨[], .nil t⟩

/-- By a status that jobs leave, a page can be skipped: the first job is cancelled after
its page was read, and the second one moves up. -/
example :
    let s := (empty 0).exec .default [.submitJob "job-1" "repo" "full" none 0, .advance 1,
      .submitJob "job-2" "repo" "full" none 0]
    let t := s.exec .default [.requestCancel "job-2"]
    (listJobs none (some "active") 1 0 s.db.toLedger).jobs.map (·.id) = ["job-2"] ∧
      (listJobs none (some "active") 1 1 t.db.toLedger).jobs = [] ∧
      (listJobs none (some "active") 1 1 t.db.toLedger).total = 1 := by
  decide +kernel

end Coord

end RepoMesh
