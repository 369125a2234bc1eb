import RepoMesh.Discover
import RepoMesh.IndexStore
import RepoMesh.Transition
import RepoMesh.Watch

/-!
# Registering repositories

`POST /v1/repositories` as a system of requests over the SQLite table and the watches. A
request validates its path, looks the id of the path up, inserts where nothing was found,
and ensures the watch; every other request may run between any two of these. The id is a hash
of the path in lower case with `\` for `/`, while the table is unique on the id and on the
path as it is; so registrations are one to one with roots exactly where no two requested
roots share an id and no insertion comes too late (`registrations_match_iff`).
-/

namespace RepoMesh

/-- What the machine answers about paths, which are texts here as `str` writes them. What is
proved below holds whatever the functions are; `lower` is Python's over the whole of Unicode,
where `RepoMesh.lower` is only right about names in ASCII. -/
structure Host where
  /-- `Path(text).expanduser().resolve()` -/
  resolve : String → String
  isDir : String → Bool
  /-- the path is one of the allowed roots, or below one -/
  allowed : String → Bool
  /-- `git rev-parse --show-toplevel`, if it succeeds -/
  toplevel : String → Option String
  /-- `str.lower` -/
  lower : String → String
  /-- `uuid.uuid5(NAMESPACE_URL, ..)` -/
  uuid5 : String → Uuid

/-- Why a registration fails. -/
inductive RegistrationError where
  | repositoryValidationError (detail : String)
  | sqliteIntegrityError (message : String)
  | coordination (e : Error)

/-- A row of `repositories`. -/
structure Repository where
  id : Uuid
  name : String
  root : String
  commitSha : String
  status : String
  createdAt : Time
  updatedAt : Time

structure RegisterRepositoryRequest where
  path : String
  name : Option String
  autoIndex : Option Bool

namespace Host

def validateRepositoryPath (host : Host) (pathText : String) :
    Except RegistrationError String :=
  let path := host.resolve pathText
  if ¬ host.isDir path then
    .error (.repositoryValidationError "repository path does not exist or is not a directory")
  else if ¬ host.allowed path then
    .error (.repositoryValidationError "repository path is outside REPOMESH_REPOSITORY_ROOTS")
  else
    match host.toplevel path with
    | none => .error (.repositoryValidationError "path is not a readable Git repository")
    | some output =>
        if host.resolve output ≠ path then
          .error
            (.repositoryValidationError "register the Git repository root, not a subdirectory")
        else .ok path

/-- `str(path).lower().replace("\\", "/")`. -/
def normalized (host : Host) (path : String) : String :=
  (host.lower path).map fun c => if c = '\\' then '/' else c

def repositoryId (host : Host) (path : String) : Uuid :=
  host.uuid5 (host.normalized path)

/-- `path.name`: what follows the last separator. -/
def pathName (path : String) : String :=
  String.ofList (path.toList.reverse.takeWhile (· ≠ '/')).reverse

/-- `register_repository`; `head` is what `git rev-parse HEAD` answers. -/
def registerRepository (host : Host) (path : String) (name head : Option String) (now : Time) :
    Repository where
  id := host.repositoryId path
  name := (name.filter (· ≠ "")).getD (pathName path)
  root := path
  commitSha := head.getD "UNCOMMITTED"
  status := "registered"
  createdAt := now
  updatedAt := now

end Host

/-- `Database.add_repository`: one INSERT under both unique constraints, of which SQLite
checks the one declared last first. -/
def addRepository (repository : Repository) (t : Table Repository.id) :
    Except RegistrationError (Table Repository.id) :=
  if t.rows.any (·.root = repository.root) then
    .error (.sqliteIntegrityError "UNIQUE constraint failed: repositories.root")
  else if (t.get? repository.id).isSome then
    .error (.sqliteIntegrityError "UNIQUE constraint failed: repositories.id")
  else .ok (t.insertNew repository)

/-- How far a request is: its repository is built, was not found, or is to be returned. -/
inductive Stage where
  | registered (repository : Repository)
  | missing (repository : Repository)
  | returning (repository : Repository)
  | answered (reply : Except RegistrationError Repository)

/-- The table of repositories, the coordination store, and the requests in order of arrival. -/
structure Registrar where
  repositories : Table Repository.id
  db : Db
  requests : List (RegisterRepositoryRequest × Stage)

namespace Registrar

inductive Move where
  | receive (request : RegisterRepositoryRequest) (head : Option String) (now : Time)
  | lookup (i : ℕ)
  | insert (i : ℕ)
  | ensure (i : ℕ)

/-- Validation and `register_repository`. -/
def received (host : Host) (request : RegisterRepositoryRequest) (head : Option String)
    (now : Time) : Stage :=
  match host.validateRepositoryPath request.path with
  | .error e => .answered (.error e)
  | .ok path => .registered (host.registerRepository path request.name head now)

def setStage (s : Registrar) (i : ℕ) (request : RegisterRepositoryRequest) (stage : Stage) :
    Registrar :=
  { s with requests := s.requests.set i (request, stage) }

/-- The registrar after a move, if it is possible. -/
def next (cfg : Settings) (host : Host) (s : Registrar) : Move → Option Registrar
  | .receive request head now =>
      some { s with requests := s.requests ++ [(request, received host request head now)] }
  | .lookup i =>
      match s.requests[i]? with
      | some (request, .registered repository) =>
          match s.repositories.get? repository.id with
          | some existing => some (s.setStage i request (.returning existing))
          | none => some (s.setStage i request (.missing repository))
      | _ => none
  | .insert i =>
      match s.requests[i]? with
      | some (request, .missing repository) =>
          match addRepository repository s.repositories with
          | .error e => some (s.setStage i request (.answered (.error e)))
          | .ok t =>
              some { s.setStage i request (.returning repository) with repositories := t }
      | _ => none
  | .ensure i =>
      match s.requests[i]? with
      | some (request, .returning repository) =>
          match RepoMesh.ensure cfg repository.id.text request.autoIndex s.db with
          | .error e => some (s.setStage i request (.answered (.error (.coordination e))))
          | .ok ((), db) =>
              some { s.setStage i request (.answered (.ok repository)) with db := db }
      | _ => none

/-- Requests come to an empty table. -/
def system (cfg : Settings) (host : Host) : System Registrar Move where
  init s := s.repositories.rows = [] ∧ s.requests = []
  step s m t := s.next cfg host m = some t

/-! ## The law and its condition -/

/-- Registrations are one to one with roots. -/
structure Matched (host : Host) (s : Registrar) : Prop where
  returned : ∀ {request reply path}, (request, .answered reply) ∈ s.requests →
    host.validateRepositoryPath request.path = .ok path →
    ∃ repository, reply = .ok repository ∧ repository.root = path
  same : ∀ {request request' repository repository' path path'},
    (request, .answered (.ok repository)) ∈ s.requests →
    (request', .answered (.ok repository')) ∈ s.requests →
    host.validateRepositoryPath request.path = .ok path →
    host.validateRepositoryPath request'.path = .ok path' →
    (repository.id = repository'.id ↔ path = path')
  stored : ∀ {request reply path}, (request, .answered reply) ∈ s.requests →
    host.validateRepositoryPath request.path = .ok path →
    ∃ row ∈ s.repositories.rows, row.root = path ∧
      ∀ row' ∈ s.repositories.rows, row'.root = path → row' = row

/-- No two requested roots share an id. -/
def DistinctIds (host : Host) (s : Registrar) : Prop :=
  ∀ x ∈ s.requests, ∀ y ∈ s.requests, ∀ path path',
    host.validateRepositoryPath x.1.path = .ok path →
    host.validateRepositoryPath y.1.path = .ok path' →
    host.repositoryId path = host.repositoryId path' → path = path'

/-- The insertion finds its id unused. -/
def inTime (s : Registrar) : Move → Bool
  | .insert i =>
      match s.requests[i]? with
      | some (_, .missing repository) => (s.repositories.get? repository.id).isNone
      | _ => true
  | _ => true

/-- Every insertion of the run does. -/
def runInTime (cfg : Settings) (host : Host) : Registrar → List Move → Bool
  | _, [] => true
  | s, m :: ms =>
      s.inTime m &&
        match s.next cfg host m with
        | none => true
        | some t => runInTime cfg host t ms

/-- Every request is answered. -/
def Settled (s : Registrar) : Prop :=
  ∀ x ∈ s.requests, ∃ reply, x.2 = .answered reply

/-! ## What a run keeps -/

/-- What the stage of a request says about the table. -/
def StageOk (host : Host) (t : Table Repository.id) (x : RegisterRepositoryRequest × Stage) :
    Prop :=
  match x.2 with
  | .registered repository | .missing repository =>
      host.validateRepositoryPath x.1.path = .ok repository.root ∧
        repository.id = host.repositoryId repository.root
  | .returning repository | .answered (.ok repository) =>
      repository ∈ t.rows ∧ ∃ path, host.validateRepositoryPath x.1.path = .ok path ∧
        repository.id = host.repositoryId path
  | .answered (.error _) => True

/-- Rows have the id of their root, which somebody requested; and stages are right. -/
structure Ok (host : Host) (s : Registrar) : Prop where
  ids : ∀ row ∈ s.repositories.rows, row.id = host.repositoryId row.root
  roots : ∀ row ∈ s.repositories.rows, ∃ request ∈ s.requests.map Prod.fst,
    host.validateRepositoryPath request.path = .ok row.root
  stages : ∀ x ∈ s.requests, StageOk host s.repositories x

/-- Only requests for other paths than Git roots fail. -/
def Answers (host : Host) (s : Registrar) : Prop :=
  ∀ x ∈ s.requests, ∀ e, x.2 = .answered (.error e) →
    ∀ path, host.validateRepositoryPath x.1.path ≠ .ok path

section

variable {cfg : Settings} {host : Host} {s t : Registrar} {m : Move} {i : ℕ}
  {request : RegisterRepositoryRequest} {stage stage' : Stage}

theorem StageOk.mono {u u' : Table Repository.id} {x : RegisterRepositoryRequest × Stage}
    (h : StageOk host u x) (hrows : ∀ row ∈ u.rows, row ∈ u'.rows) : StageOk host u' x := by
  obtain ⟨request, stage⟩ := x
  cases stage with
  | registered _ => exact h
  | missing _ => exact h
  | returning _ => exact ⟨hrows _ h.1, h.2⟩
  | answered reply =>
      cases reply with
      | ok _ => exact ⟨hrows _ h.1, h.2⟩
      | error _ => trivial

/-- A request keeps its body. -/
theorem setStage_bodies (h : s.requests[i]? = some (request, stage)) (stage' : Stage) :
    (s.setStage i request stage').requests.map Prod.fst = s.requests.map Prod.fst := by
  have hbody : (s.requests.map Prod.fst)[i]? = some request := by
    rw [List.getElem?_map, h]
    rfl
  obtain ⟨hi, hget⟩ := List.getElem?_eq_some_iff.mp hbody
  show (s.requests.set i (request, stage')).map Prod.fst = _
  rw [List.map_set]
  calc (s.requests.map Prod.fst).set i request
      = (s.requests.map Prod.fst).set i (s.requests.map Prod.fst)[i] := by rw [hget]
    _ = s.requests.map Prod.fst := List.set_getElem_self hi

theorem Ok.setStage (h : s.Ok host) (hget : s.requests[i]? = some (request, stage))
    (hstage : StageOk host s.repositories (request, stage')) :
    (s.setStage i request stage').Ok host where
  ids := h.ids
  roots := by
    rw [setStage_bodies hget stage']
    exact h.roots
  stages := by
    intro x hx
    rcases List.mem_or_eq_of_mem_set hx with hold | rfl
    · exact h.stages x hold
    · exact hstage

/-- An insertion that goes through adds the repository. -/
theorem addRepository_ok {repository : Repository} {u u' : Table Repository.id}
    (h : addRepository repository u = .ok u') : u'.rows = u.rows ++ [repository] := by
  unfold addRepository at h
  split at h
  · cases h
  split at h
  · cases h
  rename_i hid
  obtain rfl := Except.ok.inj h
  exact Table.insertNew_rows (by simpa using hid)

/-- An insertion that finds its id used fails. -/
theorem addRepository_used {repository : Repository} {u : Table Repository.id}
    (h : (u.get? repository.id).isSome = true) : ∃ e, addRepository repository u = .error e := by
  unfold addRepository
  split
  · exact ⟨_, rfl⟩
  · exact ⟨_, rfl⟩

theorem Ok.next (h : s.Ok host) (hnext : s.next cfg host m = some t) : t.Ok host := by
  cases m with
  | receive request head now =>
      obtain rfl := Option.some.inj hnext
      refine ⟨h.ids, fun row hrow => ?_, fun x hx => ?_⟩
      · obtain ⟨q, hq, hvalid⟩ := h.roots row hrow
        refine ⟨q, ?_, hvalid⟩
        rw [List.map_append]
        exact List.mem_append_left _ hq
      · rcases List.mem_append.mp hx with hold | hnew
        · exact h.stages x hold
        · obtain rfl := List.mem_singleton.mp hnew
          unfold received
          cases hvalid : host.validateRepositoryPath request.path with
          | error e => trivial
          | ok path => exact ⟨hvalid, rfl⟩
  | lookup i =>
      simp only [Registrar.next] at hnext
      split at hnext
      · rename_i request repository hget
        obtain ⟨hvalid, hid⟩ := h.stages _ (List.mem_of_getElem? hget)
        split at hnext
        · rename_i existing hfound
          obtain rfl := Option.some.inj hnext
          have hkey : existing.id = repository.id := Table.key_of_get? hfound
          exact h.setStage hget ⟨Table.mem_of_get? hfound, _, hvalid, hkey.trans hid⟩
        · obtain rfl := Option.some.inj hnext
          exact h.setStage hget ⟨hvalid, hid⟩
      · cases hnext
  | insert i =>
      simp only [Registrar.next] at hnext
      split at hnext
      · rename_i request repository hget
        obtain ⟨hvalid, hid⟩ := h.stages _ (List.mem_of_getElem? hget)
        split at hnext
        · obtain rfl := Option.some.inj hnext
          exact h.setStage hget trivial
        · rename_i u hadd
          obtain rfl := Option.some.inj hnext
          have hrows := addRepository_ok hadd
          have hbodies := setStage_bodies hget (.returning repository)
          refine ⟨fun row hrow => ?_, fun row hrow => ?_, fun x hx => ?_⟩
          · rw [hrows] at hrow
            rcases List.mem_append.mp hrow with hold | hnew
            · exact h.ids row hold
            · obtain rfl := List.mem_singleton.mp hnew
              exact hid
          · show ∃ q ∈ (s.setStage i request (.returning repository)).requests.map Prod.fst, _
            rw [hbodies]
            rw [hrows] at hrow
            rcases List.mem_append.mp hrow with hold | hnew
            · exact h.roots row hold
            · obtain rfl := List.mem_singleton.mp hnew
              exact ⟨request, List.mem_map.mpr ⟨_, List.mem_of_getElem? hget, rfl⟩, hvalid⟩
          · rcases List.mem_or_eq_of_mem_set hx with hold | rfl
            · refine (h.stages x hold).mono fun row hrow => ?_
              rw [hrows]
              exact List.mem_append_left _ hrow
            · refine ⟨?_, _, hvalid, hid⟩
              rw [hrows]
              exact List.mem_append_right _ List.mem_cons_self
      · cases hnext
  | ensure i =>
      simp only [Registrar.next] at hnext
      split at hnext
      · rename_i request repository hget
        have hstage := h.stages _ (List.mem_of_getElem? hget)
        split at hnext
        · obtain rfl := Option.some.inj hnext
          exact h.setStage hget trivial
        · obtain rfl := Option.some.inj hnext
          have hok : (s.setStage i request (.answered (.ok repository))).Ok host :=
            h.setStage hget hstage
          exact ⟨hok.ids, hok.roots, hok.stages⟩
      · cases hnext

theorem Answers.setStage (h : s.Answers host) {stage' : Stage}
    (hstage : ∀ e, stage' = .answered (.error e) →
      ∀ path, host.validateRepositoryPath request.path ≠ .ok path) :
    (s.setStage i request stage').Answers host := by
  intro x hx e he
  rcases List.mem_or_eq_of_mem_set hx with hold | rfl
  · exact h x hold e he
  · exact hstage e he

/-- An insertion in time goes through. -/
theorem addRepository_inTime (hok : s.Ok host) {repository : Repository}
    (hid : repository.id = host.repositoryId repository.root)
    (hfree : s.repositories.get? repository.id = none) :
    addRepository repository s.repositories = .ok (s.repositories.insertNew repository) := by
  have hroot : ¬ s.repositories.rows.any (·.root = repository.root) = true := by
    intro hany
    obtain ⟨row, hrow, hsame⟩ := List.any_eq_true.mp hany
    have hrowid : row.id = repository.id := by
      rw [hok.ids row hrow, of_decide_eq_true hsame, hid]
    have hfound : s.repositories.get? row.id = some row := Table.get?_of_mem hrow
    rw [hrowid, hfree] at hfound
    cases hfound
  rw [addRepository, if_neg hroot, hfree, if_neg (by simp)]

theorem Answers.next (h : s.Answers host) (hok : s.Ok host) (htime : s.inTime m = true)
    (hnext : s.next cfg host m = some t) : t.Answers host := by
  cases m with
  | receive request head now =>
      obtain rfl := Option.some.inj hnext
      intro x hx e he path
      rcases List.mem_append.mp hx with hold | hnew
      · exact h x hold e he path
      · obtain rfl := List.mem_singleton.mp hnew
        intro hvalid
        rw [received, hvalid] at he
        cases he
  | lookup i =>
      simp only [Registrar.next] at hnext
      split at hnext
      · split at hnext <;> obtain rfl := Option.some.inj hnext <;>
          exact h.setStage fun e he => by cases he
      · cases hnext
  | insert i =>
      simp only [Registrar.next] at hnext
      split at hnext
      · rename_i request repository hget
        obtain ⟨-, hid⟩ := hok.stages _ (List.mem_of_getElem? hget)
        simp only [inTime, hget] at htime
        have hadd := addRepository_inTime hok hid (Option.isNone_iff_eq_none.mp htime)
        rw [hadd] at hnext
        obtain rfl := Option.some.inj hnext
        have hset : (s.setStage i request (.returning repository)).Answers host :=
          h.setStage fun e he => by cases he
        exact hset
      · cases hnext
  | ensure i =>
      simp only [Registrar.next] at hnext
      split at hnext
      · rename_i request repository hget
        split at hnext
        · rename_i herr
          cases herr
        · obtain rfl := Option.some.inj hnext
          have hset : (s.setStage i request (.answered (.ok repository))).Answers host :=
            h.setStage fun e he => by cases he
          exact hset
      · cases hnext

/-- Where the ids of the requested roots are distinct and no valid request failed,
registrations are one to one with roots. -/
theorem matched_of_distinct (hok : s.Ok host) (hans : s.Answers host) (hids : s.DistinctIds host) :
    s.Matched host := by
  have hanswer : ∀ {request repository path}, (request, .answered (.ok repository)) ∈ s.requests →
      host.validateRepositoryPath request.path = .ok path →
      repository ∈ s.repositories.rows ∧ repository.root = path ∧
        repository.id = host.repositoryId path := by
    intro request repository path hmem hvalid
    obtain ⟨hrow, path', hvalid', hid⟩ := hok.stages _ hmem
    obtain rfl : path' = path := Except.ok.inj (hvalid'.symm.trans hvalid)
    obtain ⟨q, hq, hroot⟩ := hok.roots repository hrow
    obtain ⟨y, hy, rfl⟩ := List.mem_map.mp hq
    have hsame : host.repositoryId repository.root = host.repositoryId path' :=
      (hok.ids repository hrow).symm.trans hid
    exact ⟨hrow, hids y hy _ hmem _ _ hroot hvalid hsame, hid⟩
  have hreturned : ∀ {request reply path}, (request, .answered reply) ∈ s.requests →
      host.validateRepositoryPath request.path = .ok path →
      ∃ repository, reply = .ok repository := by
    intro request reply path hmem hvalid
    cases reply with
    | ok repository => exact ⟨repository, rfl⟩
    | error e => exact absurd hvalid (hans _ hmem e rfl path)
  refine ⟨fun hmem hvalid => ?_, fun {request request' repository repository' path path'} hmem hmem'
    hvalid hvalid' => ?_, fun {request reply path} hmem hvalid => ?_⟩
  · obtain ⟨repository, rfl⟩ := hreturned hmem hvalid
    exact ⟨repository, rfl, (hanswer hmem hvalid).2.1⟩
  · obtain ⟨-, -, hid⟩ := hanswer hmem hvalid
    obtain ⟨-, -, hid'⟩ := hanswer hmem' hvalid'
    rw [hid, hid']
    constructor
    · exact hids _ hmem _ hmem' path path' hvalid hvalid'
    · intro heq
      rw [heq]
  · obtain ⟨repository, rfl⟩ := hreturned hmem hvalid
    obtain ⟨hrow, hroot, hid⟩ := hanswer hmem hvalid
    refine ⟨repository, hrow, hroot, fun row' hrow' hroot' => ?_⟩
    refine Table.eq_of_key hrow' hrow ?_
    rw [hok.ids row' hrow', hroot', hid]

/-- An answer is final. -/
theorem answered_next {reply : Except RegistrationError Repository}
    (h : s.requests[i]? = some (request, .answered reply)) (hnext : s.next cfg host m = some t) :
    t.requests[i]? = some (request, .answered reply) := by
  have hother : ∀ {j : ℕ} {q : RegisterRepositoryRequest} {stage stage' : Stage},
      s.requests[j]? = some (q, stage) → (∀ r, stage ≠ .answered r) →
      (s.requests.set j (q, stage'))[i]? = some (request, .answered reply) := by
    intro j q stage stage' hj hopen
    have hne : j ≠ i := by
      rintro rfl
      rw [h] at hj
      exact hopen reply (congrArg Prod.snd (Option.some.inj hj)).symm
    rw [List.getElem?_set_ne hne, h]
  cases m with
  | receive q head now =>
      obtain rfl := Option.some.inj hnext
      obtain ⟨hi, -⟩ := List.getElem?_eq_some_iff.mp h
      show (s.requests ++ _)[i]? = _
      rw [List.getElem?_append_left hi, h]
  | lookup j =>
      simp only [Registrar.next] at hnext
      split at hnext
      · rename_i hget
        split at hnext <;> obtain rfl := Option.some.inj hnext <;>
          exact hother hget fun r hr => by cases hr
      · cases hnext
  | insert j =>
      simp only [Registrar.next] at hnext
      split at hnext
      · rename_i hget
        split at hnext <;> obtain rfl := Option.some.inj hnext <;>
          exact hother hget fun r hr => by cases hr
      · cases hnext
  | ensure j =>
      simp only [Registrar.next] at hnext
      split at hnext
      · rename_i hget
        split at hnext <;> obtain rfl := Option.some.inj hnext <;>
          exact hother hget fun r hr => by cases hr
      · cases hnext

theorem answered_run {reply : Except RegistrationError Repository} {ms : List Move}
    (h : s.requests[i]? = some (request, .answered reply))
    (hrun : (system cfg host).Run s ms t) :
    t.requests[i]? = some (request, .answered reply) := by
  induction hrun with
  | nil s => exact h
  | cons hstep _ ih => exact ih (answered_next h hstep)

theorem run_ok {ms : List Move} (h : s.Ok host) (hrun : (system cfg host).Run s ms t) :
    t.Ok host := by
  induction hrun with
  | nil s => exact h
  | cons hstep _ ih => exact ih (h.next hstep)

theorem run_answers {ms : List Move} (h : s.Answers host) (hok : s.Ok host)
    (htime : runInTime cfg host s ms = true) (hrun : (system cfg host).Run s ms t) :
    t.Answers host := by
  induction hrun with
  | nil s => exact h
  | @cons s u t m ms hstep _ ih =>
      have hnext : s.next cfg host m = some u := hstep
      simp only [runInTime, hnext, Bool.and_eq_true] at htime
      exact ih (h.next hok htime.1 hnext) (hok.next hnext) htime.2

/-- A late insertion fails a valid request for good. -/
theorem inTime_of_matched {ms : List Move} (hok : s.Ok host)
    (hrun : (system cfg host).Run s ms t) (hmatch : t.Matched host) :
    runInTime cfg host s ms = true := by
  induction hrun with
  | nil s => rfl
  | @cons s u t m ms hstep hrest ih =>
      have hnext : s.next cfg host m = some u := hstep
      simp only [runInTime, hnext, Bool.and_eq_true]
      refine ⟨?_, ih (hok.next hnext) hmatch⟩
      cases m with
      | insert i =>
          rw [inTime]
          split
          · rename_i request repository hget
            by_contra hfound
            have hsome : (s.repositories.get? repository.id).isSome = true := by
              simpa [Option.isSome_iff_ne_none] using hfound
            obtain ⟨e, he⟩ := addRepository_used hsome
            simp only [Registrar.next, hget, he] at hnext
            obtain rfl := Option.some.inj hnext
            obtain ⟨hi, -⟩ := List.getElem?_eq_some_iff.mp hget
            have hnow := List.getElem?_set_self hi (a := (request, Stage.answered (.error e)))
            have hlast := answered_run hnow hrest
            obtain ⟨hvalid, -⟩ := hok.stages _ (List.mem_of_getElem? hget)
            obtain ⟨r, hr, -⟩ := hmatch.returned (List.mem_of_getElem? hlast) hvalid
            cases hr
          · rfl
      | receive _ _ _ | lookup _ | ensure _ => rfl

/-- In a run whose requested roots have distinct ids and whose insertions all find their id
unused, registrations are one to one with roots; and in no other run that answers all its
requests. -/
theorem registrations_match_iff {s₀ : Registrar} (h₀ : (system cfg host).init s₀)
    {ms : List Move} (hrun : (system cfg host).Run s₀ ms t) :
    (t.DistinctIds host ∧ runInTime cfg host s₀ ms = true → t.Matched host) ∧
      (t.Settled → t.Matched host → t.DistinctIds host ∧ runInTime cfg host s₀ ms = true) := by
  have hok₀ : s₀.Ok host := by
    constructor
    · rw [h₀.1]
      simp
    · rw [h₀.1]
      simp
    · rw [h₀.2]
      simp
  have hans₀ : s₀.Answers host := by
    intro x hx
    rw [h₀.2] at hx
    cases hx
  have hok := run_ok hok₀ hrun
  refine ⟨fun ⟨hids, htime⟩ => ?_, fun hsettled hmatch => ⟨?_, inTime_of_matched hok₀ hrun hmatch⟩⟩
  · exact matched_of_distinct hok (run_answers hans₀ hok₀ htime hrun) hids
  · rintro ⟨q, stage⟩ hx ⟨q', stage'⟩ hy path path' hvalid hvalid' hsame
    obtain ⟨reply, rfl⟩ : ∃ reply, stage = .answered reply := hsettled _ hx
    obtain ⟨reply', rfl⟩ : ∃ reply', stage' = .answered reply' := hsettled _ hy
    obtain ⟨r, rfl, -⟩ := hmatch.returned hx hvalid
    obtain ⟨r', rfl, -⟩ := hmatch.returned hy hvalid'
    refine (hmatch.same hx hy hvalid hvalid').mp ?_
    obtain ⟨-, p, hp, hid⟩ := hok.stages _ hx
    obtain ⟨-, p', hp', hid'⟩ := hok.stages _ hy
    obtain rfl : p = path := Except.ok.inj (hp.symm.trans hvalid)
    obtain rfl : p' = path' := Except.ok.inj (hp'.symm.trans hvalid')
    rw [hid, hid', hsame]

end

/-- The registrar after a list of moves, if each of them is possible. -/
def exec (cfg : Settings) (host : Host) : Registrar → List Move → Option Registrar :=
  System.exec (next cfg host)

theorem run_exec {cfg : Settings} {host : Host} {s t : Registrar} {ms : List Move}
    (h : s.exec cfg host ms = some t) : (system cfg host).Run s ms t :=
  System.run_exec (fun hnext => hnext) h

/-- No repository and no request. -/
def empty : Registrar := ⟨.empty _, .empty, []⟩

/-- A machine with two Git roots whose paths differ in case only. -/
def sampleHost : Host where
  resolve := id
  isDir path := path = "/srv/Repo" || path = "/srv/repo"
  allowed path := path = "/srv/Repo" || path = "/srv/repo"
  toplevel := some
  lower := lower
  uuid5 name :=
    if name = "/srv/repo" then ⟨"f1b20c33-cecf-5568-b4d0-1140d9feb53b", by decide⟩
    else ⟨"1b4db7eb-4057-5ddf-91e0-36dec72071f5", by decide⟩

def requestFor (path : String) : RegisterRepositoryRequest := ⟨path, none, none⟩

/-- The moves of request `i` when nobody interferes. -/
def undisturbed (i : ℕ) (path : String) : List Move :=
  [.receive (requestFor path) none 0, .lookup i, .insert i, .ensure i]

/-- One root is registered. -/
theorem registrations_match_iff_undisturbed :
    ∃ t, (system .default sampleHost).Run empty (undisturbed 0 "/srv/repo") t ∧
      t.Matched sampleHost := by
  have hpaths : (empty.exec .default sampleHost (undisturbed 0 "/srv/repo")).map
      (fun t => t.requests.map (·.1.path)) = some ["/srv/repo"] := by decide +kernel
  obtain ⟨t, ht, hpath⟩ := Option.map_eq_some_iff.mp hpaths
  have hinit : (system .default sampleHost).init empty := ⟨rfl, rfl⟩
  refine ⟨t, run_exec ht, (registrations_match_iff hinit (run_exec ht)).1 ⟨?_, by decide +kernel⟩⟩
  intro x hx y hy path path' hvalid hvalid' _
  have hone : ∀ z ∈ t.requests, z.1.path = "/srv/repo" := by
    intro z hz
    have hmem : z.1.path ∈ t.requests.map (·.1.path) := List.mem_map.mpr ⟨z, hz, rfl⟩
    rw [hpath] at hmem
    exact List.mem_singleton.mp hmem
  rw [hone x hx] at hvalid
  rw [hone y hy] at hvalid'
  exact Except.ok.inj (hvalid.symm.trans hvalid')

/-- What a stage shows: the root of the repository answered, or the constraint that failed. -/
def shown : Stage → Option (Except String String)
  | .answered (.ok repository) => some (.ok repository.root)
  | .answered (.error (.sqliteIntegrityError message)) => some (.error message)
  | _ => none

/-- Two roots differ in case, and the second is answered with the repository of the first. -/
def otherCase : List Move :=
  undisturbed 0 "/srv/Repo" ++ [.receive (requestFor "/srv/repo") none 0, .lookup 1, .ensure 1]

/-- Two requests for one root look it up before either inserts. -/
def bothLook : List Move :=
  [.receive (requestFor "/srv/repo") none 0, .receive (requestFor "/srv/repo") none 0,
    .lookup 0, .lookup 1, .insert 0, .insert 1, .ensure 0]

/-- A root is answered with another root, and a repeated registration fails. -/
theorem registrations_mismatch :
    (empty.exec .default sampleHost otherCase).map
        (fun t => t.requests.map fun x => (x.1.path, shown x.2)) =
      some [("/srv/Repo", some (.ok "/srv/Repo")), ("/srv/repo", some (.ok "/srv/Repo"))] ∧
    (empty.exec .default sampleHost bothLook).map
        (fun t => t.requests.map fun x => (x.1.path, shown x.2)) =
      some [("/srv/repo", some (.ok "/srv/repo")),
        ("/srv/repo", some (.error "UNIQUE constraint failed: repositories.root"))] ∧
    ¬ ∀ t, (system .default sampleHost).Reachable t → t.Matched sampleHost := by
  have hcase : (empty.exec .default sampleHost otherCase).map
      (fun t => t.requests.map fun x => (x.1.path, shown x.2)) =
    some [("/srv/Repo", some (.ok "/srv/Repo")), ("/srv/repo", some (.ok "/srv/Repo"))] := by
    decide +kernel
  refine ⟨hcase, by decide +kernel, fun hmatch => ?_⟩
  obtain ⟨t, ht, hshown⟩ := Option.map_eq_some_iff.mp hcase
  have hmem : ("/srv/repo", some (Except.ok "/srv/Repo")) ∈
      t.requests.map fun x => (x.1.path, shown x.2) := by
    rw [hshown]
    simp
  obtain ⟨⟨request, stage⟩, hx, heq⟩ := List.mem_map.mp hmem
  obtain ⟨hpath, hroot⟩ := Prod.mk.inj heq
  have hvalid : sampleHost.validateRepositoryPath request.path = .ok "/srv/repo" := by
    rw [hpath]
    rfl
  have hreach : (system .default sampleHost).Reachable t :=
    ⟨empty, otherCase, ⟨rfl, rfl⟩, run_exec ht⟩
  cases stage with
  | answered reply =>
      obtain ⟨repository, rfl, hreturned⟩ := (hmatch t hreach).returned hx hvalid
      have hother : repository.root = "/srv/Repo" := Except.ok.inj (Option.some.inj hroot)
      rw [hother] at hreturned
      simp at hreturned
  | _ => cases hroot

end Registrar

end RepoMesh
