import Mathlib.Data.Set.Basic
import Mathlib.Logic.Relation
import RepoMesh.Indexer

/-!
# One file in two stores

What the index and the vector store hold about one file is an `Entry`. The moves on
an entry are the storage steps that a pass may take on a file, each with what has to
be so before it: points are touched only while no row claims they are in step with
the chunks (`Entry.Unsynced`), a row claims it only when they are, and a tombstone
goes only when nothing or everything is left to point at.

An entry that is reached by moves from the absent one keeps that promise
(`Entry.Ok`): a synced row without a tombstone has exactly the points of its chunks.
-/

namespace RepoMesh

/-! ## Versions -/

/-- What a pass stores for a file: the hash, the commit, the rows and the points. -/
@[ext] structure Version (key : FileKey) where
  sha256 : HexDigest
  commitSha : String
  chunks : List CodeChunk
  points : List Point
  chunks_key : ∀ c ∈ chunks, c.key = key
  points_key : ∀ p ∈ points, p.key = key
  ids : points.map (·.id) = chunks.map (·.id)

namespace Version

variable {key : FileKey}

/-- The row of `files` for a version. -/
def row (v : Version key) (vectorSynced : Bool) : FileRow where
  repositoryId := key.repositoryId
  path := key.path
  sha256 := v.sha256
  commitSha := v.commitSha
  chunkCount := v.chunks.length
  vectorSynced := vectorSynced

/-- The same version under another commit. -/
def atCommit (commitSha : String) (v : Version key) : Version key where
  sha256 := v.sha256
  commitSha := commitSha
  chunks := v.chunks.map (·.atCommit commitSha)
  points := v.points
  chunks_key := by
    intro c hc
    obtain ⟨c', hc', rfl⟩ := List.mem_map.mp hc
    exact v.chunks_key c' hc'
  points_key := v.points_key
  ids := by
    rw [v.ids, List.map_map]
    rfl

end Version

/-- A point replaces the one with its id. -/
def upsertOne (points : Set Point) (p : Point) : Set Point :=
  {x | x = p ∨ (x ∈ points ∧ x.id ≠ p.id)}

def upsertAll (points : Set Point) (items : List Point) : Set Point :=
  items.foldl upsertOne points

def Version.pointSet {key : FileKey} (v : Version key) : Set Point := upsertAll ∅ v.points

theorem mem_of_mem_upsertAll {points : Set Point} {items : List Point} {x : Point}
    (h : x ∈ upsertAll points items) : x ∈ items ∨ x ∈ points := by
  induction items generalizing points with
  | nil => exact Or.inr h
  | cons p items ih =>
      rcases ih h with hx | rfl | ⟨hx, -⟩
      · exact Or.inl (List.mem_cons_of_mem _ hx)
      · exact Or.inl List.mem_cons_self
      · exact Or.inr hx

theorem exists_mem_upsertAll {points : Set Point} {items : List Point} {id : Uuid}
    (h : id ∈ items.map (·.id) ∨ ∃ x ∈ points, x.id = id) :
    ∃ x ∈ upsertAll points items, x.id = id := by
  induction items generalizing points with
  | nil => simpa [upsertAll] using h
  | cons p items ih =>
      refine ih ?_
      by_cases hp : p.id = id
      · exact Or.inr ⟨p, Or.inl rfl, hp⟩
      · rcases h with h | ⟨x, hx, rfl⟩
        · refine Or.inl ?_
          rw [List.map_cons, List.mem_cons] at h
          exact h.resolve_left (Ne.symm hp)
        · exact Or.inr ⟨x, Or.inr ⟨hx, Ne.symm hp⟩, rfl⟩

/-! ## Entries -/

structure Entry where
  row : Option FileRow
  pending : Bool
  chunks : List CodeChunk
  points : Set Point
  /-- an upsert was not followed by its rows or by a complete vector deletion -/
  windowOpen : Bool

namespace Entry

def absent : Entry := ⟨none, false, [], ∅, false⟩

def deleteFile (e : Entry) : Entry := { e with row := none, pending := true, chunks := [] }

def markDirty (e : Entry) : Entry := { e with row := e.row.map FileRow.dirty }

def finish (e : Entry) : Entry := { e with pending := false }

def updateCommit (commitSha : String) (e : Entry) : Entry :=
  { e with
    row := e.row.map (FileRow.atCommit commitSha)
    chunks := e.chunks.map (CodeChunk.atCommit commitSha) }

/-- A vector deletion; `done` as for `reached`. -/
def unpoint (done : Option (List Uuid)) (e : Entry) : Entry :=
  { e with
    points := {p ∈ e.points | reached done p.id = false}
    windowOpen := if done.isNone then false else e.windowOpen }

def upsert (done : Option (List Uuid)) (items : List Point) (e : Entry) : Entry :=
  { e with
    points := upsertAll e.points (items.filter fun p => reached done p.id)
    windowOpen := true }

def replace {key : FileKey} (v : Version key) (vectorSynced : Bool) (e : Entry) : Entry :=
  { e with
    row := some (v.row vectorSynced)
    chunks := v.chunks
    windowOpen := false }

def chunkIds (e : Entry) : Set Uuid := {id | ∃ c ∈ e.chunks, c.id = id}

def pointIds (e : Entry) : Set Uuid := {id | ∃ p ∈ e.points, p.id = id}

@[simp] theorem mem_chunkIds {e : Entry} {id : Uuid} :
    id ∈ e.chunkIds ↔ ∃ c ∈ e.chunks, c.id = id := Iff.rfl

@[simp] theorem mem_pointIds {e : Entry} {id : Uuid} :
    id ∈ e.pointIds ↔ ∃ p ∈ e.points, p.id = id := Iff.rfl

/-- No row claims that the points are in step. -/
def Unsynced (e : Entry) : Prop := ∀ r, e.row = some r → r.vectorSynced = false

/-- A row that may be skipped: synced and without a tombstone. -/
def Synced (e : Entry) : Prop := (∃ r, e.row = some r ∧ r.vectorSynced = true) ∧ e.pending = false

/-- Neither a row nor a tombstone tells of the file. -/
def Unrecorded (e : Entry) : Prop := e.row = none ∧ e.pending = false

end Entry

/-! ## Moves -/

/-- The storage steps on a file, for the versions `W` that passes may store. -/
inductive FileMove (key : FileKey) (W : Version key → Prop) : Entry → Entry → Prop where
  | delete (e : Entry) : FileMove key W e e.deleteFile
  | dirty (e : Entry) : FileMove key W e e.markDirty
  | unpoint (e : Entry) (done : Option (List Uuid)) (h : e.Unsynced) :
      FileMove key W e (e.unpoint done)
  | upsert (e : Entry) (v : Version key) (done : Option (List Uuid)) (h : e.Unsynced)
      (hv : W v) : FileMove key W e (e.upsert done v.points)
  | replace (e : Entry) (v : Version key) (vectorSynced : Bool) (hv : W v)
      (h : vectorSynced = true → e.points = v.pointSet) :
      FileMove key W e (e.replace v vectorSynced)
  | finishDelete (e : Entry) (hrow : e.row = none) (hpoints : e.points = ∅) :
      FileMove key W e e.finish
  | finishReplace (e : Entry) (v : Version key) (hv : W v) (hrow : e.row = some (v.row true))
      (hchunks : e.chunks = v.chunks) (hpoints : e.points = v.pointSet) :
      FileMove key W e e.finish
  | commit (e : Entry) (commitSha : String) : FileMove key W e (e.updateCommit commitSha)

/-- Any number of moves. -/
abbrev FileMoves (key : FileKey) (W : Version key → Prop) : Entry → Entry → Prop :=
  Relation.ReflTransGen (FileMove key W)

/-- Versions that may be stored: their points have ids that belong to the file, and
the commit is not tied to the content. -/
structure Storable {key : FileKey} (own : Set Uuid) (W : Version key → Prop) : Prop where
  own : ∀ v, W v → ∀ p ∈ v.points, p.id ∈ own
  atCommit : ∀ v c, W v → W (v.atCommit c)

/-- What holds of every entry that moves lead to. -/
structure Entry.Ok {key : FileKey} (own : Set Uuid) (W : Version key → Prop) (e : Entry) :
    Prop where
  /-- the points have ids of the file -/
  points_own : ∀ p ∈ e.points, p.id ∈ own
  /-- the row and the chunks are those of one version, and so are the points if the
  row may be skipped -/
  row_version : ∀ r, e.row = some r → ∃ v, W v ∧ r = v.row r.vectorSynced ∧
    e.chunks = v.chunks ∧ (e.Synced → e.points = v.pointSet)
  /-- without a row there are no chunks -/
  chunks_row : e.row = none → e.chunks = []
  /-- points of an unrecorded file were left in an open window -/
  window : e.Unrecorded → e.points.Nonempty → e.windowOpen = true

namespace Entry.Ok

variable {key : FileKey} {own : Set Uuid} {W : Version key → Prop} {e e' : Entry}

theorem absent : Entry.absent.Ok own W where
  points_own := fun _ hp => absurd hp (Set.notMem_empty _)
  row_version := fun _ hr => absurd hr (by simp [Entry.absent])
  chunks_row := fun _ => rfl
  window := fun _ hp => absurd hp Set.not_nonempty_empty

theorem deleteFile (h : e.Ok own W) : e.deleteFile.Ok own W where
  points_own := h.points_own
  row_version := fun _ hr => absurd hr (by simp [Entry.deleteFile])
  chunks_row := fun _ => rfl
  window := fun hun => absurd hun.2 (by simp [Entry.deleteFile])

theorem markDirty (h : e.Ok own W) : e.markDirty.Ok own W where
  points_own := h.points_own
  row_version := by
    intro r hr
    obtain ⟨r', hr', rfl⟩ := Option.map_eq_some_iff.mp hr
    obtain ⟨v, hv, hrow, hchunks, -⟩ := h.row_version r' hr'
    refine ⟨v, hv, ?_, hchunks, ?_⟩
    · rw [hrow]
      rfl
    · rintro ⟨⟨r, hr, hsync⟩, -⟩
      obtain ⟨r', -, rfl⟩ := Option.map_eq_some_iff.mp hr
      exact absurd hsync (by simp [FileRow.dirty])
  chunks_row := fun hr => h.chunks_row (Option.map_eq_none_iff.mp hr)
  window := fun hun => h.window ⟨Option.map_eq_none_iff.mp hun.1, hun.2⟩

/-- Entries without a synced row may change their points. -/
theorem of_unsynced (h : e.Ok own W) (hun : e.Unsynced) (hrow : e'.row = e.row)
    (hpending : e'.pending = e.pending) (hchunks : e'.chunks = e.chunks)
    (hown : ∀ p ∈ e'.points, p.id ∈ own)
    (hwindow : e.Unrecorded → e'.points.Nonempty → e'.windowOpen = true) : e'.Ok own W where
  points_own := hown
  row_version := by
    intro r hr
    rw [hrow] at hr
    obtain ⟨v, hv, hver, hch, -⟩ := h.row_version r hr
    refine ⟨v, hv, hver, hchunks.trans hch, ?_⟩
    rintro ⟨⟨r, hr, hsync⟩, -⟩
    rw [hrow] at hr
    exact absurd hsync (by simp [hun r hr])
  chunks_row := fun hr => hchunks.trans (h.chunks_row (hrow ▸ hr))
  window := fun hunrec => hwindow ⟨hrow ▸ hunrec.1, hpending ▸ hunrec.2⟩

theorem unpoint (h : e.Ok own W) (hun : e.Unsynced) (done : Option (List Uuid)) :
    (e.unpoint done).Ok own W := by
  refine h.of_unsynced hun rfl rfl rfl (fun p hp => h.points_own p hp.1) ?_
  rintro hunrec ⟨p, hp, hnot⟩
  cases done with
  | none => exact absurd hnot (by simp [reached])
  | some ids => exact h.window hunrec ⟨p, hp⟩

theorem upsert (hW : Storable own W) (h : e.Ok own W) (hun : e.Unsynced) {v : Version key}
    (hv : W v) (done : Option (List Uuid)) : (e.upsert done v.points).Ok own W := by
  refine h.of_unsynced hun rfl rfl rfl (fun p hp => ?_) fun _ _ => rfl
  rcases mem_of_mem_upsertAll hp with hp | hp
  · exact hW.own v hv p (List.mem_of_mem_filter hp)
  · exact h.points_own p hp

theorem replace (h : e.Ok own W) {v : Version key} (hv : W v) {vectorSynced : Bool}
    (hpoints : vectorSynced = true → e.points = v.pointSet) :
    (e.replace v vectorSynced).Ok own W where
  points_own := h.points_own
  row_version := by
    intro r hr
    obtain rfl := Option.some.inj hr
    refine ⟨v, hv, rfl, rfl, ?_⟩
    rintro ⟨⟨r, hr, hsync⟩, -⟩
    obtain rfl := Option.some.inj hr
    exact hpoints hsync
  chunks_row := fun hr => absurd hr (by simp [Entry.replace])
  window := fun hun => absurd hun.1 (by simp [Entry.replace])

theorem finishDelete (h : e.Ok own W) (hrow : e.row = none) (hpoints : e.points = ∅) :
    e.finish.Ok own W where
  points_own := h.points_own
  row_version := fun _ hr => absurd hr (by simp [Entry.finish, hrow])
  chunks_row := h.chunks_row
  window := fun _ hp => absurd hp (by simp [Entry.finish, hpoints])

theorem finishReplace (h : e.Ok own W) {v : Version key} (hv : W v)
    (hrow : e.row = some (v.row true)) (hchunks : e.chunks = v.chunks)
    (hpoints : e.points = v.pointSet) : e.finish.Ok own W where
  points_own := h.points_own
  row_version := by
    intro r hr
    obtain rfl := Option.some.inj (hrow.symm.trans hr)
    exact ⟨v, hv, rfl, hchunks, fun _ => hpoints⟩
  chunks_row := h.chunks_row
  window := fun hun => absurd (hrow.symm.trans hun.1) (by simp)

theorem updateCommit (hW : Storable own W) (h : e.Ok own W) (commitSha : String) :
    (e.updateCommit commitSha).Ok own W where
  points_own := h.points_own
  row_version := by
    intro r hr
    obtain ⟨r', hr', rfl⟩ := Option.map_eq_some_iff.mp hr
    obtain ⟨v, hv, hrow, hchunks, hpoints⟩ := h.row_version r' hr'
    refine ⟨v.atCommit commitSha, hW.atCommit v commitSha hv, ?_, ?_, ?_⟩
    · rw [hrow]
      simp [Version.row, Version.atCommit, FileRow.atCommit]
    · rw [Entry.updateCommit, hchunks]
      rfl
    · rintro ⟨⟨r, hr, hsync⟩, hpending⟩
      obtain ⟨r'', hr'', rfl⟩ := Option.map_eq_some_iff.mp hr
      exact hpoints ⟨⟨r'', hr'', hsync⟩, hpending⟩
  chunks_row := by
    intro hr
    rw [Entry.updateCommit, h.chunks_row (Option.map_eq_none_iff.mp hr), List.map_nil]
  window := fun hun => h.window ⟨Option.map_eq_none_iff.mp hun.1, hun.2⟩

/-- The step lemma. -/
theorem move (hW : Storable own W) (h : e.Ok own W) (hmove : FileMove key W e e') :
    e'.Ok own W := by
  cases hmove with
  | delete => exact h.deleteFile
  | dirty => exact h.markDirty
  | unpoint done hun => exact h.unpoint hun done
  | upsert v done hun hv => exact h.upsert hW hun hv done
  | replace v vectorSynced hv hpoints => exact h.replace hv hpoints
  | finishDelete hrow hpoints => exact h.finishDelete hrow hpoints
  | finishReplace v hv hrow hchunks hpoints => exact h.finishReplace hv hrow hchunks hpoints
  | commit commitSha => exact h.updateCommit hW commitSha

/-- The run lemma. -/
theorem moves (hW : Storable own W) (h : e.Ok own W) (hmoves : FileMoves key W e e') :
    e'.Ok own W := by
  induction hmoves with
  | refl => exact h
  | tail _ hmove ih => exact ih.move hW hmove

theorem pointIds_pointSet (v : Version key) :
    {id | ∃ p ∈ v.pointSet, p.id = id} = {id | ∃ c ∈ v.chunks, c.id = id} := by
  ext id
  have hids : id ∈ v.points.map (·.id) ↔ id ∈ v.chunks.map (·.id) := by rw [v.ids]
  constructor
  · rintro ⟨p, hp, rfl⟩
    have hmem := (mem_of_mem_upsertAll hp).resolve_right (Set.notMem_empty p)
    exact List.mem_map.mp (hids.mp (List.mem_map_of_mem hmem))
  · intro hc
    exact exists_mem_upsertAll (Or.inl (hids.mpr (List.mem_map.mpr hc)))

/-- The chunks have ids of the file. -/
theorem chunks_own (hW : Storable own W) (h : e.Ok own W) {c : CodeChunk} (hc : c ∈ e.chunks) :
    c.id ∈ own := by
  cases hrow : e.row with
  | none => exact absurd hc (by simp [h.chunks_row hrow])
  | some r =>
      obtain ⟨v, hv, -, hchunks, -⟩ := h.row_version r hrow
      rw [hchunks] at hc
      have hid : c.id ∈ v.points.map (·.id) := v.ids ▸ List.mem_map_of_mem hc
      obtain ⟨p, hp, hid⟩ := List.mem_map.mp hid
      exact hid ▸ hW.own v hv p hp

/-- A file that may be skipped has exactly the points of its chunks. -/
theorem matched (h : e.Ok own W) (hsync : e.Synced) : e.pointIds = e.chunkIds := by
  obtain ⟨⟨r, hr, -⟩, -⟩ := id hsync
  obtain ⟨v, -, -, hchunks, hpoints⟩ := h.row_version r hr
  rw [Entry.pointIds, Entry.chunkIds, hchunks, hpoints hsync, pointIds_pointSet]

end Entry.Ok

end RepoMesh
