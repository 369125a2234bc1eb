import Mathlib.Data.List.Nodup
import Mathlib.Data.List.Perm.Basic

/-!
# An index kept by triggers

A table whose rows carry an `AUTOINCREMENT` rowid, and an index that holds no rows of its
own: it is told of every change by a trigger that runs after each changed row. To take an
entry out the index must be given what was put in, so `retract` is possible for an entry
that is there and for no other. `enter` is possible for a rowid that is not there yet.

A statement first collects the rows it is about and then changes them one after the other.
`deleteRows_spec`, `updateRows_spec` and `insertRow_spec` say that in a coherent state no
trigger fails, whatever the statement, and that the state stays coherent. `Inherits` says
that no rowid is given twice.
-/

namespace RepoMesh

/-- The rows and entries with their rowids; `seq` is the largest rowid ever given. -/
structure Triggered (α δ : Type*) where
  rows : List (ℕ × α)
  seq : ℕ
  entries : List (ℕ × δ)

namespace Triggered

variable {α δ : Type*}

def empty : Triggered α δ := ⟨[], 0, []⟩

/-! ## The index -/

def enter (e : ℕ × δ) (entries : List (ℕ × δ)) : Option (List (ℕ × δ)) :=
  if e.1 ∈ entries.map Prod.fst then none else some (entries ++ [e])

def retract [DecidableEq δ] (e : ℕ × δ) (entries : List (ℕ × δ)) : Option (List (ℕ × δ)) :=
  if e ∈ entries then some (entries.erase e) else none

/-! ## Statements -/

/-- `INSERT`, and the trigger after it. -/
def insertRow (doc : α → δ) (r : α) (s : Triggered α δ) : Option (Triggered α δ) :=
  (enter (s.seq + 1, doc r) s.entries).map fun entries =>
    { rows := s.rows ++ [(s.seq + 1, r)], seq := s.seq + 1, entries := entries }

/-- One row goes, and then the trigger runs. -/
def deleteRow [DecidableEq δ] (doc : α → δ) (row : ℕ × α) (s : Triggered α δ) :
    Option (Triggered α δ) :=
  (retract (row.1, doc row.2) s.entries).map fun entries =>
    { s with rows := s.rows.filter (·.1 ≠ row.1), entries := entries }

/-- One row is rewritten, and then the trigger exchanges its entry. -/
def updateRow [DecidableEq δ] (doc : α → δ) (f : α → α) (row : ℕ × α) (s : Triggered α δ) :
    Option (Triggered α δ) :=
  (retract (row.1, doc row.2) s.entries).bind fun entries =>
    (enter (row.1, doc (f row.2)) entries).map fun entries =>
      { s with
        rows := s.rows.map fun x => if x.1 = row.1 then (x.1, f x.2) else x
        entries := entries }

/-- Row after row. -/
def each (step : ℕ × α → Triggered α δ → Option (Triggered α δ)) :
    List (ℕ × α) → Triggered α δ → Option (Triggered α δ)
  | [], s => some s
  | row :: rows, s => (step row s).bind (each step rows)

def deleteRows [DecidableEq δ] (doc : α → δ) (p : α → Bool) (s : Triggered α δ) :
    Option (Triggered α δ) :=
  each (deleteRow doc) (s.rows.filter fun row => p row.2) s

def updateRows [DecidableEq δ] (doc : α → δ) (p : α → Bool) (f : α → α) (s : Triggered α δ) :
    Option (Triggered α δ) :=
  each (updateRow doc f) (s.rows.filter fun row => p row.2) s

/-! ## Coherence -/

/-- The entries are those of the rows, one for each. -/
structure Coherent (doc : α → δ) (s : Triggered α δ) : Prop where
  image : s.entries.Perm (s.rows.map fun row => (row.1, doc row.2))
  nodup : (s.rows.map Prod.fst).Nodup
  le_seq : ∀ row ∈ s.rows, row.1 ≤ s.seq

section

variable {doc : α → δ} {s t : Triggered α δ} {row : ℕ × α} {f : α → α}

theorem coherent_empty (doc : α → δ) : (empty : Triggered α δ).Coherent doc where
  image := List.Perm.refl _
  nodup := List.nodup_nil
  le_seq := fun _ h => by cases h

theorem Coherent.eq_of_rowid (h : s.Coherent doc) {row' : ℕ × α} (hrow : row ∈ s.rows)
    (hrow' : row' ∈ s.rows) (hid : row.1 = row'.1) : row = row' :=
  List.inj_on_of_nodup_map h.nodup hrow hrow' hid

theorem Coherent.rowids (h : s.Coherent doc) :
    (s.entries.map Prod.fst).Perm (s.rows.map Prod.fst) := by
  have hmap := h.image.map Prod.fst
  rw [List.map_map] at hmap
  exact hmap

/-- A new row is entered under a rowid that no row ever had. -/
theorem insertRow_spec (h : s.Coherent doc) (r : α) :
    ∃ t, insertRow doc r s = some t ∧ t.Coherent doc ∧
      t.rows = s.rows ++ [(s.seq + 1, r)] ∧ t.seq = s.seq + 1 := by
  have hfresh : ∀ row ∈ s.rows, row.1 ≠ s.seq + 1 := by
    intro row hrow heq
    have hle := h.le_seq row hrow
    omega
  have hnot : s.seq + 1 ∉ s.entries.map Prod.fst := by
    rw [h.rowids.mem_iff, List.mem_map]
    rintro ⟨row, hrow, heq⟩
    exact hfresh row hrow heq
  refine ⟨⟨s.rows ++ [(s.seq + 1, r)], s.seq + 1, s.entries ++ [(s.seq + 1, doc r)]⟩, ?_, ?_,
    rfl, rfl⟩
  · rw [insertRow, enter, if_neg hnot]
    rfl
  · constructor
    · rw [List.map_append]
      exact h.image.append_right _
    · rw [List.map_append, List.nodup_append]
      refine ⟨h.nodup, List.nodup_singleton _, ?_⟩
      rintro a ha b hb rfl
      obtain ⟨row, hrow, rfl⟩ := List.mem_map.mp ha
      rw [List.map_singleton, List.mem_singleton] at hb
      exact hfresh row hrow hb
    · intro row hrow
      rcases List.mem_append.mp hrow with hrow | hrow
      · exact Nat.le_succ_of_le (h.le_seq row hrow)
      · exact Nat.le_of_eq (congrArg Prod.fst (List.mem_singleton.mp hrow))

/-- A row and the rows of other rowids. -/
theorem Coherent.perm_cons (h : s.Coherent doc) (hrow : row ∈ s.rows) :
    s.rows.Perm (row :: s.rows.filter (·.1 ≠ row.1)) := by
  classical
  refine (List.perm_cons_erase hrow).trans (List.Perm.of_eq ?_)
  rw [(List.Nodup.of_map Prod.fst h.nodup).erase_eq_filter]
  congr 1
  refine List.filter_congr fun other hother => ?_
  have hsame : other = row ↔ other.1 = row.1 :=
    ⟨congrArg Prod.fst, h.eq_of_rowid hother hrow⟩
  rw [Bool.eq_iff_iff, bne_iff_ne, decide_eq_true_iff]
  exact not_congr hsame

/-- The entries left once the entry of a row is taken out. -/
theorem Coherent.retract_eq [DecidableEq δ] (h : s.Coherent doc) (hrow : row ∈ s.rows) :
    ∃ entries, retract (row.1, doc row.2) s.entries = some entries ∧
      entries.Perm ((s.rows.filter (·.1 ≠ row.1)).map fun row => (row.1, doc row.2)) := by
  have himage := h.image.trans ((h.perm_cons hrow).map fun row => (row.1, doc row.2))
  rw [List.map_cons] at himage
  refine ⟨s.entries.erase (row.1, doc row.2), if_pos (himage.mem_iff.mpr List.mem_cons_self), ?_⟩
  have herase := himage.erase (row.1, doc row.2)
  rw [List.erase_cons_head] at herase
  exact herase

theorem deleteRow_spec [DecidableEq δ] (h : s.Coherent doc) (hrow : row ∈ s.rows) :
    ∃ t, deleteRow doc row s = some t ∧ t.Coherent doc ∧
      t.rows = s.rows.filter (·.1 ≠ row.1) ∧ t.seq = s.seq := by
  obtain ⟨entries, hretract, hperm⟩ := h.retract_eq hrow
  refine ⟨{ s with rows := s.rows.filter (·.1 ≠ row.1), entries := entries }, ?_, ?_, rfl, rfl⟩
  · rw [deleteRow, hretract]
    rfl
  · exact
      { image := hperm
        nodup := h.nodup.sublist (List.filter_sublist.map _)
        le_seq := fun other hother => h.le_seq other (List.mem_filter.mp hother).1 }

theorem map_fst_rewrite (rows : List (ℕ × α)) (p : ℕ × α → Prop) [DecidablePred p] :
    (rows.map fun x => if p x then (x.1, f x.2) else x).map Prod.fst = rows.map Prod.fst := by
  rw [List.map_map]
  refine List.map_congr_left fun x _ => ?_
  simp only [Function.comp]
  split <;> rfl

theorem updateRow_spec [DecidableEq δ] (f : α → α) (h : s.Coherent doc) (hrow : row ∈ s.rows) :
    ∃ t, updateRow doc f row s = some t ∧ t.Coherent doc ∧
      t.rows = s.rows.map (fun x => if x.1 = row.1 then (x.1, f x.2) else x) ∧
      t.seq = s.seq := by
  obtain ⟨entries, hretract, hperm⟩ := h.retract_eq hrow
  have hids : (s.rows.map fun x => if x.1 = row.1 then (x.1, f x.2) else x).map Prod.fst =
      s.rows.map Prod.fst := map_fst_rewrite s.rows _
  have hnot : row.1 ∉ entries.map Prod.fst := by
    rw [(hperm.map Prod.fst).mem_iff, List.map_map, List.mem_map]
    rintro ⟨other, hother, heq⟩
    exact of_decide_eq_true (List.mem_filter.mp hother).2 heq
  refine ⟨{ s with
      rows := s.rows.map fun x => if x.1 = row.1 then (x.1, f x.2) else x
      entries := entries ++ [(row.1, doc (f row.2))] }, ?_, ?_, rfl, rfl⟩
  · rw [updateRow, hretract, Option.bind_some, enter, if_neg hnot]
    rfl
  · constructor
    · have hrest : ((s.rows.filter (·.1 ≠ row.1)).map fun x =>
          if x.1 = row.1 then (x.1, f x.2) else x) = s.rows.filter (·.1 ≠ row.1) := by
        conv_rhs => rw [← List.map_id (s.rows.filter (·.1 ≠ row.1))]
        refine List.map_congr_left fun x hx => if_neg ?_
        exact of_decide_eq_true (List.mem_filter.mp hx).2
      have hrows := (h.perm_cons hrow).map fun x => if x.1 = row.1 then (x.1, f x.2) else x
      rw [List.map_cons, if_pos rfl, hrest] at hrows
      refine ((hperm.append_right _).trans (List.perm_append_singleton _ _)).trans ?_
      exact (hrows.map fun row => (row.1, doc row.2)).symm
    · rw [hids]
      exact h.nodup
    · intro other hother
      have hmem : other.1 ∈ s.rows.map Prod.fst := hids ▸ List.mem_map_of_mem hother
      obtain ⟨x, hx, hid⟩ := List.mem_map.mp hmem
      exact hid ▸ h.le_seq x hx

/-! ## Row after row -/

theorem each_delete_spec [DecidableEq δ] (rows : List (ℕ × α)) (h : s.Coherent doc)
    (hrows : ∀ row ∈ rows, row ∈ s.rows) (hnodup : (rows.map Prod.fst).Nodup) :
    ∃ t, each (deleteRow doc) rows s = some t ∧ t.Coherent doc ∧
      t.rows = s.rows.filter (·.1 ∉ rows.map Prod.fst) ∧ t.seq = s.seq := by
  induction rows generalizing s with
  | nil => exact ⟨s, rfl, h, by simp, rfl⟩
  | cons row rows ih =>
      obtain ⟨hnot, hnodup⟩ := List.nodup_cons.mp hnodup
      obtain ⟨u, hu, hcoherent, hurows, huseq⟩ := deleteRow_spec h (hrows row List.mem_cons_self)
      have hstill : ∀ other ∈ rows, other ∈ u.rows := by
        intro other hother
        rw [hurows, List.mem_filter]
        refine ⟨hrows other (List.mem_cons_of_mem _ hother), decide_eq_true fun heq => ?_⟩
        exact hnot (heq ▸ List.mem_map_of_mem hother)
      obtain ⟨t, ht, htcoherent, htrows, htseq⟩ := ih hcoherent hstill hnodup
      refine ⟨t, ?_, htcoherent, ?_, htseq.trans huseq⟩
      · rw [each, hu]
        exact ht
      · rw [htrows, hurows, List.filter_filter]
        refine List.filter_congr fun x _ => ?_
        rw [List.map_cons, Bool.eq_iff_iff]
        simp [and_comm]

theorem each_update_spec [DecidableEq δ] (rows : List (ℕ × α)) (h : s.Coherent doc)
    (hrows : ∀ row ∈ rows, row ∈ s.rows) (hnodup : (rows.map Prod.fst).Nodup) :
    ∃ t, each (updateRow doc f) rows s = some t ∧ t.Coherent doc ∧
      t.rows = s.rows.map (fun x => if x.1 ∈ rows.map Prod.fst then (x.1, f x.2) else x) ∧
      t.seq = s.seq := by
  induction rows generalizing s with
  | nil => exact ⟨s, rfl, h, by simp, rfl⟩
  | cons row rows ih =>
      obtain ⟨hnot, hnodup⟩ := List.nodup_cons.mp hnodup
      obtain ⟨u, hu, hcoherent, hurows, huseq⟩ :=
        updateRow_spec f h (hrows row List.mem_cons_self)
      have hstill : ∀ other ∈ rows, other ∈ u.rows := by
        intro other hother
        rw [hurows, List.mem_map]
        refine ⟨other, hrows other (List.mem_cons_of_mem _ hother), if_neg fun heq => ?_⟩
        exact hnot (heq ▸ List.mem_map_of_mem hother)
      obtain ⟨t, ht, htcoherent, htrows, htseq⟩ := ih hcoherent hstill hnodup
      refine ⟨t, ?_, htcoherent, ?_, htseq.trans huseq⟩
      · rw [each, hu]
        exact ht
      · rw [htrows, hurows, List.map_map]
        refine List.map_congr_left fun x _ => ?_
        simp only [Function.comp, List.map_cons, List.mem_cons]
        by_cases hx : x.1 = row.1
        · rw [if_pos hx, if_pos (Or.inl hx), if_neg (hx ▸ hnot)]
        · rw [if_neg hx]
          simp only [hx, false_or]

/-- The rows a statement is about are told from the others by their rowids. -/
theorem Coherent.mem_rowids (h : s.Coherent doc) (p : α → Bool) (hrow : row ∈ s.rows) :
    row.1 ∈ (s.rows.filter fun row => p row.2).map Prod.fst ↔ p row.2 = true := by
  rw [List.mem_map]
  constructor
  · rintro ⟨other, hother, hid⟩
    obtain ⟨hother, hp⟩ := List.mem_filter.mp hother
    obtain rfl := h.eq_of_rowid hother hrow hid
    exact hp
  · exact fun hp => ⟨row, List.mem_filter.mpr ⟨hrow, hp⟩, rfl⟩

theorem deleteRows_spec [DecidableEq δ] (h : s.Coherent doc) (p : α → Bool) :
    ∃ t, deleteRows doc p s = some t ∧ t.Coherent doc ∧
      t.rows = s.rows.filter (fun row => !p row.2) ∧ t.seq = s.seq := by
  obtain ⟨t, ht, hcoherent, hrows, hseq⟩ := each_delete_spec (s.rows.filter fun row => p row.2) h
    (fun _ hrow => (List.mem_filter.mp hrow).1) (h.nodup.sublist (List.filter_sublist.map _))
  refine ⟨t, ht, hcoherent, hrows.trans (List.filter_congr fun row hrow => ?_), hseq⟩
  have hiff := h.mem_rowids p hrow
  cases hp : p row.2 <;> simp_all

theorem updateRows_spec [DecidableEq δ] (h : s.Coherent doc) (p : α → Bool) (f : α → α) :
    ∃ t, updateRows doc p f s = some t ∧ t.Coherent doc ∧
      t.rows = s.rows.map (fun row => if p row.2 then (row.1, f row.2) else row) ∧
      t.seq = s.seq := by
  obtain ⟨t, ht, hcoherent, hrows, hseq⟩ := each_update_spec (s.rows.filter fun row => p row.2) h
    (fun _ hrow => (List.mem_filter.mp hrow).1) (h.nodup.sublist (List.filter_sublist.map _))
  refine ⟨t, ht, hcoherent, hrows.trans (List.map_congr_left fun row hrow => ?_), hseq⟩
  simp only [h.mem_rowids p hrow]

end

/-! ## Rowids over time -/

/-- What `t` has under a rowid that `s` had already given comes from a row of `s`. -/
structure Inherits (R : α → α → Prop) (s t : Triggered α δ) : Prop where
  seq_le : s.seq ≤ t.seq
  origin : ∀ row ∈ t.rows, row.1 ≤ s.seq → ∃ old ∈ s.rows, old.1 = row.1 ∧ R old.2 row.2

section

variable {R : α → α → Prop} {s t u : Triggered α δ}

theorem inherits_refl (hR : ∀ a, R a a) (s : Triggered α δ) : s.Inherits R s where
  seq_le := Nat.le_refl _
  origin := fun row hrow _ => ⟨row, hrow, rfl, hR _⟩

theorem Inherits.trans (hR : ∀ a b c, R a b → R b c → R a c) (h : s.Inherits R t)
    (h' : t.Inherits R u) : s.Inherits R u where
  seq_le := Nat.le_trans h.seq_le h'.seq_le
  origin := by
    intro row hrow hle
    obtain ⟨mid, hmid, hid, hR'⟩ := h'.origin row hrow (Nat.le_trans hle h.seq_le)
    obtain ⟨old, hold, hid', hR''⟩ := h.origin mid hmid (hid ▸ hle)
    exact ⟨old, hold, hid'.trans hid, hR _ _ _ hR'' hR'⟩

theorem inherits_of_append (hR : ∀ a, R a a) {r : α}
    (hrows : t.rows = s.rows ++ [(s.seq + 1, r)]) (hseq : t.seq = s.seq + 1) :
    s.Inherits R t where
  seq_le := by omega
  origin := by
    intro row hrow hle
    rw [hrows, List.mem_append, List.mem_singleton] at hrow
    rcases hrow with hrow | rfl
    · exact ⟨row, hrow, rfl, hR _⟩
    · exact absurd hle (Nat.not_succ_le_self _)

theorem inherits_of_filter (hR : ∀ a, R a a) {p : ℕ × α → Bool}
    (hrows : t.rows = s.rows.filter p) (hseq : t.seq = s.seq) : s.Inherits R t where
  seq_le := by omega
  origin := fun row hrow _ =>
    ⟨row, (List.mem_filter.mp (hrows ▸ hrow)).1, rfl, hR _⟩

theorem inherits_of_map (hR : ∀ a, R a a) {p : α → Bool} {f : α → α} (hf : ∀ a, R a (f a))
    (hrows : t.rows = s.rows.map fun row => if p row.2 then (row.1, f row.2) else row)
    (hseq : t.seq = s.seq) : s.Inherits R t where
  seq_le := by omega
  origin := by
    intro row hrow _
    rw [hrows, List.mem_map] at hrow
    obtain ⟨old, hold, rfl⟩ := hrow
    refine ⟨old, hold, ?_⟩
    split
    · exact ⟨rfl, hf _⟩
    · exact ⟨rfl, hR _⟩

end

end Triggered

end RepoMesh
