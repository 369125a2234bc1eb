import Mathlib.Algebra.Order.Ring.Int
import Mathlib.Data.List.Nodup
import Mathlib.Data.List.Lemmas

/-!
# Tables with a primary key

A finite relation whose rows carry their own key. The key is unique by
construction, so a table is a finite map that can still be listed: `get?`
is the map, `rows` the listing in insertion order.

The writes are the SQL ones. `insertNew` is an insert that does nothing when the
key is present, `insert?` one that fails then, `upsert` one that replaces the row;
`update p f` rewrites the rows that satisfy `p` and must leave the key alone;
`delete p` drops them.
-/

namespace RepoMesh

/-- Rows of type `α` with pairwise distinct keys. -/
structure Table {κ α : Type*} (key : α → κ) where
  rows : List α
  nodup : (rows.map key).Nodup

namespace Table

variable {κ α : Type*} {key : α → κ}

def empty (key : α → κ) : Table key := ⟨[], List.nodup_nil⟩

theorem ext {t t' : Table key} (h : t.rows = t'.rows) : t = t' := by
  cases t
  cases t'
  cases h
  rfl

/-- Rewrite the rows that satisfy `p`. -/
def update (t : Table key) (p : α → Bool) (f : α → α) (hf : ∀ r, key (f r) = key r) :
    Table key where
  rows := t.rows.map fun r => if p r then f r else r
  nodup := by
    have hkey : (t.rows.map fun r => if p r then f r else r).map key = t.rows.map key := by
      rw [List.map_map]
      refine List.map_congr_left fun r _ => ?_
      simp only [Function.comp]
      split
      · exact hf r
      · rfl
    rw [hkey]
    exact t.nodup

theorem eq_of_key {t : Table key} {r r' : α} (h : r ∈ t.rows) (h' : r' ∈ t.rows)
    (hkey : key r = key r') : r = r' :=
  List.inj_on_of_nodup_map t.nodup h h' hkey

/-- Rewriting one row moves a sum over the rows by the change of that row. -/
theorem sum_update {t : Table key} {p : α → Bool} (f : α → α) (hf : ∀ r, key (f r) = key r)
    {r : α} (hr : r ∈ t.rows) (hp : ∀ x ∈ t.rows, p x = true ↔ x = r) (μ : α → ℕ) :
    ((t.update p f hf).rows.map μ).sum + μ r = (t.rows.map μ).sum + μ (f r) := by
  have hrest : ∀ l : List α, (∀ x ∈ l, p x = true ↔ x = r) → r ∉ l →
      (l.map fun x => if p x then f x else x) = l := by
    intro l hpl hnot
    conv_rhs => rw [← List.map_id l]
    refine List.map_congr_left fun x hx => ?_
    have hpx : ¬ p x = true := fun h => hnot ((hpl x hx).mp h ▸ hx)
    rw [if_neg hpx, id]
  have hlist : ∀ l : List α, l.Nodup → (∀ x ∈ l, p x = true ↔ x = r) → r ∈ l →
      ((l.map fun x => if p x then f x else x).map μ).sum + μ r =
        (l.map μ).sum + μ (f r) := by
    intro l
    induction l with
    | nil =>
        intro _ _ hmem
        cases hmem
    | cons x l ih =>
        intro hnd hpl hmem
        obtain ⟨hx, hnd⟩ := List.nodup_cons.mp hnd
        have hpl' : ∀ y ∈ l, p y = true ↔ y = r := fun y hy => hpl y (List.mem_cons_of_mem _ hy)
        have hpx := hpl x List.mem_cons_self
        rw [List.map_cons, List.map_cons, List.sum_cons, List.map_cons, List.sum_cons]
        by_cases hxr : x = r
        · rw [if_pos (hpx.mpr hxr), hrest l hpl' (hxr ▸ hx), hxr]
          omega
        · have hmem' : r ∈ l := (List.mem_cons.mp hmem).resolve_left (Ne.symm hxr)
          have hsum := ih hnd hpl' hmem'
          rw [if_neg (mt hpx.mp hxr)]
          omega
  exact hlist t.rows (t.nodup.of_map key) hp hr

/-- Rewriting rows without touching what is counted. -/
theorem countP_update {t : Table key} {p q : α → Bool} {f : α → α} (hf : ∀ r, key (f r) = key r)
    (h : ∀ r ∈ t.rows, p r = true → q (f r) = q r) :
    (t.update p f hf).rows.countP q = t.rows.countP q := by
  show (t.rows.map fun r => if p r then f r else r).countP q = _
  rw [List.countP_map]
  refine List.countP_congr fun r hr => ?_
  simp only [Function.comp]
  split
  · rename_i hp
    rw [h r hr hp]
  · exact Iff.rfl

/-- Drop the rows that satisfy `p`. -/
def delete (t : Table key) (p : α → Bool) : Table key where
  rows := t.rows.filter fun r => !p r
  nodup := t.nodup.sublist (List.filter_sublist.map key)

@[simp] theorem mem_delete {t : Table key} {p : α → Bool} {r : α} :
    r ∈ (t.delete p).rows ↔ r ∈ t.rows ∧ p r = false := by
  simp [delete]

variable [DecidableEq κ]

/-- The row with key `k`. -/
def get? (t : Table key) (k : κ) : Option α :=
  t.rows.find? fun r => key r = k

/-- Append a row unless its key is present. -/
def insertNew (t : Table key) (r : α) : Table key :=
  if h : key r ∈ t.rows.map key then t
  else
    { rows := t.rows ++ [r]
      nodup := by
        rw [List.map_append, List.map_singleton]
        exact List.nodup_append.mpr
          ⟨t.nodup, List.nodup_singleton _, by
            intro a ha b hb hab
            rw [List.mem_singleton] at hb
            exact h (hb ▸ hab ▸ ha)⟩ }

/-- Append a row, or fail because its key is present. -/
def insert? (t : Table key) (r : α) : Option (Table key) :=
  if (t.get? (key r)).isSome then none else some (t.insertNew r)

/-- The row takes the place of the one with its key, or is appended. -/
def upsert (t : Table key) (r : α) : Table key :=
  if (t.get? (key r)).isSome then
    { rows := t.rows.map fun x => if key x = key r then r else x
      nodup := by
        have hkey : (t.rows.map fun x => if key x = key r then r else x).map key =
            t.rows.map key := by
          rw [List.map_map]
          refine List.map_congr_left fun x _ => ?_
          simp only [Function.comp]
          split
          · exact Eq.symm ‹_›
          · rfl
        rw [hkey]
        exact t.nodup }
  else t.insertNew r

/-! ## Reading -/

theorem mem_of_get? {t : Table key} {k : κ} {r : α} (h : t.get? k = some r) :
    r ∈ t.rows :=
  List.mem_of_find?_eq_some h

theorem key_of_get? {t : Table key} {k : κ} {r : α} (h : t.get? k = some r) :
    key r = k := by
  simpa using List.find?_some h

theorem get?_of_mem {t : Table key} {r : α} (h : r ∈ t.rows) :
    t.get? (key r) = some r := by
  obtain ⟨x, hx⟩ : ∃ x, t.get? (key r) = some x := by
    rw [← Option.isSome_iff_exists, get?, List.find?_isSome]
    exact ⟨r, h, by simp⟩
  have hkey : key x = key r := key_of_get? hx
  rw [hx, List.inj_on_of_nodup_map t.nodup (mem_of_get? hx) h hkey]

theorem get?_eq_some {t : Table key} {k : κ} {r : α} :
    t.get? k = some r ↔ r ∈ t.rows ∧ key r = k := by
  constructor
  · intro h
    exact ⟨mem_of_get? h, key_of_get? h⟩
  · rintro ⟨hmem, rfl⟩
    exact get?_of_mem hmem

theorem get?_eq_none {t : Table key} {k : κ} :
    t.get? k = none ↔ ∀ r ∈ t.rows, key r ≠ k := by
  simp [get?]

theorem mem_keys {t : Table key} {k : κ} :
    k ∈ t.rows.map key ↔ (t.get? k).isSome = true := by
  rw [List.mem_map, Option.isSome_iff_exists]
  simp only [get?_eq_some]

@[simp] theorem get?_empty (k : κ) : (empty key).get? k = none := rfl

/-! ## Writing -/

@[simp] theorem get?_update (t : Table key) (p : α → Bool) (f : α → α)
    (hf : ∀ r, key (f r) = key r) (k : κ) :
    (t.update p f hf).get? k = (t.get? k).map fun r => if p r then f r else r := by
  have hkey : ∀ r, key (if p r then f r else r) = key r := fun r => by
    split
    · exact hf r
    · rfl
  simp only [get?, update, List.find?_map, Function.comp_def, hkey]

theorem insertNew_rows {t : Table key} {r : α} (h : t.get? (key r) = none) :
    (t.insertNew r).rows = t.rows ++ [r] := by
  have hmem : key r ∉ t.rows.map key := by
    rw [mem_keys, h]
    exact Bool.false_ne_true
  rw [insertNew, dif_neg hmem]

theorem filterMap_insertNew {β : Type*} {t : Table key} {r : α} (col : α → Option β)
    (h : t.get? (key r) = none) :
    (t.insertNew r).rows.filterMap col = t.rows.filterMap col ++ (col r).toList := by
  rw [insertNew_rows h, List.filterMap_append]
  cases hcol : col r <;> simp [hcol]

theorem insertNew_of_some {t : Table key} {r x : α} (h : t.get? (key r) = some x) :
    t.insertNew r = t := by
  have hmem : key r ∈ t.rows.map key :=
    List.mem_map.mpr ⟨x, mem_of_get? h, key_of_get? h⟩
  rw [insertNew, dif_pos hmem]

theorem get?_insertNew (t : Table key) (r : α) (k : κ) :
    (t.insertNew r).get? k =
      if key r = k then some ((t.get? k).getD r) else t.get? k := by
  cases h : t.get? (key r) with
  | some x =>
      rw [insertNew_of_some h]
      split
      · rename_i hk
        rw [← hk, h, Option.getD_some]
      · rfl
  | none =>
      rw [get?, insertNew_rows h, List.find?_append]
      split
      · rename_i hk
        rw [hk] at h
        have hfind : t.rows.find? (fun x => decide (key x = k)) = none := h
        rw [h, hfind]
        simp [hk]
      · rename_i hk
        have hnone : [r].find? (fun x => decide (key x = k)) = none := by simp [hk]
        rw [hnone, Option.or_none, get?]

theorem get?_insertNew_self {t : Table key} {r : α} (h : t.get? (key r) = none) :
    (t.insertNew r).get? (key r) = some r := by
  rw [get?_insertNew, if_pos rfl, h, Option.getD_none]

theorem get?_insertNew_of_ne {t : Table key} {r : α} {k : κ} (h : key r ≠ k) :
    (t.insertNew r).get? k = t.get? k := by
  rw [get?_insertNew, if_neg h]

theorem get?_insertNew_of_some {t : Table key} {r x : α} {k : κ}
    (h : t.get? k = some x) : (t.insertNew r).get? k = some x := by
  rw [get?_insertNew]
  split
  · rw [h, Option.getD_some]
  · exact h

theorem get?_delete (t : Table key) (p : α → Bool) (k : κ) :
    (t.delete p).get? k = (t.get? k).filter fun r => !p r := by
  ext r
  rw [get?_eq_some, mem_delete, Option.filter_eq_some_iff, get?_eq_some]
  simp only [Bool.not_eq_true']
  tauto

/-- A statement on rows of other keys. -/
theorem get?_update_of_not {t : Table key} {p : α → Bool} (f : α → α)
    (hf : ∀ r, key (f r) = key r) {k : κ} (h : ∀ r, key r = k → p r = false) :
    (t.update p f hf).get? k = t.get? k := by
  rw [get?_update]
  cases hr : t.get? k with
  | none => rfl
  | some r => simp [h r (key_of_get? hr)]

theorem get?_delete_of_not {t : Table key} {p : α → Bool} {k : κ}
    (h : ∀ r, key r = k → p r = false) : (t.delete p).get? k = t.get? k := by
  rw [get?_delete]
  cases hr : t.get? k with
  | none => rfl
  | some r => simp [h r (key_of_get? hr)]

theorem insert?_eq_some {t t' : Table key} {r : α} :
    t.insert? r = some t' ↔ t.get? (key r) = none ∧ t' = t.insertNew r := by
  rw [insert?]
  cases t.get? (key r) <;> simp [eq_comm]

theorem insert?_rows {t t' : Table key} {r : α} (h : t.insert? r = some t') :
    t'.rows = t.rows ++ [r] := by
  obtain ⟨hnone, rfl⟩ := insert?_eq_some.mp h
  exact insertNew_rows hnone

theorem mem_upsert {t : Table key} {r x : α} :
    x ∈ (t.upsert r).rows ↔ x = r ∨ (x ∈ t.rows ∧ key x ≠ key r) := by
  rw [upsert]
  cases h : t.get? (key r) with
  | none =>
      have hne : ∀ y ∈ t.rows, key y ≠ key r := get?_eq_none.mp h
      simp only [Option.isSome_none, Bool.false_eq_true, if_false, insertNew_rows h,
        List.mem_append, List.mem_singleton]
      constructor
      · rintro (hx | rfl)
        · exact Or.inr ⟨hx, hne x hx⟩
        · exact Or.inl rfl
      · rintro (rfl | ⟨hx, -⟩)
        · exact Or.inr rfl
        · exact Or.inl hx
  | some y =>
      simp only [Option.isSome_some, if_true, List.mem_map]
      constructor
      · rintro ⟨z, hz, rfl⟩
        by_cases hk : key z = key r
        · exact Or.inl (if_pos hk)
        · rw [if_neg hk]
          exact Or.inr ⟨hz, hk⟩
      · rintro (rfl | ⟨hx, hk⟩)
        · exact ⟨y, mem_of_get? h, if_pos (key_of_get? h)⟩
        · exact ⟨x, hx, if_neg hk⟩

theorem get?_upsert (t : Table key) (r : α) (k : κ) :
    (t.upsert r).get? k = if key r = k then some r else t.get? k := by
  split
  · rename_i hk
    exact get?_eq_some.mpr ⟨mem_upsert.mpr (Or.inl rfl), hk⟩
  · rename_i hk
    ext x
    rw [get?_eq_some, get?_eq_some, mem_upsert]
    constructor
    · rintro ⟨rfl | ⟨hx, -⟩, hxk⟩
      · exact absurd hxk hk
      · exact ⟨hx, hxk⟩
    · rintro ⟨hx, rfl⟩
      exact ⟨Or.inr ⟨hx, Ne.symm hk⟩, rfl⟩

/-- An upsert keeps the place of a key that is there and appends one that is not. -/
theorem keys_upsert (t : Table key) (r : α) :
    (t.upsert r).rows.map key =
      if key r ∈ t.rows.map key then t.rows.map key else t.rows.map key ++ [key r] := by
  rw [upsert]
  cases h : t.get? (key r) with
  | none =>
      have hnot : key r ∉ t.rows.map key := by
        rw [mem_keys, h]
        exact Bool.false_ne_true
      simp only [Option.isSome_none, Bool.false_eq_true, if_false, if_neg hnot]
      rw [insertNew_rows h, List.map_append, List.map_singleton]
  | some x =>
      have hmem : key r ∈ t.rows.map key := by
        rw [mem_keys, h]
        rfl
      simp only [Option.isSome_some, if_true, if_pos hmem, List.map_map]
      refine List.map_congr_left fun x _ => ?_
      simp only [Function.comp]
      split
      · exact Eq.symm ‹_›
      · rfl

/-! ## Counting rows -/

theorem perm_of_get? {t t' : Table key} (h : ∀ k, t'.get? k = t.get? k) :
    t'.rows.Perm t.rows := by
  refine (List.perm_ext_iff_of_nodup (t'.nodup.of_map key) (t.nodup.of_map key)).mpr fun r => ?_
  constructor
  · intro hr
    exact mem_of_get? ((h (key r)).symm.trans (get?_of_mem hr))
  · intro hr
    exact mem_of_get? ((h (key r)).trans (get?_of_mem hr))

/-- Rewriting the row of one key moves a count by the change of that row. -/
theorem countP_of_get? {t t' : Table key} {k : κ} {r : α} (hr : t.get? k = some r)
    (f : α → α) (hf : ∀ r, key (f r) = key r)
    (h : ∀ j, t'.get? j = (t.get? j).map fun x => if j = k then f x else x) (q : α → Bool) :
    t'.rows.countP q + (q r).toNat = t.rows.countP q + (q (f r)).toNat := by
  have hget : ∀ j, t'.get? j = (t.update (key · = k) f hf).get? j := by
    intro j
    rw [h, get?_update]
    cases hj : t.get? j with
    | none => rfl
    | some x => simp [key_of_get? hj]
  have hcount : ∀ l : List α, l.countP q = (l.map fun x => (q x).toNat).sum := by
    intro l
    induction l with
    | nil => rfl
    | cons x l ih =>
        rw [List.countP_cons, ih, List.map_cons, List.sum_cons]
        cases q x <;> simp [Nat.add_comm]
  have hmem := mem_of_get? hr
  have hkey : ∀ x ∈ t.rows, decide (key x = k) = true ↔ x = r := by
    intro x hx
    rw [decide_eq_true_eq, ← key_of_get? hr]
    exact ⟨eq_of_key hx hmem, congrArg key⟩
  rw [(perm_of_get? hget).countP_eq q, hcount, hcount]
  exact sum_update f hf hmem hkey _

end Table

end RepoMesh
