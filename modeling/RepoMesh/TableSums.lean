import Mathlib.Algebra.BigOperators.Fin
import Mathlib.Algebra.Order.BigOperators.Group.Finset
import Mathlib.Data.List.Perm.Subperm
import RepoMesh.Table

/-!
# Sums over a table

A weight on the rows of a table, added up. Keys tell the rows apart, so the sum is one
over keys, a key that is absent weighing nothing, and two tables compare key by key:
`total_le` when no key got heavier, `total_lt` when one of them got lighter.
`countP_le_of_pairs` compares the counts of rows that pair off between two tables.
-/

namespace RepoMesh

namespace Table

variable {κ α : Type*} {key : α → κ}

/-- The weights of the rows, added up. -/
def total (t : Table key) (μ : α → ℕ) : ℕ :=
  (t.rows.map μ).sum

/-- Rows of which each satisfies as many of the parts as it satisfies `p`. -/
theorem countP_eq_sum {t : Table key} {p : α → Bool} {parts : List (α → Bool)}
    (h : ∀ r ∈ t.rows, (p r).toNat = (parts.map fun q => (q r).toNat).sum) :
    t.rows.countP p = (parts.map fun q => t.rows.countP q).sum := by
  have hcons : ∀ (q : α → Bool) (r : α) (rows : List α),
      (r :: rows).countP q = (q r).toNat + rows.countP q := by
    intro q r rows
    rw [List.countP_cons, Nat.add_comm]
    cases q r <;> rfl
  have hlist : ∀ rows : List α,
      (∀ r ∈ rows, (p r).toNat = (parts.map fun q => (q r).toNat).sum) →
      rows.countP p = (parts.map fun q => rows.countP q).sum := by
    intro rows
    induction rows with
    | nil => simp
    | cons r rows ih =>
        intro hrows
        have hr := hrows r List.mem_cons_self
        have hrest := ih fun x hx => hrows x (List.mem_cons_of_mem r hx)
        simp only [hcons, hr, hrest, List.sum_map_add]
  exact hlist t.rows h

/-- Rows that pair off with distinct rows of another table are not more than those. -/
theorem countP_le_of_pairs {β ι : Type*} {key' : β → ι} {t : Table key} {t' : Table key'}
    {p : α → Bool} {q : β → Bool} {R : α → β → Prop}
    (hR : ∀ r ∈ t.rows, p r = true → ∃ x ∈ t'.rows, q x = true ∧ R r x)
    (hinj : ∀ r ∈ t.rows, ∀ r' ∈ t.rows, ∀ x, R r x → R r' x → r = r') :
    t.rows.countP p ≤ t'.rows.countP q := by
  rw [List.countP_eq_length_filter, List.countP_eq_length_filter]
  have hpair : ∀ r ∈ t.rows.filter p, ∃ x ∈ t'.rows.filter q, R r x := by
    intro r hr
    obtain ⟨hmem, hp⟩ := List.mem_filter.mp hr
    obtain ⟨x, hx, hq, hrx⟩ := hR r hmem hp
    exact ⟨x, List.mem_filter.mpr ⟨hx, hq⟩, hrx⟩
  choose f hf hfR using hpair
  have hnodup : ((t.rows.filter p).attach.map fun r => f r.1 r.2).Nodup := by
    refine List.Nodup.map_on ?_ (List.nodup_attach.mpr ((t.nodup.of_map key).filter p))
    intro r _ r' _ heq
    refine Subtype.ext (hinj r.1 (List.mem_filter.mp r.2).1 r'.1 (List.mem_filter.mp r'.2).1
      (f r.1 r.2) (hfR r.1 r.2) ?_)
    rw [heq]
    exact hfR r'.1 r'.2
  have hsub : ((t.rows.filter p).attach.map fun r => f r.1 r.2) ⊆ t'.rows.filter q := by
    intro x hx
    obtain ⟨r, -, rfl⟩ := List.mem_map.mp hx
    exact hf r.1 r.2
  have hlength := (List.subperm_of_subset hnodup hsub).length_le
  rwa [List.length_map, List.length_attach] at hlength

variable [DecidableEq κ]

/-- The weight under a key. -/
def weight (t : Table key) (μ : α → ℕ) (k : κ) : ℕ :=
  (t.get? k).elim 0 μ

theorem weight_of_get? {t : Table key} {μ : α → ℕ} {k : κ} {r : α} (h : t.get? k = some r) :
    t.weight μ k = μ r := by
  rw [weight, h, Option.elim_some]

theorem weight_of_none {t : Table key} {μ : α → ℕ} {k : κ} (h : t.get? k = none) :
    t.weight μ k = 0 := by
  rw [weight, h, Option.elim_none]

/-- The sum over the rows is one over any keys that include theirs. -/
theorem total_eq_sum {t : Table key} {μ : α → ℕ} {keys : Finset κ}
    (h : ∀ r ∈ t.rows, key r ∈ keys) : t.total μ = ∑ k ∈ keys, t.weight μ k := by
  have hrows : t.rows.map μ = (t.rows.map key).map (t.weight μ) := by
    rw [List.map_map]
    refine List.map_congr_left fun r hr => ?_
    exact (weight_of_get? (get?_of_mem hr)).symm
  have hsub : (t.rows.map key).toFinset ⊆ keys := by
    intro k hk
    obtain ⟨r, hr, rfl⟩ := List.mem_map.mp (List.mem_toFinset.mp hk)
    exact h r hr
  rw [total, hrows, ← List.sum_toFinset _ t.nodup]
  refine Finset.sum_subset hsub fun k _ hk => weight_of_none ?_
  rw [← Option.not_isSome_iff_eq_none, ← mem_keys]
  exact fun hmem => hk (List.mem_toFinset.mpr hmem)

/-- The keys of two tables. -/
theorem exists_keys (t t' : Table key) : ∃ keys : Finset κ,
    (∀ r ∈ t.rows, key r ∈ keys) ∧ ∀ r ∈ t'.rows, key r ∈ keys := by
  refine ⟨(t.rows.map key ++ t'.rows.map key).toFinset, fun r hr => ?_, fun r hr => ?_⟩
  · simp only [List.mem_toFinset, List.mem_append]
    exact Or.inl (List.mem_map_of_mem hr)
  · simp only [List.mem_toFinset, List.mem_append]
    exact Or.inr (List.mem_map_of_mem hr)

theorem total_le {t t' : Table key} {μ : α → ℕ} (h : ∀ k, t'.weight μ k ≤ t.weight μ k) :
    t'.total μ ≤ t.total μ := by
  obtain ⟨keys, ht, ht'⟩ := exists_keys t t'
  rw [total_eq_sum ht, total_eq_sum ht']
  exact Finset.sum_le_sum fun k _ => h k

theorem total_lt {t t' : Table key} {μ : α → ℕ} (h : ∀ k, t'.weight μ k ≤ t.weight μ k)
    {k : κ} (hk : t'.weight μ k < t.weight μ k) : t'.total μ < t.total μ := by
  obtain ⟨keys, ht, ht'⟩ := exists_keys t t'
  have hmem : k ∈ keys := by
    cases hget : t.get? k with
    | none =>
        rw [weight_of_none hget] at hk
        omega
    | some r =>
        obtain rfl := key_of_get? hget
        exact ht r (mem_of_get? hget)
  rw [total_eq_sum ht, total_eq_sum ht']
  exact Finset.sum_lt_sum (fun k _ => h k) ⟨k, hmem, hk⟩

end Table

end RepoMesh
