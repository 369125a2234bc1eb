import RepoMesh.Sorting

/-!
# The best of a pool

`Best score n pool picked`: `picked` are `n` members of `pool`, or all of them, in the order
of their scores, and no member that is left out has a higher one. The first `n` of a pool
sorted by an antitone key are its best (`best_take_sortBy`), and the first `m` of the best
`n` are the best again (`Best.take`).
-/

namespace RepoMesh

variable {α β γ : Type*} [LinearOrder β] [Preorder γ]

structure Best (score : α → γ) (n : ℕ) (pool picked : List α) : Prop where
  length : picked.length = min n pool.length
  subset : ∀ a ∈ picked, a ∈ pool
  nodup : picked.Nodup
  sorted : picked.Pairwise fun a b => score b ≤ score a
  left_out : ∀ a ∈ pool, a ∉ picked → ∀ b ∈ picked, score a ≤ score b

variable {score : α → γ} {pool pool' picked : List α} {m n : ℕ}

theorem best_nil (score : α → γ) (n : ℕ) : Best score n [] [] where
  length := (Nat.min_zero n).symm
  subset := fun _ h => h
  nodup := List.nodup_nil
  sorted := List.Pairwise.nil
  left_out := fun _ h => by cases h

theorem Best.perm (h : Best score n pool picked) (hperm : pool.Perm pool') :
    Best score n pool' picked where
  length := hperm.length_eq ▸ h.length
  subset := fun a ha => hperm.mem_iff.mp (h.subset a ha)
  nodup := h.nodup
  sorted := h.sorted
  left_out := fun a ha => h.left_out a (hperm.mem_iff.mpr ha)

theorem Best.take (h : Best score n pool picked) (m : ℕ) :
    Best score (min m n) pool (picked.take m) where
  length := by
    rw [List.length_take, h.length, min_assoc]
  subset := fun a ha => h.subset a (List.mem_of_mem_take ha)
  nodup := h.nodup.sublist (List.take_sublist _ _)
  sorted := h.sorted.sublist (List.take_sublist _ _)
  left_out := by
    intro a ha hout b hb
    by_cases hmem : a ∈ picked
    · have hsorted := h.sorted
      rw [← List.take_append_drop m picked, List.mem_append] at hmem
      rw [← List.take_append_drop m picked, List.pairwise_append] at hsorted
      exact hsorted.2.2 b hb a (hmem.resolve_left hout)
    · exact h.left_out a ha hmem b (List.mem_of_mem_take hb)

/-- Of two scores that go up together, the best by one are the best by the other. -/
theorem Best.mono {δ : Type*} [Preorder δ] {score' : α → δ} (h : Best score n pool picked)
    (hmono : ∀ a b, score a ≤ score b → score' a ≤ score' b) : Best score' n pool picked where
  length := h.length
  subset := h.subset
  nodup := h.nodup
  sorted := h.sorted.imp (hmono _ _)
  left_out := fun a ha hout b hb => hmono a b (h.left_out a ha hout b hb)

theorem best_sortBy {key : α → β} (hnodup : pool.Nodup)
    (hanti : ∀ a b, key a ≤ key b → score b ≤ score a) :
    Best score pool.length pool (sortBy key pool) where
  length := by rw [(sortBy_perm key pool).length_eq, min_self]
  subset := fun _ => mem_sortBy.mp
  nodup := (sortBy_perm key pool).nodup_iff.mpr hnodup
  sorted := (sortBy_pairwise key pool).imp (hanti _ _)
  left_out := fun _ ha hout => absurd (mem_sortBy.mpr ha) hout

theorem best_take_sortBy {key : α → β} (hnodup : pool.Nodup)
    (hanti : ∀ a b, key a ≤ key b → score b ≤ score a) (n : ℕ) :
    Best score n pool ((sortBy key pool).take n) := by
  have htake : Best score (min n pool.length) pool ((sortBy key pool).take n) :=
    (best_sortBy hnodup hanti).take n
  exact { htake with length := by rw [htake.length, min_assoc, min_self] }

end RepoMesh
