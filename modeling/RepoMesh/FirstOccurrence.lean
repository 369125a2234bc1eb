import Mathlib.Data.List.Nodup
import Mathlib.Data.List.Perm.Subperm
import Mathlib.Data.List.Induction

/-!
# The first occurrences of a list

`List.eraseDups` keeps of each member its first occurrence: the keys of a dictionary in
the order of their insertion, given those of its insertions.
-/

namespace RepoMesh

variable {α : Type*} [DecidableEq α]

theorem eraseDups_concat (l : List α) (a : α) :
    (l ++ [a]).eraseDups = if a ∈ l then l.eraseDups else l.eraseDups ++ [a] := by
  rw [List.eraseDups_append]
  by_cases h : a ∈ l
  · simp [List.removeAll, h]
  · simp [List.removeAll, h, List.eraseDups_cons]

theorem nodup_eraseDups (l : List α) : l.eraseDups.Nodup := by
  induction l using List.reverseRecOn with
  | nil => simp
  | append_singleton l a ih =>
      rw [eraseDups_concat]
      split
      · exact ih
      · rename_i ha
        rw [List.nodup_append]
        refine ⟨ih, List.nodup_singleton a, fun b hb c hc hbc => ha ?_⟩
        rw [List.mem_singleton] at hc
        exact hc ▸ hbc ▸ List.mem_eraseDups.mp hb

theorem eraseDups_of_nodup {l : List α} (h : l.Nodup) : l.eraseDups = l := by
  induction l with
  | nil => rfl
  | cons a l ih =>
      obtain ⟨ha, hl⟩ := List.nodup_cons.mp h
      have hrest : (l.filter fun b => !b == a) = l := by
        rw [List.filter_eq_self]
        intro b hb
        have hne : b ≠ a := fun e => ha (e ▸ hb)
        simp [hne]
      rw [List.eraseDups_cons, hrest, ih hl]

/-- The first occurrences are all of the list only if it has no others. -/
theorem length_eraseDups_eq_iff {l : List α} : l.eraseDups.length = l.length ↔ l.Nodup := by
  constructor
  · intro h
    have hperm : l.eraseDups.Subperm l :=
      (nodup_eraseDups l).subperm fun a ha => List.mem_eraseDups.mp ha
    exact (hperm.perm_of_length_le (Nat.le_of_eq h.symm)).nodup_iff.mp (nodup_eraseDups l)
  · intro h
    rw [eraseDups_of_nodup h]

theorem length_eraseDups_le (l : List α) : l.eraseDups.length ≤ l.length :=
  ((nodup_eraseDups l).subperm fun _ ha => List.mem_eraseDups.mp ha).length_le

end RepoMesh
