import Mathlib.Algebra.Order.BigOperators.Group.List
import Mathlib.Algebra.Order.Monoid.Unbundled.Basic
import Mathlib.Data.List.Perm.Basic
import Mathlib.Order.Monotone.Basic

/-!
# Fusing ranked lists by place

Each list gives its members a weight by their place in it, and a member's fused score
is the sum over the lists. Where weights are positive and fall from place to place, a
member that is ahead of another in every list of the other has the higher score
(`fused_lt`), and a longer list takes nothing from anyone (`fused_le_extended`).
-/

namespace RepoMesh

variable {α β : Type*} [DecidableEq α]

/-- What `l` gives to `a`. -/
def placeWeight [Zero β] (weight : ℕ → β) (l : List α) (a : α) : β :=
  if a ∈ l then weight (l.idxOf a) else 0

def fused [AddMonoid β] (weight : ℕ → β) (rankings : List (List α)) (a : α) : β :=
  (rankings.map fun l => placeWeight weight l a).sum

/-- `a` is ahead of `b` in every list that has `b`. -/
def Dominates (rankings : List (List α)) (a b : α) : Prop :=
  ∀ l ∈ rankings, b ∈ l → a ∈ l ∧ l.idxOf a < l.idxOf b

instance (rankings : List (List α)) (a b : α) : Decidable (Dominates rankings a b) :=
  inferInstanceAs (Decidable (∀ l ∈ rankings, b ∈ l → a ∈ l ∧ l.idxOf a < l.idxOf b))

theorem placeWeight_of_mem [Zero β] {weight : ℕ → β} {l : List α} {a : α} (h : a ∈ l) :
    placeWeight weight l a = weight (l.idxOf a) := if_pos h

theorem placeWeight_of_not_mem [Zero β] {weight : ℕ → β} {l : List α} {a : α} (h : a ∉ l) :
    placeWeight weight l a = 0 := if_neg h

theorem placeWeight_append_of_mem [Zero β] {weight : ℕ → β} {l : List α} {a : α} (h : a ∈ l)
    (extra : List α) : placeWeight weight (l ++ extra) a = placeWeight weight l a := by
  rw [placeWeight_of_mem h, placeWeight_of_mem (List.mem_append_left extra h),
    List.idxOf_append_of_mem h]

/-- Behind the first place of a list stand the places of its rest. -/
theorem placeWeight_cons [Zero β] (weight : ℕ → β) (x : α) (l : List α) (a : α) :
    placeWeight weight (x :: l) a =
      if a = x then weight 0 else placeWeight (fun i => weight (i + 1)) l a := by
  by_cases hx : a = x
  · rw [if_pos hx, hx, placeWeight_of_mem List.mem_cons_self, List.idxOf_cons_self]
  · rw [if_neg hx]
    by_cases ha : a ∈ l
    · rw [placeWeight_of_mem ha, placeWeight_of_mem (List.mem_cons_of_mem x ha),
        List.idxOf_cons_ne l (Ne.symm hx)]
    · rw [placeWeight_of_not_mem ha, placeWeight_of_not_mem]
      simp [hx, ha]

@[simp] theorem fused_nil [AddMonoid β] (weight : ℕ → β) (a : α) :
    fused weight ([] : List (List α)) a = 0 := rfl

@[simp] theorem fused_cons [AddMonoid β] (weight : ℕ → β) (l : List α) (rankings : List (List α))
    (a : α) : fused weight (l :: rankings) a = placeWeight weight l a + fused weight rankings a :=
  List.sum_cons

theorem fused_append [AddMonoid β] (weight : ℕ → β) (rankings rankings' : List (List α)) (a : α) :
    fused weight (rankings ++ rankings') a =
      fused weight rankings a + fused weight rankings' a := by
  rw [fused, List.map_append, List.sum_append]
  rfl

theorem fused_perm [AddCommMonoid β] (weight : ℕ → β) {rankings rankings' : List (List α)}
    (h : rankings.Perm rankings') (a : α) : fused weight rankings a = fused weight rankings' a :=
  (h.map _).sum_eq

/-- A member keeps its score when its list grows at the end. -/
theorem fused_extended [AddMonoid β] (weight : ℕ → β) (before after : List (List α)) {l : List α}
    {a : α} (h : a ∈ l) (extra : List α) :
    fused weight (before ++ (l ++ extra) :: after) a = fused weight (before ++ l :: after) a := by
  rw [fused_append, fused_append, fused_cons, fused_cons, placeWeight_append_of_mem h]

theorem placeWeight_nonneg [Zero β] [Preorder β] {weight : ℕ → β} (hpos : ∀ i, 0 < weight i)
    (l : List α) (a : α) : 0 ≤ placeWeight weight l a := by
  by_cases h : a ∈ l
  · rw [placeWeight_of_mem h]
    exact le_of_lt (hpos _)
  · rw [placeWeight_of_not_mem h]

/-- A list gives more to the member that is ahead. -/
theorem placeWeight_lt [Zero β] [Preorder β] {weight : ℕ → β} (hanti : StrictAnti weight)
    {l : List α} {a b : α} (ha : a ∈ l) (hb : b ∈ l) (h : l.idxOf a < l.idxOf b) :
    placeWeight weight l b < placeWeight weight l a := by
  rw [placeWeight_of_mem ha, placeWeight_of_mem hb]
  exact hanti h

section

variable [AddCommMonoid β] [PartialOrder β] [IsOrderedCancelAddMonoid β] {weight : ℕ → β}

/-- A list that grows at its end takes nothing from anyone. -/
theorem fused_le_extended (hpos : ∀ i, 0 < weight i) (before after : List (List α))
    (l extra : List α) (a : α) :
    fused weight (before ++ l :: after) a ≤ fused weight (before ++ (l ++ extra) :: after) a := by
  by_cases h : a ∈ l
  · rw [fused_extended weight before after h]
  · rw [fused_append, fused_append, fused_cons, fused_cons, placeWeight_of_not_mem h]
    exact add_le_add le_rfl (add_le_add (placeWeight_nonneg hpos _ a) le_rfl)

theorem fused_lt (hanti : StrictAnti weight) (hpos : ∀ i, 0 < weight i)
    {rankings : List (List α)} {a b : α} (hdom : Dominates rankings a b)
    (hb : ∃ l ∈ rankings, b ∈ l) : fused weight rankings b < fused weight rankings a := by
  have hlt : ∀ l ∈ rankings, b ∈ l → placeWeight weight l b < placeWeight weight l a := by
    intro l hl hmem
    obtain ⟨ha, hidx⟩ := hdom l hl hmem
    exact placeWeight_lt hanti ha hmem hidx
  refine List.sum_lt_sum _ _ (fun l hl => ?_) ?_
  · by_cases hmem : b ∈ l
    · exact le_of_lt (hlt l hl hmem)
    · rw [placeWeight_of_not_mem hmem]
      exact placeWeight_nonneg hpos l a
  · obtain ⟨l, hl, hmem⟩ := hb
    exact ⟨l, hl, hlt l hl hmem⟩

end

end RepoMesh
