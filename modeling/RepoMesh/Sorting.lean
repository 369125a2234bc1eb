import Mathlib.Data.List.Pairwise
import Mathlib.Data.List.Sort

/-!
# Sorting one list by two keys

`sortBy key l` is the stable sort of `l` by a key with a linear order. Two keys
that tell the members of `l` apart sort `l`, in whatever order it is given, to the
same list exactly if they compare its members alike (`sortBy_eq_iff`).
-/

namespace RepoMesh

variable {α β γ : Type*} [LinearOrder β] [LinearOrder γ]

def sortBy (key : α → β) (l : List α) : List α :=
  l.insertionSort fun a b => key a ≤ key b

theorem sortBy_perm (key : α → β) (l : List α) : (sortBy key l).Perm l :=
  List.perm_insertionSort _ l

@[simp] theorem mem_sortBy {key : α → β} {l : List α} {a : α} : a ∈ sortBy key l ↔ a ∈ l :=
  (sortBy_perm key l).mem_iff

theorem sortBy_pairwise (key : α → β) (l : List α) :
    (sortBy key l).Pairwise fun a b => key a ≤ key b := by
  have : Std.Total fun a b : α => key a ≤ key b := ⟨fun a b => le_total (key a) (key b)⟩
  have : IsTrans α fun a b => key a ≤ key b := ⟨fun _ _ _ => le_trans⟩
  exact List.pairwise_insertionSort _ l

theorem sortBy_idem (key : α → β) (l : List α) : sortBy key (sortBy key l) = sortBy key l :=
  (sortBy_pairwise key l).insertionSort_eq

theorem sortBy_map {δ : Type*} (key : δ → β) (f : α → δ) (l : List α) :
    (sortBy (fun a => key (f a)) l).map f = sortBy key (l.map f) :=
  List.map_insertionSort _ _ f l fun _ _ _ _ => Iff.rfl

/-- Members of a list that is sorted by two keys at once compare alike. -/
theorem lt_of_pairwise {key : α → β} {key' : α → γ} {l : List α}
    (h : l.Pairwise fun a b => key a ≤ key b) (h' : l.Pairwise fun a b => key' a ≤ key' b)
    (hinj : ∀ a ∈ l, ∀ b ∈ l, key' a = key' b → a = b) {a b : α} (ha : a ∈ l) (hb : b ∈ l)
    (hlt : key a < key b) : key' a < key' b := by
  have hboth := (h.and h').imp (S := fun a b =>
    (key a ≤ key b ∧ key' a ≤ key' b) ∨ (key b ≤ key a ∧ key' b ≤ key' a)) Or.inl
  have hne : a ≠ b := fun heq => absurd hlt (heq ▸ lt_irrefl _)
  have : Std.Symm fun a b =>
      (key a ≤ key b ∧ key' a ≤ key' b) ∨ (key b ≤ key a ∧ key' b ≤ key' a) :=
    ⟨fun _ _ => Or.symm⟩
  rcases hboth.forall ha hb hne with ⟨-, hle⟩ | ⟨hle, -⟩
  · exact lt_of_le_of_ne hle fun heq => hne (hinj a ha b hb heq)
  · exact absurd hlt (not_lt.mpr hle)

/-- Two keys sort a list to the same list iff they order its members alike. -/
theorem sortBy_eq_iff (key : α → β) (key' : α → γ) {l l' : List α} (hperm : l'.Perm l)
    (hinj : ∀ a ∈ l, ∀ b ∈ l, key a = key b → a = b)
    (hinj' : ∀ a ∈ l, ∀ b ∈ l, key' a = key' b → a = b) :
    sortBy key' l' = sortBy key l ↔ ∀ a ∈ l, ∀ b ∈ l, key a < key b → key' a < key' b := by
  constructor
  · intro heq a ha b hb hlt
    have h' := sortBy_pairwise key' l'
    rw [heq] at h'
    refine lt_of_pairwise (sortBy_pairwise key l) h' ?_ (mem_sortBy.mpr ha)
      (mem_sortBy.mpr hb) hlt
    exact fun x hx y hy => hinj' x (mem_sortBy.mp hx) y (mem_sortBy.mp hy)
  · intro hagree
    have hsorted : (sortBy key l).Pairwise fun a b => key' a ≤ key' b := by
      refine (sortBy_pairwise key l).imp_of_mem fun {a b} ha hb hle => ?_
      rcases lt_or_eq_of_le hle with hlt | heq
      · exact le_of_lt (hagree a (mem_sortBy.mp ha) b (mem_sortBy.mp hb) hlt)
      · rw [hinj a (mem_sortBy.mp ha) b (mem_sortBy.mp hb) heq]
    have hl : (sortBy key' l').Perm (sortBy key l) :=
      ((sortBy_perm key' l').trans hperm).trans (sortBy_perm key l).symm
    refine List.Perm.eq_of_pairwise (fun a b ha hb hab hba => ?_) (sortBy_pairwise key' l')
      hsorted hl
    have ha' := hperm.mem_iff.mp (mem_sortBy.mp ha)
    exact hinj' a ha' b (mem_sortBy.mp hb) (le_antisymm hab hba)

end RepoMesh
