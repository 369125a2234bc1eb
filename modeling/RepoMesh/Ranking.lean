import RepoMesh.Sorting
import Mathlib.Data.List.Dedup

/-!
# Ranked lists and their beginnings

A list sorted by a strict order shows in the order alone which members its first `k`
are: those with fewer than `k` members ahead of them (`mem_take_iff`). Reading the
members of `l.take k` that satisfy `p` gives as many as there are to have exactly if
no member that fails `p` is among the first `k` while one that satisfies it is not
(`length_filter_take_iff`).
-/

namespace RepoMesh

variable {α β : Type*}

/-- How many members of `l` are ahead of `a`. -/
def place (r : α → α → Prop) [DecidableRel r] (l : List α) (a : α) : ℕ :=
  l.countP fun b => r b a

theorem place_perm (r : α → α → Prop) [DecidableRel r] {l l' : List α} (h : l.Perm l') (a : α) :
    place r l a = place r l' a :=
  h.countP_eq _

theorem mem_take_iff {r : α → α → Prop} [DecidableRel r] (hr : ∀ a b, r a b → ¬ r b a)
    {l : List α} (hl : l.Pairwise r) {a : α} (ha : a ∈ l) (k : ℕ) :
    a ∈ l.take k ↔ place r l a < k := by
  induction l generalizing k with
  | nil => cases ha
  | cons x l ih =>
      obtain ⟨hx, hl⟩ := List.pairwise_cons.mp hl
      have hirr : ∀ b, ¬ r b b := fun b h => hr b b h h
      cases k with
      | zero => simp
      | succ k =>
          rcases List.mem_cons.mp ha with rfl | hmem
          · have hplace : place r (a :: l) a = 0 := by
              rw [place, List.countP_eq_zero]
              intro b hb
              rcases List.mem_cons.mp hb with rfl | hb
              · simp [hirr]
              · simp [hr _ _ (hx b hb)]
            simp [hplace]
          · have hne : a ≠ x := fun h => hirr a (h ▸ hx a hmem)
            have hplace : place r (x :: l) a = place r l a + 1 := by
              simp [place, hx a hmem]
            rw [List.take_succ_cons, List.mem_cons, ih hl hmem, hplace]
            simp [hne]

/-- What is not among the first `k` is among the rest. -/
theorem mem_drop_of_not_mem_take {l : List α} {a : α} {k : ℕ} (ha : a ∈ l)
    (h : a ∉ l.take k) : a ∈ l.drop k := by
  rw [← List.take_append_drop k l, List.mem_append] at ha
  exact ha.resolve_left h

/-- What stands before a member of the first `k` is among them. -/
theorem sublist_take_of_mem {l : List α} (hl : l.Nodup) {a b : α} {k : ℕ} (h : [a, b].Sublist l)
    (hb : b ∈ l.take k) : [a, b].Sublist (l.take k) := by
  have hsplit : [a, b].Sublist (l.take k ++ l.drop k) := by rwa [List.take_append_drop]
  have hnot : b ∉ l.drop k := List.disjoint_take_drop hl (le_refl k) hb
  obtain ⟨l₁, l₂, heq, h₁, h₂⟩ := List.sublist_append_iff.mp hsplit
  rcases List.eq_nil_or_concat l₂ with rfl | ⟨init, last, rfl⟩
  · rw [heq, List.append_nil]
    exact h₁
  · have hlast : last = b := by
      have := congrArg List.getLast? heq
      simpa using this.symm
    rw [hlast] at h₂
    exact absurd (h₂.subset (by simp)) hnot

theorem length_filter_take_iff (p : α → Bool) {l : List α} (hl : l.Nodup) (k : ℕ) :
    ((l.take k).filter p).length = min k (l.filter p).length ↔
      ∀ a ∈ l, ∀ b ∈ l, p a = false → p b = true → a ∈ l.take k → b ∈ l.take k := by
  have hsplit : (l.filter p).length = ((l.take k).filter p).length +
      ((l.drop k).filter p).length := by
    rw [← List.length_append, ← List.filter_append, List.take_append_drop]
  have hle : ((l.take k).filter p).length ≤ (l.take k).length := List.length_filter_le p _
  have htake : (l.take k).length = min k l.length := List.length_take
  have hdisjoint := List.disjoint_take_drop hl (le_refl k)
  constructor
  · intro heq a ha b hb hpa hpb htk
    by_contra hnot
    have hdrop : 0 < ((l.drop k).filter p).length :=
      List.length_pos_of_mem (List.mem_filter.mpr ⟨mem_drop_of_not_mem_take hb hnot, hpb⟩)
    have hfull : ((l.take k).filter p).length = (l.take k).length := by omega
    have hall := List.filter_eq_self.mp (List.filter_sublist.eq_of_length hfull) a htk
    rw [hpa] at hall
    cases hall
  · intro h
    by_cases hstale : ∃ a ∈ l.take k, p a = false
    · obtain ⟨a, hatk, hpa⟩ := hstale
      have hnone : (l.drop k).filter p = [] := by
        rw [List.filter_eq_nil_iff]
        intro b hb hpb
        exact hdisjoint (h a (List.mem_of_mem_take hatk) b (List.mem_of_mem_drop hb) hpa
          hpb hatk) hb
      rw [hnone, List.length_nil, Nat.add_zero] at hsplit
      omega
    · have hall : (l.take k).filter p = l.take k := by
        rw [List.filter_eq_self]
        intro a ha
        by_contra hpa
        exact hstale ⟨a, ha, by simpa using hpa⟩
      rw [hall] at hsplit ⊢
      by_cases hk : k ≤ l.length
      · omega
      · rw [List.drop_eq_nil_of_le (by omega), List.filter_nil, List.length_nil,
          Nat.add_zero] at hsplit
        omega

/-! ## Stability -/

section

variable [DecidableEq α] [LinearOrder β]

/-- `a` has the smaller key, or the same and is the first of the two in `l`. -/
def Ahead (key : α → β) (l : List α) (a b : α) : Prop :=
  key a < key b ∨ key a = key b ∧ l.idxOf a < l.idxOf b

instance (key : α → β) (l : List α) : DecidableRel (Ahead key l) :=
  fun _ _ => inferInstanceAs (Decidable (_ ∨ _))

theorem Ahead.asymm {key : α → β} {l : List α} (a b : α) (h : Ahead key l a b) :
    ¬ Ahead key l b a := by
  intro h'
  rcases h with h | ⟨heq, h⟩
  · rcases h' with h' | ⟨heq', -⟩
    · exact lt_asymm h h'
    · exact absurd heq' (ne_of_gt h)
  · rcases h' with h' | ⟨-, h'⟩
    · exact absurd heq (ne_of_gt h')
    · omega

theorem idxOf_lt_of_sublist {l : List α} (hl : l.Nodup) {a b : α} (h : [a, b].Sublist l) :
    l.idxOf a < l.idxOf b := by
  induction l with
  | nil => cases h
  | cons x l ih =>
      obtain ⟨hx, hnd⟩ := List.nodup_cons.mp hl
      cases h with
      | cons _ h =>
          have hmem : a ∈ l ∧ b ∈ l := ⟨h.subset (by simp), h.subset (by simp)⟩
          have hne : x ≠ a ∧ x ≠ b := ⟨fun e => hx (e ▸ hmem.1), fun e => hx (e ▸ hmem.2)⟩
          rw [List.idxOf_cons_ne _ hne.1, List.idxOf_cons_ne _ hne.2]
          exact Nat.succ_lt_succ (ih hnd h)
      | cons_cons _ h =>
          have hb : b ∈ l := h.subset (by simp)
          have hne : a ≠ b := fun e => hx (e ▸ hb)
          rw [List.idxOf_cons_self, List.idxOf_cons_ne _ hne]
          omega

theorem sublist_of_idxOf_lt {l : List α} {a b : α} (ha : a ∈ l) (hb : b ∈ l)
    (h : l.idxOf a < l.idxOf b) : [a, b].Sublist l := by
  induction l with
  | nil => cases ha
  | cons x l ih =>
      by_cases hxa : x = a
      · subst hxa
        have hne : b ≠ x := by
          rintro rfl
          exact absurd h (lt_irrefl _)
        exact (List.singleton_sublist.mpr (List.mem_of_ne_of_mem hne hb)).cons_cons x
      · have hxb : x ≠ b := by
          rintro rfl
          rw [List.idxOf_cons_self] at h
          omega
        rw [List.idxOf_cons_ne _ hxa, List.idxOf_cons_ne _ hxb] at h
        exact (ih (List.mem_of_ne_of_mem (Ne.symm hxa) ha)
          (List.mem_of_ne_of_mem (Ne.symm hxb) hb) (Nat.lt_of_succ_lt_succ h)).cons x

/-- A list that is in the order of its keys already has each member ahead of those after
it. -/
theorem pairwise_ahead_of_sorted {key : α → β} {l : List α} (hl : l.Nodup)
    (h : l.Pairwise fun a b => key a ≤ key b) : l.Pairwise (Ahead key l) := by
  rw [List.pairwise_iff_forall_sublist] at h ⊢
  intro a b hab
  rcases lt_or_eq_of_le (h hab) with hlt | heq
  · exact Or.inl hlt
  · exact Or.inr ⟨heq, idxOf_lt_of_sublist hl hab⟩

/-- Sorting puts the smaller key first. -/
theorem sublist_sortBy {key : α → β} {l : List α} {a b : α} (ha : a ∈ l) (hb : b ∈ l)
    (h : key a < key b) : [a, b].Sublist (sortBy key l) := by
  have hne : a ≠ b := by
    rintro rfl
    exact lt_irrefl _ h
  have ha' : a ∈ sortBy key l := mem_sortBy.mpr ha
  have hb' : b ∈ sortBy key l := mem_sortBy.mpr hb
  have hidx : (sortBy key l).idxOf a ≠ (sortBy key l).idxOf b := fun e =>
    hne ((List.idxOf_inj ha').mp e)
  rcases Nat.lt_or_gt_of_ne hidx with hlt | hgt
  · exact sublist_of_idxOf_lt ha' hb' hlt
  · have hle := List.pairwise_iff_forall_sublist.mp (sortBy_pairwise key l)
      (sublist_of_idxOf_lt hb' ha' hgt)
    exact absurd h (not_lt_of_ge hle)

theorem sortBy_pairwise_ahead (key : α → β) {l : List α} (hl : l.Nodup) :
    (sortBy key l).Pairwise (Ahead key l) := by
  have hnd : (sortBy key l).Nodup := (sortBy_perm key l).nodup_iff.mpr hl
  have hsorted := sortBy_pairwise key l
  rw [List.pairwise_iff_forall_sublist] at hsorted ⊢
  intro a b hab
  rcases lt_or_eq_of_le (hsorted hab) with hlt | heq
  · exact Or.inl hlt
  · refine Or.inr ⟨heq, ?_⟩
    have ha : a ∈ l := mem_sortBy.mp (hab.subset (by simp))
    have hb : b ∈ l := mem_sortBy.mp (hab.subset (by simp))
    have hne : a ≠ b := by
      rintro rfl
      exact absurd (hnd.sublist hab) (by simp)
    by_contra hnot
    have hlt : l.idxOf b < l.idxOf a := by
      have hidx : l.idxOf a ≠ l.idxOf b := fun e => hne ((List.idxOf_inj ha).mp e)
      omega
    have hba := sublist_of_idxOf_lt hb ha hlt
    have hkept : [b, a].Sublist (sortBy key l) :=
      List.pair_sublist_insertionSort (le_of_eq heq.symm) hba
    have hab' := idxOf_lt_of_sublist hnd hab
    have hba' := idxOf_lt_of_sublist hnd hkept
    omega

end

end RepoMesh
