import Mathlib.Data.List.Nodup
import Mathlib.Data.List.Perm.Subperm
import RepoMesh.Sorting

/-!
# Pages of a listing

`page key limit offset l` is `ORDER BY key LIMIT limit OFFSET offset`. Where the keys tell
the members apart, a member stands at the rank of its key, and a page holds the ranks of
its window (`mem_page_iff`). A listing that grows pushes ranks up, never down. So whoever
reads one page after the other until one is the last meets everything that was there at the
start (`paging_meets`), and the pages of one listing are the listing (`pages_of_one`).
-/

namespace RepoMesh

variable {α β : Type*} [LinearOrder β]

def page (key : α → β) (limit offset : ℕ) (l : List α) : List α :=
  ((sortBy key l).drop offset).take limit

/-- How many keys come before `k`. -/
def rank (key : α → β) (l : List α) (k : β) : ℕ :=
  l.countP fun a => key a < k

section

variable {key : α → β} {l l' : List α} {k : β} {limit offset : ℕ}

theorem rank_perm (h : l.Perm l') : rank key l k = rank key l' k :=
  h.countP_eq _

/-- In a sorted list the rank is the index. -/
theorem rank_getElem (h : l.Pairwise fun a b => key a < key b) {i : ℕ} (hi : i < l.length) :
    rank key l (key l[i]) = i := by
  induction l generalizing i with
  | nil => simp at hi
  | cons a l ih =>
      obtain ⟨hfirst, hrest⟩ := List.pairwise_cons.mp h
      cases i with
      | zero =>
          refine List.countP_eq_zero.mpr fun b hb => ?_
          rw [List.getElem_cons_zero, decide_eq_true_eq, not_lt]
          rcases List.mem_cons.mp hb with rfl | hb
          · exact le_refl _
          · exact le_of_lt (hfirst b hb)
      | succ i =>
          have hi' : i < l.length := by simpa using hi
          have hlt : key a < key l[i] := hfirst _ (List.getElem_mem hi')
          rw [List.getElem_cons_succ, rank, List.countP_cons, if_pos (decide_eq_true hlt)]
          exact congrArg (· + 1) (ih hrest hi')

theorem pairwise_sortBy_of_nodup (h : (l.map key).Nodup) :
    (sortBy key l).Pairwise fun a b => key a < key b := by
  have hnodup : ((sortBy key l).map key).Nodup := ((sortBy_perm key l).map key).nodup_iff.mpr h
  have hne := List.pairwise_map.mp hnodup
  exact (sortBy_pairwise key l).imp₂ (fun _ _ hle hne => lt_of_le_of_ne hle hne) hne

/-- What sorts before a member of the first page is on it. -/
theorem mem_take_sortBy_of_lt {n : ℕ} {a b : α} (ha : a ∈ l) (hb : b ∈ (sortBy key l).take n)
    (hlt : key a < key b) : a ∈ (sortBy key l).take n := by
  have hsorted := sortBy_pairwise key l
  have ha : a ∈ sortBy key l := mem_sortBy.mpr ha
  rw [← List.take_append_drop n (sortBy key l)] at ha hsorted
  rcases List.mem_append.mp ha with hin | hout
  · exact hin
  · exact absurd ((List.pairwise_append.mp hsorted).2.2 b hb a hout) (not_le.mpr hlt)

/-- A page holds the members whose rank is in its window. -/
theorem mem_page_iff (h : (l.map key).Nodup) {a : α} :
    a ∈ page key limit offset l ↔
      a ∈ l ∧ offset ≤ rank key l (key a) ∧ rank key l (key a) < offset + limit := by
  have hsorted := pairwise_sortBy_of_nodup h
  have hrank : ∀ {i} (hi : i < (sortBy key l).length), rank key l (key (sortBy key l)[i]) = i := by
    intro i hi
    rw [← rank_perm (sortBy_perm key l)]
    exact rank_getElem hsorted hi
  rw [page, List.mem_take_iff_getElem]
  constructor
  · rintro ⟨i, hi, rfl⟩
    rw [List.length_drop] at hi
    rw [List.getElem_drop, hrank]
    refine ⟨mem_sortBy.mp (List.getElem_mem _), ?_, ?_⟩ <;> omega
  · rintro ⟨ha, hfrom, hto⟩
    have hmem : a ∈ sortBy key l := mem_sortBy.mpr ha
    obtain ⟨i, hi, rfl⟩ := List.getElem_of_mem hmem
    rw [hrank hi] at hfrom hto
    refine ⟨i - offset, ?_, ?_⟩
    · rw [List.length_drop]
      omega
    · rw [List.getElem_drop]
      congr 1
      omega

/-- More keys, higher ranks. -/
theorem rank_le (hnodup : (l.map key).Nodup) (h : ∀ x ∈ l.map key, x ∈ l'.map key) :
    rank key l k ≤ rank key l' k := by
  have hmap : ∀ l : List α, rank key l k = (l.map key).countP (· < k) := by
    intro l
    rw [rank, List.countP_map]
    rfl
  rw [hmap, hmap]
  exact (List.subperm_of_subset hnodup h).countP_le _

theorem rank_lt_length (h : k ∈ l.map key) : rank key l k < l.length := by
  obtain ⟨a, ha, rfl⟩ := List.mem_map.mp h
  refine lt_of_le_of_ne List.countP_le_length fun heq => ?_
  have hlt := List.countP_eq_length.mp heq a ha
  exact absurd (of_decide_eq_true hlt) (lt_irrefl _)

end

/-- Page after page of a listing that grows meets what was there at the start. -/
theorem paging_meets {key : α → β} {ls : ℕ → List α} (hkeys : ∀ i, ((ls i).map key).Nodup)
    (hgrow : ∀ i, ∀ k ∈ (ls i).map key, k ∈ (ls (i + 1)).map key) {limit n : ℕ}
    (hlast : (ls n).length ≤ (n + 1) * limit) {k : β} (hk : k ∈ (ls 0).map key) :
    ∃ i ≤ n, ∃ a ∈ page key limit (i * limit) (ls i), key a = k := by
  have hmem : ∀ i, k ∈ (ls i).map key := by
    intro i
    induction i with
    | zero => exact hk
    | succ i ih => exact hgrow i k ih
  have hends : ∃ i, rank key (ls i) k < (i + 1) * limit :=
    ⟨n, lt_of_lt_of_le (rank_lt_length (hmem n)) hlast⟩
  classical
  have hfirst := Nat.find_spec hends
  have hle : Nat.find hends ≤ n :=
    Nat.find_min' hends (lt_of_lt_of_le (rank_lt_length (hmem n)) hlast)
  have hfrom : Nat.find hends * limit ≤ rank key (ls (Nat.find hends)) k := by
    cases hi : Nat.find hends with
    | zero => omega
    | succ i =>
        have hbefore : ¬ rank key (ls i) k < (i + 1) * limit :=
          Nat.find_min hends (by omega)
        exact le_trans (not_lt.mp hbefore) (rank_le (hkeys i) (hgrow i))
  obtain ⟨a, ha, hak⟩ := List.mem_map.mp (hmem (Nat.find hends))
  refine ⟨Nat.find hends, hle, a, (mem_page_iff (hkeys _)).mpr ⟨ha, ?_, ?_⟩, hak⟩
  · rw [hak]
    exact hfrom
  · rw [hak]
    rw [Nat.add_mul, Nat.one_mul] at hfirst
    exact hfirst

/-- The pages of one listing, one after the other, are the listing. -/
theorem pages_of_one (key : α → β) (l : List α) {limit n : ℕ} (h : l.length ≤ n * limit) :
    (List.range n).flatMap (fun i => page key limit (i * limit) l) = sortBy key l := by
  have htake : ∀ n, (List.range n).flatMap (fun i => page key limit (i * limit) l) =
      (sortBy key l).take (n * limit) := by
    intro n
    induction n with
    | zero => simp
    | succ n ih =>
        rw [List.range_succ, List.flatMap_append, ih, Nat.add_mul, Nat.one_mul, List.take_add]
        simp [page]
  rw [htake]
  refine List.take_of_length_le ?_
  rw [(sortBy_perm key l).length_eq]
  exact h

end RepoMesh
