import RepoMesh.RankFusion
import RepoMesh.Retrieval
import Mathlib.Algebra.Field.Rat
import Mathlib.Algebra.Order.Field.Basic
import Mathlib.Tactic.Positivity

/-!
# Reciprocal rank fusion

The dictionary that `reciprocal_rank_fusion` fills in two loops has the ids that occur
in some ranking, each with the sum of the weights of its places
(`score?_reciprocalRankFusion`), so the laws of `RankFusion` are laws of it, and of the
hybrid search that sorts by it. The sums here are exact.
-/

namespace RepoMesh

/-- The weight of the place `i`, which `enumerate(ranking, start=1)` counts as `i + 1`. -/
def reciprocalRank (k i : ℕ) : ℚ := 1 / ((k + (1 + i) : ℕ) : ℚ)

theorem reciprocalRank_pos (k i : ℕ) : 0 < reciprocalRank k i := by
  rw [reciprocalRank]
  positivity

theorem reciprocalRank_strictAnti (k : ℕ) : StrictAnti (reciprocalRank k) := by
  intro i j hij
  have hlt : ((k + (1 + i) : ℕ) : ℚ) < ((k + (1 + j) : ℕ) : ℚ) := by
    exact_mod_cast Nat.add_lt_add_left (Nat.add_lt_add_left hij 1) k
  exact one_div_lt_one_div_of_lt (by positivity) hlt

/-! ## The two loops -/

theorem Scores.score?_upsert (scores : Scores ℚ) (item : Uuid × ℚ) (id : Uuid) :
    Scores.score? (scores.upsert item) id =
      if id = item.1 then some item.2 else scores.score? id := by
  rw [Scores.score?, Table.get?_upsert]
  by_cases h : id = item.1
  · rw [if_pos h.symm, if_pos h]
    rfl
  · rw [if_neg (Ne.symm h), if_neg h]
    rfl

theorem Scores.mem_ids {scores : Scores ℚ} {id : Uuid} :
    id ∈ scores.ids ↔ (scores.score? id).isSome = true := by
  rw [Scores.ids, Scores.score?, Option.isSome_map]
  exact Table.mem_keys

/-- A turn of the outer loop adds the weights of one ranking, whose places are counted
from `n`. -/
theorem getD_score?_ranking (k : ℕ) {ranking : List (Uuid × ℚ)}
    (hdistinct : (ranking.map Prod.fst).Nodup) (n : ℕ) (scores : Scores ℚ) (id : Uuid) :
    (Scores.score? ((ranking.zipIdx n).foldl
        (fun scores item =>
          scores.upsert (item.1.1, (scores.score? item.1.1).getD 0 + 1 / ((k + item.2 : ℕ) : ℚ)))
        scores) id).getD 0 =
      (scores.score? id).getD 0 +
        placeWeight (fun i => 1 / ((k + (n + i) : ℕ) : ℚ)) (ranking.map Prod.fst) id := by
  induction ranking generalizing n scores with
  | nil => simp [placeWeight]
  | cons item ranking ih =>
      rw [List.map_cons, List.nodup_cons] at hdistinct
      obtain ⟨hnot, hdistinct⟩ := hdistinct
      rw [List.zipIdx_cons, List.foldl_cons, ih hdistinct, Scores.score?_upsert, List.map_cons,
        placeWeight_cons]
      by_cases hid : id = item.1
      · rw [if_pos hid, if_pos hid, hid, placeWeight_of_not_mem hnot]
        simp
      · rw [if_neg hid, if_neg hid]
        have hshift : ∀ i, n + 1 + i = n + (i + 1) := fun i => by omega
        simp only [hshift]

theorem getD_score?_reciprocalRankFusion (k : ℕ) {rankings : List (List (Uuid × ℚ))}
    (hdistinct : ∀ ranking ∈ rankings, (ranking.map Prod.fst).Nodup) (id : Uuid) :
    ((reciprocalRankFusion rankings k).score? id).getD 0 =
      fused (reciprocalRank k) (rankings.map (List.map Prod.fst)) id := by
  suffices hall : ∀ scores : Scores ℚ, (Scores.score? (rankings.foldl
      (fun scores ranking =>
        (ranking.zipIdx 1).foldl
          (fun scores item =>
            scores.upsert (item.1.1, (scores.score? item.1.1).getD 0 + 1 / ((k + item.2 : ℕ) : ℚ)))
          scores)
      scores) id).getD 0 = (scores.score? id).getD 0 +
        fused (reciprocalRank k) (rankings.map (List.map Prod.fst)) id by
    exact (hall (Table.empty Prod.fst)).trans (zero_add _)
  induction rankings with
  | nil =>
      intro scores
      simp
  | cons ranking rankings ih =>
      intro scores
      have hfirst := hdistinct ranking List.mem_cons_self
      have hrest := ih fun ranking h => hdistinct ranking (List.mem_cons_of_mem _ h)
      rw [List.foldl_cons, hrest, getD_score?_ranking k hfirst, List.map_cons, fused_cons,
        add_assoc]
      rfl

/-- What the fusion gives: the ids of all rankings, with the fused weights of their places. -/
theorem score?_reciprocalRankFusion (k : ℕ) {rankings : List (List (Uuid × ℚ))}
    (hdistinct : ∀ ranking ∈ rankings, (ranking.map Prod.fst).Nodup) (id : Uuid) :
    (reciprocalRankFusion rankings k).score? id =
      if ∃ ranking ∈ rankings, id ∈ ranking.map Prod.fst then
        some (fused (reciprocalRank k) (rankings.map (List.map Prod.fst)) id)
      else none := by
  have hvalue := getD_score?_reciprocalRankFusion k hdistinct id
  have hmem : ((reciprocalRankFusion rankings k).score? id).isSome = true ↔
      ∃ ranking ∈ rankings, id ∈ ranking.map Prod.fst := by
    rw [← Scores.mem_ids, ids_reciprocalRankFusion, List.mem_eraseDups, List.map_flatten,
      List.mem_flatten]
    simp only [List.mem_map, exists_exists_and_eq_and]
  cases hscore : (reciprocalRankFusion rankings k).score? id with
  | none =>
      rw [hscore] at hmem
      rw [if_neg fun h => absurd (hmem.mpr h) (by simp)]
  | some score =>
      rw [hscore] at hmem hvalue
      rw [if_pos (hmem.mp rfl), ← hvalue, Option.getD_some]

/-! ## The laws -/

section

variable {k : ℕ} {rankings : List (List (Uuid × ℚ))}

/-- An id that occurs has its fused weights. -/
theorem score?_of_mem (hdistinct : ∀ ranking ∈ rankings, (ranking.map Prod.fst).Nodup) {id : Uuid}
    (h : ∃ ranking ∈ rankings, id ∈ ranking.map Prod.fst) :
    (reciprocalRankFusion rankings k).score? id =
      some (fused (reciprocalRank k) (rankings.map (List.map Prod.fst)) id) := by
  rw [score?_reciprocalRankFusion k hdistinct, if_pos h]

/-- The order of the rankings does not matter. -/
theorem score?_perm (hdistinct : ∀ ranking ∈ rankings, (ranking.map Prod.fst).Nodup)
    {rankings' : List (List (Uuid × ℚ))} (hperm : rankings.Perm rankings') (id : Uuid) :
    (reciprocalRankFusion rankings' k).score? id =
      (reciprocalRankFusion rankings k).score? id := by
  rw [score?_reciprocalRankFusion k hdistinct, score?_reciprocalRankFusion k fun ranking h =>
    hdistinct ranking (hperm.mem_iff.mpr h), fused_perm _ (hperm.map (List.map Prod.fst))]
  simp only [hperm.mem_iff]

/-- What dominates a ranked id has a higher score than it. -/
theorem score?_lt (hdistinct : ∀ ranking ∈ rankings, (ranking.map Prod.fst).Nodup) {a b : Uuid}
    (hdom : Dominates (rankings.map (List.map Prod.fst)) a b)
    (hb : ∃ ranking ∈ rankings, b ∈ ranking.map Prod.fst) :
    ∃ s t, (reciprocalRankFusion rankings k).score? a = some s ∧
      (reciprocalRankFusion rankings k).score? b = some t ∧ t < s := by
  obtain ⟨ranking, hranking, hmem⟩ := hb
  have hids : ranking.map Prod.fst ∈ rankings.map (List.map Prod.fst) :=
    List.mem_map_of_mem hranking
  have ha := (hdom _ hids hmem).1
  exact ⟨_, _, score?_of_mem hdistinct ⟨ranking, hranking, ha⟩,
    score?_of_mem hdistinct ⟨ranking, hranking, hmem⟩,
    fused_lt (reciprocalRank_strictAnti k) (reciprocalRank_pos k) hdom ⟨_, hids, hmem⟩⟩

/-- `sorted(combined, key=combined.get, reverse=True)` puts it first. -/
theorem sublist_sorted_fusion
    (hdistinct : ∀ ranking ∈ rankings, (ranking.map Prod.fst).Nodup) {a b : Uuid}
    (hdom : Dominates (rankings.map (List.map Prod.fst)) a b)
    (hb : ∃ ranking ∈ rankings, b ∈ ranking.map Prod.fst) :
    [a, b].Sublist (sortBy
      (fun id => OrderDual.toDual (((reciprocalRankFusion rankings k).score? id).getD 0))
      (reciprocalRankFusion rankings k).ids) := by
  obtain ⟨s, t, hs, ht, hlt⟩ := score?_lt (k := k) hdistinct hdom hb
  have ha : a ∈ (reciprocalRankFusion rankings k).ids := by
    rw [Scores.mem_ids, hs]
    rfl
  have hb : b ∈ (reciprocalRankFusion rankings k).ids := by
    rw [Scores.mem_ids, ht]
    rfl
  refine sublist_sortBy ha hb ?_
  rw [hs, ht, OrderDual.toDual_lt_toDual]
  exact hlt

/-- A longer ranking keeps the scores of its ids and lowers none. -/
theorem score?_extended {before after : List (List (Uuid × ℚ))} {ranking extra : List (Uuid × ℚ)}
    (hdistinct : ∀ r ∈ before ++ ranking :: after, (r.map Prod.fst).Nodup)
    (hextra : ((ranking ++ extra).map Prod.fst).Nodup) :
    (∀ id ∈ ranking.map Prod.fst,
      (reciprocalRankFusion (before ++ (ranking ++ extra) :: after) k).score? id =
        (reciprocalRankFusion (before ++ ranking :: after) k).score? id) ∧
    ∀ id s, (reciprocalRankFusion (before ++ ranking :: after) k).score? id = some s →
      ∃ t, (reciprocalRankFusion (before ++ (ranking ++ extra) :: after) k).score? id = some t ∧
        s ≤ t := by
  have hdistinct' : ∀ r ∈ before ++ (ranking ++ extra) :: after, (r.map Prod.fst).Nodup := by
    intro r hr
    rcases List.mem_append.mp hr with hr | hr
    · exact hdistinct r (List.mem_append_left _ hr)
    · rcases List.mem_cons.mp hr with rfl | hr
      · exact hextra
      · exact hdistinct r (List.mem_append_right _ (List.mem_cons_of_mem _ hr))
  have hkeeps : ∀ id, (∃ r ∈ before ++ ranking :: after, id ∈ r.map Prod.fst) →
      ∃ r ∈ before ++ (ranking ++ extra) :: after, id ∈ r.map Prod.fst := by
    rintro id ⟨r, hr, hid⟩
    rcases List.mem_append.mp hr with hr | hr
    · exact ⟨r, List.mem_append_left _ hr, hid⟩
    · rcases List.mem_cons.mp hr with rfl | hr
      · refine ⟨r ++ extra, List.mem_append_right _ List.mem_cons_self, ?_⟩
        rw [List.map_append]
        exact List.mem_append_left _ hid
      · exact ⟨r, List.mem_append_right _ (List.mem_cons_of_mem _ hr), hid⟩
  constructor
  · intro id hid
    have hin : ∃ r ∈ before ++ ranking :: after, id ∈ r.map Prod.fst :=
      ⟨ranking, List.mem_append_right _ List.mem_cons_self, hid⟩
    rw [score?_of_mem hdistinct hin, score?_of_mem hdistinct' (hkeeps id hin)]
    simp only [List.map_append, List.map_cons]
    rw [fused_extended _ _ _ hid]
  · intro id s hs
    rw [score?_reciprocalRankFusion k hdistinct] at hs
    split at hs
    · rename_i hin
      obtain rfl := Option.some.inj hs
      refine ⟨_, score?_of_mem hdistinct' (hkeeps id hin), ?_⟩
      simp only [List.map_append, List.map_cons]
      exact fused_le_extended (reciprocalRank_pos k) _ _ _ _ id
    · cases hs

end

/-! ## Hybrid search -/

section

variable {k topK : ℕ} {db : IndexDb} {hits : Hits ℚ} {a b : Uuid}

/-- What dominates a candidate is ranked before it. -/
theorem sublist_rankedIds
    (hdom : Dominates [(hits.lexical .hybrid).map Prod.fst, (hits.vector .hybrid).map Prod.fst] a b)
    (hb : b ∈ hits.candidates .hybrid) : [a, b].Sublist (hits.rankedIds .hybrid k) := by
  have hdistinct : ∀ ranking ∈ [hits.lexical .hybrid, hits.vector .hybrid],
      (ranking.map Prod.fst).Nodup := by
    intro ranking hranking
    rcases List.mem_pair.mp hranking with rfl | rfl
    · exact hits.lexical_ids_nodup .hybrid
    · exact hits.vector_ids_nodup .hybrid
  have hin : ∃ ranking ∈ [hits.lexical .hybrid, hits.vector .hybrid], b ∈ ranking.map Prod.fst := by
    rw [Hits.candidates, List.mem_eraseDups, List.map_append, List.mem_append] at hb
    rcases hb with hb | hb
    · exact ⟨_, by simp, hb⟩
    · exact ⟨_, by simp, hb⟩
  exact sublist_sorted_fusion hdistinct hdom hin

/-- If it has a chunk, it is listed before every result that it dominates. -/
theorem sublist_search (h : [a, b].Sublist (hits.rankedIds .hybrid k)) (ha : db.hasChunk a = true)
    (hb : b ∈ (search db hits .hybrid topK k).map (·.chunkId)) :
    [a, b].Sublist ((search db hits .hybrid topK k).map (·.chunkId)) := by
  rw [map_chunkId_search] at hb ⊢
  obtain ⟨htake, hlive⟩ := List.mem_filter.mp hb
  have hnd : (hits.rankedIds .hybrid k).Nodup :=
    (hits.rankedIds_perm .hybrid k).nodup_iff.mpr (hits.nodup_candidates .hybrid)
  have hfirst := (sublist_take_of_mem hnd h htake).filter db.hasChunk
  rwa [List.filter_cons_of_pos ha, List.filter_cons_of_pos hlive, List.filter_nil] at hfirst

end

/-- Reciprocal rank fusion of rankings without repeated ids. The order of the rankings does
not matter; an id that is ahead of another in every ranking of the other scores higher, and
hybrid search lists it first; and a ranking that grows at its end keeps the scores of its ids
and lowers none. -/
theorem fusion_order_free_and_dominant (k : ℕ) {rankings : List (List (Uuid × ℚ))}
    (hdistinct : ∀ ranking ∈ rankings, (ranking.map Prod.fst).Nodup) :
    (∀ rankings', rankings.Perm rankings' → ∀ id,
      (reciprocalRankFusion rankings' k).score? id =
        (reciprocalRankFusion rankings k).score? id) ∧
    (∀ a b, Dominates (rankings.map (List.map Prod.fst)) a b →
      (∃ ranking ∈ rankings, b ∈ ranking.map Prod.fst) →
      (∃ s t, (reciprocalRankFusion rankings k).score? a = some s ∧
        (reciprocalRankFusion rankings k).score? b = some t ∧ t < s) ∧
      [a, b].Sublist (sortBy
        (fun id => OrderDual.toDual (((reciprocalRankFusion rankings k).score? id).getD 0))
        (reciprocalRankFusion rankings k).ids)) ∧
    (∀ (db : IndexDb) (hits : Hits ℚ) (topK : ℕ) (a b : Uuid),
      Dominates [(hits.lexical .hybrid).map Prod.fst, (hits.vector .hybrid).map Prod.fst] a b →
      b ∈ hits.candidates .hybrid →
      [a, b].Sublist (hits.rankedIds .hybrid k) ∧
      (db.hasChunk a = true → b ∈ (search db hits .hybrid topK k).map (·.chunkId) →
        [a, b].Sublist ((search db hits .hybrid topK k).map (·.chunkId)))) ∧
    ∀ before ranking after extra, rankings = before ++ ranking :: after →
      ((ranking ++ extra).map Prod.fst).Nodup →
      (∀ id ∈ ranking.map Prod.fst,
        (reciprocalRankFusion (before ++ (ranking ++ extra) :: after) k).score? id =
          (reciprocalRankFusion rankings k).score? id) ∧
      ∀ id s, (reciprocalRankFusion rankings k).score? id = some s →
        ∃ t, (reciprocalRankFusion (before ++ (ranking ++ extra) :: after) k).score? id = some t ∧
          s ≤ t := by
  refine ⟨fun rankings' hperm id => score?_perm hdistinct hperm id, fun a b hdom hb => ?_,
    fun db hits topK a b hdom hb => ?_, ?_⟩
  · exact ⟨score?_lt hdistinct hdom hb, sublist_sorted_fusion hdistinct hdom hb⟩
  · have hranked := sublist_rankedIds (k := k) hdom hb
    exact ⟨hranked, fun ha hlisted => sublist_search hranked ha hlisted⟩
  · rintro before ranking after extra rfl hextra
    exact score?_extended hdistinct hextra

/-- A lexical ranking of `a` and `b`, and a vector ranking of `a` and `c`. -/
def twoRankings : List (List (Uuid × ℚ)) :=
  [[(⟨"a", rfl⟩, 1), (⟨"b", rfl⟩, 1 / 2)], [(⟨"a", rfl⟩, 1), (⟨"c", rfl⟩, 9 / 10)]]

/-- `a` is ahead of `b`, whichever ranking is read first, and `d` behind `b` changes nothing
for either. -/
theorem fusion_order_free_and_dominant_two :
    (reciprocalRankFusion twoRankings 60).score? ⟨"a", rfl⟩ = some (2 / 61) ∧
    (reciprocalRankFusion twoRankings.reverse 60).score? ⟨"b", rfl⟩ =
      (reciprocalRankFusion twoRankings 60).score? ⟨"b", rfl⟩ ∧
    (∃ s t, (reciprocalRankFusion twoRankings 60).score? ⟨"a", rfl⟩ = some s ∧
      (reciprocalRankFusion twoRankings 60).score? ⟨"b", rfl⟩ = some t ∧ t < s) ∧
    [⟨"b0", rfl⟩, ⟨"b1", rfl⟩].Sublist (deferredHits.rankedIds .hybrid 60) ∧
    (reciprocalRankFusion [[(⟨"a", rfl⟩, 1), (⟨"b", rfl⟩, 1 / 2), (⟨"d", rfl⟩, 1 / 4)],
        [(⟨"a", rfl⟩, 1), (⟨"c", rfl⟩, 9 / 10)]] 60).score? ⟨"b", rfl⟩ =
      (reciprocalRankFusion twoRankings 60).score? ⟨"b", rfl⟩ := by
  obtain ⟨hperm, hdominant, hhybrid, hextended⟩ :=
    fusion_order_free_and_dominant 60 (show ∀ ranking ∈ twoRankings, (ranking.map Prod.fst).Nodup by decide)
  refine ⟨by decide +kernel, hperm _ (List.reverse_perm _).symm _,
    (hdominant _ _ (by decide) ⟨_, List.mem_cons_self, by decide⟩).1,
    (hhybrid deferredDb deferredHits 1 _ _ (by decide) (by decide)).1, ?_⟩
  exact (hextended [] [(⟨"a", rfl⟩, 1), (⟨"b", rfl⟩, 1 / 2)] [[(⟨"a", rfl⟩, 1), (⟨"c", rfl⟩, 9 / 10)]]
    [(⟨"d", rfl⟩, 1 / 4)] rfl (by decide)).1 _ (by decide)

end RepoMesh
