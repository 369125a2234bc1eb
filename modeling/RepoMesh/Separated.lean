import Mathlib.Data.List.Basic
import Mathlib.Order.Lattice

/-!
# Pieces joined by a separator

A list of pieces none of which holds the separator `sep` is recovered from
`[sep].intercalate`, and is compared in two ways: piece by piece, and as the joined
list. The two comparisons differ exactly on a `Clash`: one side has more pieces
behind `a` where the other goes on with something below the separator.
-/

namespace RepoMesh

variable {α : Type*} {sep : α} {xs ys : List (List α)}

/-- No piece holds the separator. -/
def SepFree (sep : α) (xs : List (List α)) : Prop :=
  ∀ x ∈ xs, sep ∉ x

theorem SepFree.tail {x : List α} (h : SepFree sep (x :: xs)) : SepFree sep xs :=
  fun y hy => h y (List.mem_cons_of_mem _ hy)

/-- Pieces joined by a separator that none of them holds can be told apart again. -/
theorem SepFree.intercalate_inj [DecidableEq α] (hx : SepFree sep xs) (hy : SepFree sep ys)
    (hxs : xs ≠ []) (hys : ys ≠ []) (h : [sep].intercalate xs = [sep].intercalate ys) :
    xs = ys := by
  rw [← List.splitOn_intercalate sep hx hxs, h, List.splitOn_intercalate sep hy hys]

/-- The first separator can be found again. -/
theorem append_cons_inj_left {u u' v v' : List α} (hu : sep ∉ u) (hu' : sep ∉ u')
    (h : u ++ sep :: v = u' ++ sep :: v') : u = u' ∧ v = v' := by
  induction u generalizing u' with
  | nil =>
      cases u' with
      | nil => exact ⟨rfl, (List.cons.inj h).2⟩
      | cons a' u' => exact absurd ((List.cons.inj h).1 ▸ List.mem_cons_self) hu'
  | cons a u ih =>
      cases u' with
      | nil => exact absurd ((List.cons.inj h).1 ▸ List.mem_cons_self) hu
      | cons a' u' =>
          obtain ⟨rfl, hrest⟩ := List.cons.inj h
          obtain ⟨rfl, hv⟩ := ih (fun hm => hu (List.mem_cons_of_mem _ hm))
            (fun hm => hu' (List.mem_cons_of_mem _ hm)) hrest
          exact ⟨rfl, hv⟩

/-- And so can the last. -/
theorem append_cons_inj_right {u u' v v' : List α} (hv : sep ∉ v) (hv' : sep ∉ v')
    (h : u ++ sep :: v = u' ++ sep :: v') : u = u' ∧ v = v' := by
  have hrev : v.reverse ++ sep :: u.reverse = v'.reverse ++ sep :: u'.reverse := by
    simpa using congrArg List.reverse h
  obtain ⟨hvv, huu⟩ := append_cons_inj_left (by simpa using hv) (by simpa using hv') hrev
  exact ⟨List.reverse_injective huu, List.reverse_injective hvv⟩

theorem intercalate_cons_eq (sep : α) (x : List α) (xs : List (List α)) :
    ∃ t, [sep].intercalate (x :: xs) = x ++ t := by
  cases xs with
  | nil => exact ⟨[], by simp⟩
  | cons y xs =>
      exact ⟨sep :: [sep].intercalate (y :: xs),
        by simp [List.intercalate_cons_of_ne_nil (List.cons_ne_nil y xs)]⟩

theorem mem_intercalate {c : α} (h : c ∈ [sep].intercalate xs) : (∃ x ∈ xs, c ∈ x) ∨ c = sep := by
  induction xs with
  | nil => simp at h
  | cons x xs ih =>
      by_cases hxs : xs = []
      · rw [hxs, List.intercalate_singleton] at h
        exact Or.inl ⟨x, List.mem_cons_self, h⟩
      · rw [List.intercalate_cons_of_ne_nil hxs, List.append_assoc] at h
        rcases List.mem_append.mp h with hx | h
        · exact Or.inl ⟨x, List.mem_cons_self, hx⟩
        · rcases List.mem_cons.mp h with hc | h
          · exact Or.inr hc
          · exact (ih h).imp_left fun ⟨y, hy, hc⟩ => ⟨y, List.mem_cons_of_mem _ hy, hc⟩

theorem intercalate_cons_cons_eq (x : List α) (hxs : xs ≠ []) :
    [sep].intercalate (x :: xs) = x ++ sep :: [sep].intercalate xs := by
  simp [List.intercalate_cons_of_ne_nil hxs]

section

variable [LinearOrder α]

/-- Two lists in lexicographic order part at an element, or the first is a
prefix of the second. -/
theorem lt_cases {x y : List α} (h : x < y) :
    (∃ p c d u v, x = p ++ c :: u ∧ y = p ++ d :: v ∧ c < d) ∨ ∃ c w, y = x ++ c :: w := by
  induction h with
  | @nil c w => exact Or.inr ⟨c, w, rfl⟩
  | @cons a x y _ ih =>
      rcases ih with ⟨p, c, d, u, v, rfl, rfl, hcd⟩ | ⟨c, w, rfl⟩
      · exact Or.inl ⟨a :: p, c, d, u, v, rfl, rfl, hcd⟩
      · exact Or.inr ⟨c, w, rfl⟩
  | @rel c x d y hcd => exact Or.inl ⟨[], c, d, x, y, rfl, rfl, hcd⟩

theorem append_cons_lt {β : Type*} [LT β] {c d : β} (p u v : List β) (hcd : c < d) :
    p ++ c :: u < p ++ d :: v :=
  List.append_left_lt (List.Lex.rel hcd)

theorem lt_append_cons (x : List α) (c : α) (w : List α) : x < x ++ c :: w := by
  have h : x ++ [] < x ++ c :: w := List.append_left_lt (List.nil_lt_cons c w)
  rwa [List.append_nil] at h

/-- A piece of `xs` with more pieces behind it, where `ys` has that piece prolonged
by something below the separator. -/
def Clash (sep : α) (xs ys : List (List α)) : Prop :=
  ∃ pre a as c w bs,
    xs = pre ++ a :: as ∧ as ≠ [] ∧ ys = pre ++ (a ++ c :: w) :: bs ∧ c < sep

theorem Clash.cons {x : List α} (h : Clash sep xs ys) : Clash sep (x :: xs) (x :: ys) := by
  obtain ⟨pre, a, as, c, w, bs, rfl, has, rfl, hc⟩ := h
  exact ⟨x :: pre, a, as, c, w, bs, rfl, has, rfl, hc⟩

theorem Clash.lt (h : Clash sep xs ys) : xs < ys := by
  obtain ⟨pre, a, as, c, w, bs, rfl, -, rfl, -⟩ := h
  exact append_cons_lt pre as bs (lt_append_cons a c w)

/-- On a clash the joined lists compare the other way. -/
theorem Clash.intercalate_lt (h : Clash sep xs ys) :
    [sep].intercalate ys < [sep].intercalate xs := by
  obtain ⟨pre, a, as, c, w, bs, rfl, has, rfl, hc⟩ := h
  induction pre with
  | nil =>
      obtain ⟨t, ht⟩ := intercalate_cons_eq sep (a ++ c :: w) bs
      rw [List.nil_append, List.nil_append, ht, intercalate_cons_cons_eq a has,
        List.append_assoc, List.cons_append]
      exact append_cons_lt a _ _ hc
  | cons x pre ih =>
      rw [List.cons_append, List.cons_append, intercalate_cons_cons_eq x (by simp),
        intercalate_cons_cons_eq x (by simp)]
      exact List.append_left_lt (List.Lex.cons ih)

/-- Without a clash, the joined lists compare as the pieces do. -/
theorem intercalate_lt_of_lt (hy : SepFree sep ys) (hxs : xs ≠ []) (hlt : xs < ys)
    (hno : ¬ Clash sep xs ys) : [sep].intercalate xs < [sep].intercalate ys := by
  induction hlt with
  | nil => exact absurd rfl hxs
  | @cons x xs ys hlt ih =>
      have hys : ys ≠ [] := by
        rintro rfl
        exact List.not_lt_nil _ hlt
      rw [intercalate_cons_cons_eq x hys]
      by_cases hxs' : xs = []
      · rw [hxs', List.intercalate_singleton]
        exact lt_append_cons x _ _
      · rw [intercalate_cons_cons_eq x hxs']
        exact List.append_left_lt
          (List.Lex.cons (ih hy.tail hxs' fun h => hno h.cons))
  | @rel x xs y ys hlt =>
      obtain ⟨t, ht⟩ := intercalate_cons_eq sep y ys
      rcases lt_cases hlt with ⟨p, c, d, u, v, rfl, rfl, hcd⟩ | ⟨c, w, rfl⟩
      · obtain ⟨s, hs⟩ := intercalate_cons_eq sep (p ++ c :: u) xs
        rw [hs, ht, List.append_assoc, List.append_assoc]
        exact append_cons_lt p _ _ hcd
      · rw [ht, List.append_assoc, List.cons_append]
        by_cases hxs' : xs = []
        · rw [hxs', List.intercalate_singleton]
          exact lt_append_cons x _ _
        · rw [intercalate_cons_cons_eq x hxs']
          refine append_cons_lt x _ _ (lt_of_not_ge fun hle => ?_)
          have hc : c ≠ sep := by
            rintro rfl
            exact hy _ List.mem_cons_self (by simp)
          exact hno ⟨[], x, xs, c, w, ys, rfl, hxs', rfl, lt_of_le_of_ne hle hc⟩

/-- Joining keeps an order of two lists of pieces iff they do not clash. -/
theorem intercalate_lt_iff (hy : SepFree sep ys) (hxs : xs ≠ []) (hlt : xs < ys) :
    [sep].intercalate xs < [sep].intercalate ys ↔ ¬ Clash sep xs ys :=
  ⟨fun h hclash => List.lt_asymm h hclash.intercalate_lt,
    intercalate_lt_of_lt hy hxs hlt⟩

end

end RepoMesh
