import Mathlib.Data.List.Chain
import Mathlib.Order.Interval.Finset.Nat

/-!
# Windows that slide over a range

A window of `size` places slides by `step` until it reaches the end of the range, where
it is cut. With `1 ≤ step ≤ size` the windows cover the range and start behind one
another, and neighbours have `size - step` places in common, the last two included.
-/

namespace RepoMesh

/-- The windows, as pairs of their first and last place, of the range from `start` to
`last`. -/
inductive Slides (size step last : ℕ) : ℕ → List (ℕ × ℕ) → Prop where
  | cut {start : ℕ} : start ≤ last → last ≤ start + size - 1 →
      Slides size step last start [(start, last)]
  | slide {start : ℕ} {windows : List (ℕ × ℕ)} : start + size - 1 < last →
      Slides size step last (start + step) windows →
      Slides size step last start ((start, start + size - 1) :: windows)

namespace Slides

variable {size step last start : ℕ} {windows : List (ℕ × ℕ)}

/-- The first window starts the range, and ends no sooner than a full one or the range. -/
theorem head (h : Slides size step last start windows) :
    ∃ stop rest, windows = (start, stop) :: rest ∧ stop ≤ last ∧
      (last ≤ stop ∨ stop = start + size - 1) := by
  cases h with
  | cut hle _ => exact ⟨last, [], rfl, le_rfl, Or.inl le_rfl⟩
  | slide hlt htail => exact ⟨_, _, rfl, le_of_lt hlt, Or.inr rfl⟩

theorem inside (h : Slides size step last start windows) :
    ∀ w ∈ windows, start ≤ w.1 ∧ w.2 ≤ last := by
  induction h with
  | cut hle _ =>
      intro w hw
      rw [List.mem_singleton.mp hw]
      exact ⟨le_rfl, le_rfl⟩
  | slide hlt _ ih =>
      intro w hw
      rcases List.mem_cons.mp hw with rfl | hw
      · exact ⟨le_rfl, le_of_lt hlt⟩
      · obtain ⟨hfirst, hlast⟩ := ih w hw
        exact ⟨le_trans (Nat.le_add_right _ _) hfirst, hlast⟩

theorem length_le (h : Slides size step last start windows) (hsize : 1 ≤ size) :
    ∀ w ∈ windows, w.2 + 1 - w.1 ≤ size := by
  induction h with
  | @cut start hle hend =>
      intro w hw
      rw [List.mem_singleton.mp hw]
      show last + 1 - start ≤ size
      omega
  | @slide start windows hlt _ ih =>
      intro w hw
      rcases List.mem_cons.mp hw with rfl | hw
      · show start + size - 1 + 1 - start ≤ size
        omega
      · exact ih w hw

/-- Windows leave no gap. -/
theorem covers (h : Slides size step last start windows) (hstep : step ≤ size) {place : ℕ}
    (hfirst : start ≤ place) (hlast : place ≤ last) :
    ∃ w ∈ windows, w.1 ≤ place ∧ place ≤ w.2 := by
  induction h with
  | cut _ _ => exact ⟨_, List.mem_singleton_self _, hfirst, hlast⟩
  | @slide start windows hlt htail ih =>
      by_cases hhere : place ≤ start + size - 1
      · exact ⟨_, List.mem_cons_self, hfirst, hhere⟩
      · obtain ⟨w, hw, hin⟩ := ih (by omega)
        exact ⟨w, List.mem_cons_of_mem _ hw, hin⟩

theorem increasing (h : Slides size step last start windows) (hstep : 1 ≤ step) :
    windows.Pairwise fun w w' => w.1 < w'.1 := by
  induction h with
  | cut _ _ => exact List.pairwise_singleton _ _
  | @slide start windows _ htail ih =>
      refine List.pairwise_cons.mpr ⟨fun w hw => ?_, ih⟩
      have hfirst := (htail.inside w hw).1
      show start < w.1
      omega

/-- All windows but the last are full and end before the range does. -/
theorem full (h : Slides size step last start windows) (hsize : 1 ≤ size) :
    ∀ w ∈ windows.dropLast, w.2 + 1 - w.1 = size ∧ w.2 < last := by
  induction h with
  | cut _ _ =>
      intro w hw
      cases hw
  | @slide start windows hlt htail ih =>
      intro w hw
      obtain ⟨stop, rest, rfl, -, -⟩ := htail.head
      rw [List.dropLast_cons_of_ne_nil (List.cons_ne_nil _ _)] at hw
      rcases List.mem_cons.mp hw with rfl | hw
      · refine ⟨?_, hlt⟩
        show start + size - 1 + 1 - start = size
        omega
      · exact ih w hw

theorem ends (h : Slides size step last start windows) :
    ∀ w ∈ windows.getLast?, w.2 = last := by
  induction h with
  | cut _ _ =>
      intro w hw
      obtain rfl := Option.mem_some.mp hw
      rfl
  | slide _ htail ih =>
      intro w hw
      obtain ⟨stop, rest, rfl, -, -⟩ := htail.head
      rw [List.getLast?_cons_cons] at hw
      exact ih w hw

/-- What two windows `step` apart share, if the second reaches at least as far. -/
theorem inter_eq {stop : ℕ} (hstop : start + size - 1 ≤ stop) :
    Finset.Icc start (start + size - 1) ∩ Finset.Icc (start + step) stop =
      Finset.Icc (start + step) (start + size - 1) := by
  ext place
  simp only [Finset.mem_inter, Finset.mem_Icc]
  omega

theorem overlaps (h : Slides size step last start windows) (hsize : 1 ≤ size) :
    windows.IsChain fun w w' =>
      (Finset.Icc w.1 w.2 ∩ Finset.Icc w'.1 w'.2).card = size - step := by
  induction h with
  | cut _ _ => exact List.IsChain.singleton _
  | @slide start windows hlt htail ih =>
      obtain ⟨stop, rest, rfl, -, hreach⟩ := htail.head
      refine List.IsChain.cons_cons ?_ ih
      have hstop : start + size - 1 ≤ stop := by omega
      rw [inter_eq hstop, Nat.card_Icc]
      omega

end Slides

end RepoMesh
