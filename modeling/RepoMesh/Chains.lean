import Mathlib.Logic.Relation

/-!
# Chains that grow at their ends

A relation of which every element has at most one successor falls into chains. `Extends`
adds one link, to an element that no link leaves: no cycle comes of it, and the chain
that ended where the link starts now ends where it leads.
-/

namespace RepoMesh

open Relation

section

variable {α : Type*} {R R' : α → α → Prop} {a p n x y z : α}

/-- `z` is the last element of the chain from `a`. -/
def IsLast (R : α → α → Prop) (a z : α) : Prop :=
  ReflTransGen R a z ∧ ∀ x, ¬ R z x

theorem IsLast.congr (h : IsLast R a z) (hR : ∀ x y, R' x y ↔ R x y) : IsLast R' a z :=
  ⟨ReflTransGen.mono (fun x y hxy => (hR x y).mpr hxy) _ _ h.1,
    fun x hx => h.2 x ((hR z x).mp hx)⟩

/-- A chain has one last element. -/
theorem IsLast.unique (hR : Relator.RightUnique R) (hz : IsLast R a z) (hx : IsLast R a x) :
    z = x := by
  have hstuck : ∀ {b c : α}, IsLast R a b → ReflTransGen R b c → b = c := by
    intro b c hb hbc
    rcases hbc.cases_head with heq | ⟨d, hd, -⟩
    · exact heq
    · exact absurd hd (hb.2 d)
  rcases ReflTransGen.total_of_right_unique hR hz.1 hx.1 with hzx | hxz
  · exact hstuck hz hzx
  · exact (hstuck hx hxz).symm

/-- `R'` is `R` with one more link, from `p` to another element `n` that no link leaves. -/
structure Extends (R R' : α → α → Prop) (p n : α) : Prop where
  link : ∀ x y, R' x y ↔ R x y ∨ x = p ∧ y = n
  fresh : ∀ y, ¬ R n y
  ne : n ≠ p

theorem Extends.no_successor (h : Extends R R' p n) : ¬ R' n y := by
  intro hny
  rcases (h.link n y).mp hny with hold | ⟨hp, -⟩
  · exact h.fresh y hold
  · exact h.ne hp

theorem Extends.mono (h : Extends R R' p n) (hxy : ReflTransGen R x y) : ReflTransGen R' x y :=
  ReflTransGen.mono (fun x y hxy => (h.link x y).mpr (Or.inl hxy)) _ _ hxy

/-- A path of the longer chains is one of the old, or leads to the new element. -/
theorem Extends.path (h : Extends R R' p n) (hxy : TransGen R' x y) :
    TransGen R x y ∨ y = n := by
  induction hxy with
  | single hlink =>
      rcases (h.link _ _).mp hlink with hold | ⟨-, hn⟩
      · exact Or.inl (.single hold)
      · exact Or.inr hn
  | tail _ hlink ih =>
      rcases ih with hpath | rfl
      · rcases (h.link _ _).mp hlink with hold | ⟨-, hn⟩
        · exact Or.inl (hpath.tail hold)
        · exact Or.inr hn
      · exact absurd hlink h.no_successor

theorem Extends.acyclic (h : Extends R R' p n) (hR : ∀ x, ¬ TransGen R x x) (x : α) :
    ¬ TransGen R' x x := by
  intro hcycle
  rcases h.path hcycle with hold | rfl
  · exact hR x hold
  · obtain ⟨y, hxy, -⟩ := TransGen.head'_iff.mp hcycle
    exact h.no_successor hxy

/-- The chain that ended where the link starts ends where it leads. -/
theorem Extends.last (h : Extends R R' p n) (ha : IsLast R a p) : IsLast R' a n :=
  ⟨(h.mono ha.1).tail ((h.link p n).mpr (Or.inr ⟨rfl, rfl⟩)), fun _ => h.no_successor⟩

/-- The other chains end where they did. -/
theorem Extends.last_of_ne (h : Extends R R' p n) (ha : IsLast R a z) (hz : z ≠ p) :
    IsLast R' a z := by
  refine ⟨h.mono ha.1, fun x hx => ?_⟩
  rcases (h.link z x).mp hx with hold | ⟨hp, -⟩
  · exact ha.2 x hold
  · exact hz hp

end

end RepoMesh
