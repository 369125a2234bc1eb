import Mathlib.Data.List.Nodup

/-!
# Tenancies of one identity

The history of an identity that one occupant holds at a time: occupants enter, are seen, and
leave, each at a time. Histories are newest first. Whoever entered last is the occupant; it
holds the identity until it leaves. If nobody enters twice, a tenancy that has ended stays
ended (`Ended.not_holder`).
-/

namespace RepoMesh

inductive Visit (σ τ : Type*) where
  | entered (s : σ) (t : τ)
  | seen (s : σ) (t : τ)
  | left (s : σ) (t : τ)
  deriving DecidableEq

namespace Visit

variable {σ τ : Type*}

/-- Who entered, newest first. -/
def entries (l : List (Visit σ τ)) : List σ :=
  l.filterMap fun
    | entered s _ => some s
    | _ => none

/-- Who entered last. -/
def occupant (l : List (Visit σ τ)) : Option σ :=
  (entries l).head?

/-- The time of a sign of life. -/
def sighting : Visit σ τ → Option τ
  | entered _ t | seen _ t => some t
  | left _ _ => none

@[simp] theorem entries_cons_entered (s : σ) (t : τ) (l : List (Visit σ τ)) :
    entries (entered s t :: l) = s :: entries l := rfl

theorem entries_append (l l' : List (Visit σ τ)) : entries (l ++ l') = entries l ++ entries l' :=
  List.filterMap_append

@[simp] theorem occupant_cons_entered (s : σ) (t : τ) (l : List (Visit σ τ)) :
    occupant (entered s t :: l) = some s := rfl

@[simp] theorem occupant_cons_seen (s : σ) (t : τ) (l : List (Visit σ τ)) :
    occupant (seen s t :: l) = occupant l := rfl

@[simp] theorem occupant_cons_left (s : σ) (t : τ) (l : List (Visit σ τ)) :
    occupant (left s t :: l) = occupant l := rfl

theorem occupant_append (l l' : List (Visit σ τ)) :
    occupant (l ++ l') = (occupant l).or (occupant l') := by
  rw [occupant, entries_append, List.head?_append]
  rfl

theorem mem_entries {s : σ} {t : τ} {l : List (Visit σ τ)} (h : entered s t ∈ l) : s ∈ entries l :=
  List.mem_filterMap.mpr ⟨_, h, rfl⟩

/-- Nobody entered a history without signs of life. -/
theorem occupant_eq_none {l : List (Visit σ τ)} (h : ∀ v ∈ l, v.sighting = none) :
    occupant l = none := by
  induction l with
  | nil => rfl
  | cons v l ih =>
      have hrest := ih fun v' hv' => h v' (List.mem_cons_of_mem _ hv')
      cases v with
      | entered s t => cases h _ List.mem_cons_self
      | seen s t => exact hrest
      | left s t => exact hrest

/-- Someone entered, and then someone else did or the one left. -/
def Ended (s : σ) (l : List (Visit σ τ)) : Prop :=
  ∃ newer t older, l = newer ++ entered s t :: older ∧
    ((∃ s' t', entered s' t' ∈ newer) ∨ ∃ t', left s t' ∈ newer)

variable [DecidableEq σ]

/-- The occupant has left. -/
def vacated : List (Visit σ τ) → Bool
  | [] => false
  | entered _ _ :: _ => false
  | seen _ _ :: l => vacated l
  | left s _ :: l => occupant l = some s || vacated l

/-- The occupant, until it leaves. -/
def holder (l : List (Visit σ τ)) : Option σ :=
  if vacated l then none else occupant l

theorem vacated_of_left {s : σ} {t : τ} {newer l : List (Visit σ τ)} (hl : occupant l = some s)
    (hnone : occupant newer = none) (hleft : left s t ∈ newer) : vacated (newer ++ l) = true := by
  induction newer with
  | nil => cases hleft
  | cons v newer ih =>
      cases v with
      | entered s' t' => cases hnone
      | seen s' t' =>
          refine ih hnone ?_
          rcases List.mem_cons.mp hleft with heq | hleft
          · cases heq
          · exact hleft
      | left s' t' =>
          have hocc : occupant (newer ++ l) = some s := by
            rw [occupant_append, hl]
            rw [occupant_cons_left] at hnone
            rw [hnone]
            rfl
          rw [List.cons_append, vacated, hocc]
          rcases List.mem_cons.mp hleft with heq | hleft
          · cases heq
            simp
          · simp [ih hnone hleft]

/-- A tenancy that has ended is not held again, as long as nobody enters twice. -/
theorem Ended.not_holder {s : σ} {l : List (Visit σ τ)} (hnodup : (entries l).Nodup)
    (h : Ended s l) : holder l ≠ some s := by
  obtain ⟨newer, t, older, rfl, hend⟩ := h
  rw [entries_append, entries_cons_entered] at hnodup
  have hnew : s ∉ entries newer := by
    intro hmem
    exact (List.nodup_append.mp hnodup).2.2 s hmem s List.mem_cons_self rfl
  intro hholder
  rw [holder] at hholder
  split at hholder
  · cases hholder
  rename_i hvacated
  rw [occupant_append] at hholder
  cases hocc : occupant newer with
  | some s' =>
      rw [hocc] at hholder
      obtain rfl : s' = s := Option.some.inj hholder
      exact hnew (List.mem_of_head? hocc)
  | none =>
      rcases hend with ⟨s', t', hent⟩ | ⟨t', hleft⟩
      · have hmem := mem_entries hent
        rw [List.head?_eq_none_iff.mp hocc] at hmem
        cases hmem
      · exact hvacated (vacated_of_left rfl hocc hleft)

end Visit

end RepoMesh
