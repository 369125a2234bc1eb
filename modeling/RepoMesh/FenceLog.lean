import Mathlib.Data.List.Basic

/-!
# Fenced logs

A log of two kinds of event on resources of type `ρ`: somebody is granted a
resource under a token of type `τ`, and somebody writes to it under a token. The
newest event stands first. The log is fenced when every write is made under the
token granted last and no token is granted twice; then no write under an older
grant ever follows a newer one (`Fenced.no_late_store`).
-/

namespace RepoMesh

inductive Event (ρ τ : Type*) where
  | claimed (resource : ρ) (token : τ)
  | stored (resource : ρ) (token : τ)
  deriving DecidableEq, Repr

section

variable {ρ τ : Type*} [DecidableEq ρ]

/-- The token granted last. -/
def latest (r : ρ) : List (Event ρ τ) → Option τ
  | [] => none
  | .claimed r' t :: log => if r' = r then some t else latest r log
  | .stored _ _ :: log => latest r log

structure Fenced (log : List (Event ρ τ)) : Prop where
  stores : ∀ {newer older r t}, log = newer ++ .stored r t :: older → latest r older = some t
  claims : ∀ {newer older r t}, log = newer ++ .claimed r t :: older → .claimed r t ∉ older

variable {log : List (Event ρ τ)} {r : ρ} {t : τ}

theorem latest_claimed_of_ne {r' : ρ} (h : r' ≠ r) (t' : τ) :
    latest r (.claimed r' t' :: log) = latest r log :=
  if_neg h

/-- The last grant at a point where one was just made, seen from later on. -/
theorem latest_append_claimed {newer older : List (Event ρ τ)} {t' : τ}
    (h : latest r (newer ++ .claimed r t' :: older) = some t) :
    .claimed r t ∈ newer ∨ t' = t := by
  induction newer with
  | nil =>
      rw [List.nil_append, latest, if_pos rfl] at h
      exact Or.inr (Option.some.inj h)
  | cons e newer ih =>
      cases e with
      | claimed r'' t'' =>
          rw [List.cons_append, latest] at h
          split at h
          · rename_i heq
            obtain rfl := heq
            obtain rfl := Option.some.inj h
            exact Or.inl List.mem_cons_self
          · exact (ih h).imp_left (List.mem_cons_of_mem _)
      | stored r'' t'' => exact (ih h).imp_left (List.mem_cons_of_mem _)

theorem Fenced.nil : Fenced ([] : List (Event ρ τ)) where
  stores := by
    intro newer older r t h
    cases newer <;> cases h
  claims := by
    intro newer older r t h
    cases newer <;> cases h

/-- Granting a token that was never granted keeps the log fenced. -/
theorem Fenced.claim (h : Fenced log) (hnew : .claimed r t ∉ log) :
    Fenced (.claimed r t :: log) where
  stores := by
    intro newer older r' t' heq
    cases newer with
    | nil => cases heq
    | cons e newer => exact h.stores (List.cons.inj heq).2
  claims := by
    intro newer older r' t' heq
    cases newer with
    | nil =>
        obtain ⟨hhead, rfl⟩ := List.cons.inj heq
        rw [← hhead]
        exact hnew
    | cons e newer => exact h.claims (List.cons.inj heq).2

/-- Writing under the token granted last keeps the log fenced. -/
theorem Fenced.store (h : Fenced log) (hlatest : latest r log = some t) :
    Fenced (.stored r t :: log) where
  stores := by
    intro newer older r' t' heq
    cases newer with
    | nil =>
        obtain ⟨hhead, rfl⟩ := List.cons.inj heq
        obtain ⟨rfl, rfl⟩ := Event.stored.inj hhead
        exact hlatest
    | cons e newer => exact h.stores (List.cons.inj heq).2
  claims := by
    intro newer older r' t' heq
    cases newer with
    | nil => cases heq
    | cons e newer => exact h.claims (List.cons.inj heq).2

/-- No write under an earlier grant follows a later grant. -/
theorem Fenced.no_late_store (h : Fenced log) {newer middle older : List (Event ρ τ)} {t' : τ}
    (hlog : log = newer ++ .stored r t :: (middle ++ .claimed r t' :: older)) :
    .claimed r t ∉ older := by
  intro hmem
  rcases latest_append_claimed (h.stores hlog) with hmiddle | rfl
  · obtain ⟨xs, ys, rfl⟩ := List.append_of_mem hmiddle
    have hsplit : log = (newer ++ .stored r t :: xs) ++
        .claimed r t :: (ys ++ .claimed r t' :: older) := by
      rw [hlog]
      simp
    exact h.claims hsplit (List.mem_append_right _ (List.mem_cons_of_mem _ hmem))
  · have hsplit : log = (newer ++ .stored r t' :: middle) ++ .claimed r t' :: older := by
      rw [hlog]
      simp
    exact h.claims hsplit hmem

end

end RepoMesh
