import Mathlib.Logic.Relation

/-!
# Labelled transition systems

Runs, reachable states and the two induction rules the development rests
on: an invariant that the initial states have and every step keeps holds in
every reachable state (`Reachable.induct`), and a property that no step of a
reachable state can end holds at every later point of a run
(`Run.stable`).
-/

namespace RepoMesh

/-- States `σ`, actions `α`, the initial states and the steps. -/
structure System (σ α : Type*) where
  init : σ → Prop
  step : σ → α → σ → Prop

namespace System

variable {σ α : Type*} {M : System σ α}

/-- A finite run, labelled by its actions in order. -/
inductive Run (M : System σ α) : σ → List α → σ → Prop where
  | nil (s : σ) : Run M s [] s
  | cons {s t u : σ} {a : α} {as : List α} :
      M.step s a t → Run M t as u → Run M s (a :: as) u

/-- `s` is reached by some run from an initial state. -/
def Reachable (M : System σ α) (s : σ) : Prop :=
  ∃ s₀ as, M.init s₀ ∧ Run M s₀ as s

theorem Run.append {s t u : σ} {as bs : List α} (h : Run M s as t) (h' : Run M t bs u) :
    Run M s (as ++ bs) u := by
  induction h with
  | nil _ => exact h'
  | cons hstep _ ih => exact .cons hstep (ih h')

theorem Run.single {s t : σ} {a : α} (h : M.step s a t) : Run M s [a] t :=
  .cons h (.nil t)

theorem Reachable.init {s : σ} (h : M.init s) : M.Reachable s :=
  ⟨s, [], h, .nil s⟩

theorem Reachable.run {s t : σ} {as : List α} (h : M.Reachable s) (hrun : Run M s as t) :
    M.Reachable t := by
  obtain ⟨s₀, bs, hinit, hbs⟩ := h
  exact ⟨s₀, bs ++ as, hinit, hbs.append hrun⟩

theorem Reachable.step {s t : σ} {a : α} (h : M.Reachable s) (hstep : M.step s a t) :
    M.Reachable t :=
  h.run (.single hstep)

/-- A property kept by every step out of a state that is reachable and has
the property is kept along every run from a reachable state. -/
theorem Run.stable {P : σ → Prop}
    (hstep : ∀ s a t, M.Reachable s → P s → M.step s a t → P t)
    {s t : σ} {as : List α} (hrun : Run M s as t) (hs : M.Reachable s) (hP : P s) : P t := by
  induction hrun with
  | nil _ => exact hP
  | cons h _ ih => exact ih (hs.step h) (hstep _ _ _ hs hP h)

/-- A run that ends with a property it did not start with has a step that brings
it about. -/
theorem Run.crossing {P : σ → Prop} {s t : σ} {as : List α} (hrun : Run M s as t)
    (hs : ¬ P s) (ht : P t) :
    ∃ bs b cs u v, as = bs ++ b :: cs ∧ Run M s bs u ∧ M.step u b v ∧ Run M v cs t ∧
      ¬ P u ∧ P v := by
  induction hrun with
  | nil _ => exact absurd ht hs
  | @cons s m t a as hstep hrest ih =>
      by_cases hm : P m
      · exact ⟨[], a, as, s, m, rfl, .nil s, hstep, hrest, hs, hm⟩
      · obtain ⟨bs, b, cs, u, v, rfl, hbs, hrest'⟩ := ih hm ht
        exact ⟨a :: bs, b, cs, u, v, rfl, .cons hstep hbs, hrest'⟩

/-- The invariant rule. -/
theorem Reachable.induct {I : σ → Prop} (hinit : ∀ s, M.init s → I s)
    (hstep : ∀ s a t, M.Reachable s → I s → M.step s a t → I t)
    {s : σ} (h : M.Reachable s) : I s := by
  obtain ⟨s₀, as, h₀, hrun⟩ := h
  exact hrun.stable hstep (.init h₀) (hinit s₀ h₀)

/-! ## Fewer actions -/

/-- The steps whose action satisfies `P`. -/
def restrict (M : System σ α) (P : α → Prop) : System σ α where
  init := M.init
  step s a t := M.step s a t ∧ P a

theorem Run.of_restrict {P : α → Prop} {s t : σ} {as : List α}
    (hrun : Run (M.restrict P) s as t) : Run M s as t := by
  induction hrun with
  | nil s => exact .nil s
  | cons hstep _ ih => exact .cons hstep.1 ih

theorem Run.restrict {P : α → Prop} {s t : σ} {as : List α} (hrun : Run M s as t)
    (h : ∀ a ∈ as, P a) : Run (M.restrict P) s as t := by
  induction hrun with
  | nil s => exact .nil s
  | cons hstep _ ih =>
      exact .cons ⟨hstep, h _ List.mem_cons_self⟩ (ih fun b hb => h b (List.mem_cons_of_mem _ hb))

theorem Reachable.of_restrict {P : α → Prop} {s : σ} (h : (M.restrict P).Reachable s) :
    M.Reachable s := by
  obtain ⟨s₀, as, hinit, hrun⟩ := h
  exact ⟨s₀, as, hinit, hrun.of_restrict⟩

/-! ## Executing a partial step function -/

/-- The state after a list of actions, if each of them is possible. -/
def exec (next : σ → α → Option σ) : σ → List α → Option σ
  | s, [] => some s
  | s, a :: as => (next s a).bind fun t => exec next t as

theorem run_exec {next : σ → α → Option σ}
    (hstep : ∀ {s a t}, next s a = some t → M.step s a t) {s t : σ} {as : List α}
    (h : exec next s as = some t) : Run M s as t := by
  induction as generalizing s with
  | nil =>
      obtain rfl := Option.some.inj h
      exact .nil s
  | cons a as ih =>
      obtain ⟨u, hu, hrest⟩ := Option.bind_eq_some_iff.mp h
      exact .cons (hstep hu) (ih hrest)

end System

end RepoMesh
