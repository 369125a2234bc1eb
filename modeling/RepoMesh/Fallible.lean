import Mathlib.Data.List.Basic

/-!
# Programs that can fail at every call

A program works on a state `σ`, returns or raises an exception of type `ε`, and asks
its environment for the fate of each call, an answer of type `φ`. What it did to
the state before it raised stays done. `Triple P x Q E` is partial correctness with a
second postcondition `E` for the exceptions, whatever the environment answers; the
rules below follow the program's syntax.
-/

namespace RepoMesh

/-- From a state and the environment's next answers to an outcome, the state left
behind and the answers not yet used. -/
def Prog (φ ε σ α : Type) : Type := σ → List φ → (Except ε α × σ) × List φ

namespace Prog

variable {φ ε σ α β : Type}

instance : Monad (Prog φ ε σ) where
  pure a := fun s answers => ((.ok a, s), answers)
  bind x f := fun s answers =>
    match x s answers with
    | ((.ok a, s'), rest) => f a s' rest
    | ((.error e, s'), rest) => ((.error e, s'), rest)

def raise (e : ε) : Prog φ ε σ α := fun s answers => ((.error e, s), answers)

/-- `try x except e: handler e`; the handler may raise in its turn. -/
def catching (x : Prog φ ε σ α) (handler : ε → Prog φ ε σ α) : Prog φ ε σ α :=
  fun s answers =>
    match x s answers with
    | ((.ok a, s'), rest) => ((.ok a, s'), rest)
    | ((.error e, s'), rest) => handler e s' rest

def get : Prog φ ε σ σ := fun s answers => ((.ok s, s), answers)

def modify (f : σ → σ) : Prog φ ε σ Unit := fun s answers => ((.ok (), f s), answers)

/-- The environment's next answer, `last` once it has said its last. -/
def ask (last : φ) : Prog φ ε σ φ := fun s answers =>
  match answers with
  | [] => ((.ok last, s), [])
  | x :: rest => ((.ok x, s), rest)

theorem bind_apply (x : Prog φ ε σ α) (f : α → Prog φ ε σ β) (s : σ) (answers : List φ) :
    (x >>= f) s answers =
      match x s answers with
      | ((.ok a, s'), rest) => f a s' rest
      | ((.error e, s'), rest) => ((.error e, s'), rest) := rfl

theorem bind_of_ok {x : Prog φ ε σ α} (f : α → Prog φ ε σ β) {s s' : σ} {answers rest : List φ}
    {a : α} (h : x s answers = ((.ok a, s'), rest)) : (x >>= f) s answers = f a s' rest := by
  rw [bind_apply, h]

theorem catching_of_error {x : Prog φ ε σ α} (handler : ε → Prog φ ε σ α) {s s' : σ}
    {answers rest : List φ} {e : ε} (h : x s answers = ((.error e, s'), rest)) :
    x.catching handler s answers = handler e s' rest := by
  rw [catching, h]

instance : LawfulMonad (Prog φ ε σ) :=
  LawfulMonad.mk' (Prog φ ε σ)
    (by
      intro α x
      funext s answers
      show (match x s answers with
        | ((.ok a, s'), rest) => ((.ok a, s'), rest)
        | ((.error e, s'), rest) => ((.error e, s'), rest)) = x s answers
      rcases x s answers with ⟨⟨r, s'⟩, rest⟩
      cases r <;> rfl)
    (fun _ _ => rfl)
    (by
      intro α β γ x f g
      funext s answers
      simp only [bind_apply]
      rcases x s answers with ⟨⟨r, s'⟩, rest⟩
      cases r <;> rfl)

end Prog

variable {φ ε σ α β : Type}

/-- `Q` of a returned value and its state, `E` of an exception and its state. -/
def Post (Q : α → σ → Prop) (E : ε → σ → Prop) : Except ε α × σ → Prop
  | (.ok a, s) => Q a s
  | (.error e, s) => E e s

def Triple (P : σ → Prop) (x : Prog φ ε σ α) (Q : α → σ → Prop) (E : ε → σ → Prop) : Prop :=
  ∀ s answers, P s → Post Q E (x s answers).1

namespace Triple

variable {P P' : σ → Prop} {Q Q' R : α → σ → Prop} {E E' : ε → σ → Prop}
  {x : Prog φ ε σ α}

theorem conseq (h : Triple P x Q E) (hP : ∀ s, P' s → P s) (hQ : ∀ a s, Q a s → Q' a s)
    (hE : ∀ e s, E e s → E' e s) : Triple P' x Q' E' := by
  intro s answers hs
  have hpost := h s answers (hP s hs)
  revert hpost
  cases (x s answers).1 with
  | mk r s' =>
      cases r with
      | ok a => exact hQ a s'
      | error e => exact hE e s'

theorem pre (h : Triple P x Q E) (hP : ∀ s, P' s → P s) : Triple P' x Q E :=
  h.conseq hP (fun _ _ => id) fun _ _ => id

theorem exc (h : Triple P x Q E) (hE : ∀ e s, E e s → E' e s) : Triple P x Q E' :=
  h.conseq (fun _ => id) (fun _ _ => id) hE

theorem pure {a : α} (h : ∀ s, P s → Q a s) : Triple P (pure a : Prog φ ε σ α) Q E :=
  fun s _ hs => h s hs

theorem raise {e : ε} (h : ∀ s, P s → E e s) : Triple P (Prog.raise e : Prog φ ε σ α) Q E :=
  fun s _ hs => h s hs

theorem modify {f : σ → σ} {Q : Unit → σ → Prop} (h : ∀ s, P s → Q () (f s)) :
    Triple P (Prog.modify f : Prog φ ε σ Unit) Q E :=
  fun s _ hs => h s hs

theorem get {Q : σ → σ → Prop} (h : ∀ s, P s → Q s s) :
    Triple P (Prog.get : Prog φ ε σ σ) Q E :=
  fun s _ hs => h s hs

theorem ask {last : φ} {Q : φ → σ → Prop} (h : ∀ answer s, P s → Q answer s) :
    Triple P (Prog.ask last : Prog φ ε σ φ) Q E := by
  intro s answers hs
  cases answers with
  | nil => exact h last s hs
  | cons a rest => exact h a s hs

theorem bind {f : α → Prog φ ε σ β} {Q : β → σ → Prop} (hx : Triple P x R E)
    (hf : ∀ a, Triple (R a) (f a) Q E) : Triple P (x >>= f) Q E := by
  intro s answers hs
  have hpost := hx s answers hs
  have hrun : (x >>= f) s answers =
      match x s answers with
      | ((.ok a, s'), rest) => f a s' rest
      | ((.error e, s'), rest) => ((.error e, s'), rest) := rfl
  rw [hrun]
  revert hpost
  rcases x s answers with ⟨⟨r, s'⟩, rest⟩
  cases r with
  | ok a => exact hf a s' rest
  | error e => exact id

theorem catching {handler : ε → Prog φ ε σ α} {F : ε → σ → Prop} (hx : Triple P x Q F)
    (hh : ∀ e, Triple (F e) (handler e) Q E) : Triple P (x.catching handler) Q E := by
  intro s answers hs
  have hpost := hx s answers hs
  rw [Prog.catching]
  revert hpost
  rcases x s answers with ⟨⟨r, s'⟩, rest⟩
  cases r with
  | ok a => exact id
  | error e => exact hh e s' rest

theorem ite {c : Prop} [Decidable c] {y : Prog φ ε σ α} (hx : c → Triple P x Q E)
    (hy : ¬ c → Triple P y Q E) : Triple P (if c then x else y) Q E := by
  split
  · exact hx ‹_›
  · exact hy ‹_›

/-- A precondition can be used as a fact about one state. -/
theorem of_forall (h : ∀ s, P s → Triple (fun t => t = s) x Q E) : Triple P x Q E :=
  fun s answers hs => h s hs s answers rfl

/-- The loop rule: `I done` relates the accumulator and the state once the items
`done` are behind. -/
theorem foldlM (items : List β) {f : α → β → Prog φ ε σ α} {I : List β → α → σ → Prop}
    (hstep : ∀ done b rest a, items = done ++ b :: rest →
      Triple (I done a) (f a b) (I (done ++ [b])) E) (a : α) :
    Triple (I [] a) (items.foldlM f a) (I items) E := by
  suffices h : ∀ rest done a, items = done ++ rest →
      Triple (I done a) (rest.foldlM f a) (I items) E from h items [] a rfl
  intro rest
  induction rest with
  | nil =>
      intro done a hitems
      rw [List.append_nil] at hitems
      exact pure fun s hs => hitems ▸ hs
  | cons b rest ih =>
      intro done a hitems
      refine bind (hstep done b rest a hitems) fun a' => ?_
      exact ih (done ++ [b]) a' (by simp [hitems])

end Triple

/-! ## Invariants -/

/-- The program keeps `P`, whether it returns or raises. -/
def Keeps (P : σ → Prop) (x : Prog φ ε σ α) : Prop := Triple P x (fun _ => P) fun _ => P

namespace Keeps

variable {P : σ → Prop} {x : Prog φ ε σ α}

theorem pure {a : α} : Keeps P (pure a : Prog φ ε σ α) := Triple.pure fun _ => id

theorem raise {e : ε} : Keeps P (Prog.raise e : Prog φ ε σ α) := Triple.raise fun _ => id

theorem modify {f : σ → σ} (h : ∀ s, P s → P (f s)) :
    Keeps P (Prog.modify f : Prog φ ε σ Unit) := Triple.modify h

theorem ask {last : φ} : Keeps P (Prog.ask last : Prog φ ε σ φ) := Triple.ask fun _ _ => id

theorem bind {f : α → Prog φ ε σ β} (hx : Keeps P x) (hf : ∀ a, Keeps P (f a)) :
    Keeps P (x >>= f) := Triple.bind hx hf

theorem catching {handler : ε → Prog φ ε σ α} (hx : Keeps P x) (hh : ∀ e, Keeps P (handler e)) :
    Keeps P (x.catching handler) := Triple.catching hx hh

theorem ite {c : Prop} [Decidable c] {y : Prog φ ε σ α} (hx : c → Keeps P x)
    (hy : ¬ c → Keeps P y) : Keeps P (if c then x else y) := Triple.ite hx hy

theorem foldlM (items : List β) {f : α → β → Prog φ ε σ α}
    (h : ∀ a, ∀ b ∈ items, Keeps P (f a b)) (a : α) : Keeps P (items.foldlM f a) :=
  Triple.foldlM items (I := fun _ _ => P) (fun _ b _ a hitems => h a b (by simp [hitems])) a

/-- What a program keeps holds of the state it leaves. -/
theorem run (h : Keeps P x) {s : σ} (hs : P s) (answers : List φ) : P (x s answers).1.2 := by
  have hpost := h s answers hs
  revert hpost
  rcases (x s answers).1 with ⟨r, s'⟩
  cases r with
  | ok a => exact id
  | error e => exact id

end Keeps

end RepoMesh
