import Mathlib.Logic.Basic
import Mathlib.Data.List.Basic

/-!
# Operations that fail with their state kept

An operation runs from a state to a result or an error, and to a new state in
both cases. What it does is stated as an outcome: one property of result and
state, and one of error and state.
-/
namespace Voleeo

variable {σ ε α β : Type}

def Fallible (σ ε α : Type) : Type := σ → Except ε α × σ

namespace Fallible

instance : Monad (Fallible σ ε) where
  pure a := fun s => (.ok a, s)
  bind x f := fun s =>
    match x s with
    | (.ok a, s') => f a s'
    | (.error e, s') => (.error e, s')

theorem bind_apply (x : Fallible σ ε α) (f : α → Fallible σ ε β) (s : σ) :
    (x >>= f) s = match x s with
      | (.ok a, s') => f a s'
      | (.error e, s') => (.error e, s') := rfl

instance : LawfulMonad (Fallible σ ε) := LawfulMonad.mk' _
  (fun x => by
    funext s
    change (match x s with
      | (.ok a, s') => (Except.ok a, s')
      | (.error e, s') => (Except.error e, s')) = x s
    rcases x s with ⟨a | e, s'⟩ <;> rfl)
  (fun _ _ => rfl)
  (fun x f g => by
    funext s
    simp only [bind_apply]
    rcases x s with ⟨a | e, s'⟩ <;> rfl)

def throw (e : ε) : Fallible σ ε α := fun s => (.error e, s)

def get : Fallible σ ε σ := fun s => (.ok s, s)

def modify (f : σ → σ) : Fallible σ ε Unit := fun s => (.ok (), f s)

/-- The operation with its error as a result. -/
def attempt (x : Fallible σ ε α) : Fallible σ ε (Except ε α) := fun s => (.ok (x s).1, (x s).2)

/-- The operation on a part of the state. -/
def zoom {τ ε' : Type} (part : τ → σ) (put : τ → σ → τ) (err : ε → ε') (x : Fallible σ ε α) :
    Fallible τ ε' α := fun t =>
  match x (part t) with
  | (.ok a, s) => (.ok a, put t s)
  | (.error e, s) => (.error (err e), put t s)

theorem pure_apply (a : α) (s : σ) : (Pure.pure a : Fallible σ ε α) s = (.ok a, s) := rfl

theorem throw_apply (e : ε) (s : σ) : (throw e : Fallible σ ε α) s = (.error e, s) := rfl

theorem get_apply (s : σ) : (get : Fallible σ ε σ) s = (.ok s, s) := rfl

theorem modify_apply (f : σ → σ) (s : σ) : (modify f : Fallible σ ε Unit) s = (.ok (), f s) := rfl

theorem bind_eq_ok {x : Fallible σ ε α} {f : α → Fallible σ ε β} {s s' : σ} {a : α}
    (h : x s = (.ok a, s')) : (x >>= f) s = f a s' := by
  simp only [Bind.bind, h]

theorem bind_eq_error {x : Fallible σ ε α} {f : α → Fallible σ ε β} {s s' : σ} {e : ε}
    (h : x s = (.error e, s')) : (x >>= f) s = (.error e, s') := by
  simp only [Bind.bind, h]

theorem attempt_eq {x : Fallible σ ε α} {r : Except ε α} {s s' : σ} (h : x s = (r, s')) :
    attempt x s = (.ok r, s') := by
  simp only [attempt, h]

/-- Run from the state, the operation ends as stated. -/
def Outcome (x : Fallible σ ε α) (s : σ) (Q : α → σ → Prop) (E : ε → σ → Prop) : Prop :=
  match x s with
  | (.ok a, s') => Q a s'
  | (.error e, s') => E e s'

variable {x : Fallible σ ε α} {f : α → Fallible σ ε β} {s : σ} {Q : α → σ → Prop}
  {E : ε → σ → Prop}

namespace Outcome

theorem pure {a : α} (h : Q a s) : Outcome (Pure.pure a : Fallible σ ε α) s Q E := h

theorem throw {e : ε} (h : E e s) : Outcome (Fallible.throw e : Fallible σ ε α) s Q E := h

theorem get {Q : σ → σ → Prop} (h : Q s s) : Outcome (Fallible.get : Fallible σ ε σ) s Q E := h

theorem modify {Q : Unit → σ → Prop} {g : σ → σ} (h : Q () (g s)) :
    Outcome (Fallible.modify g : Fallible σ ε Unit) s Q E := h

theorem bind {R : β → σ → Prop} (hx : Outcome x s Q E)
    (hf : ∀ a s', Q a s' → Outcome (f a) s' R E) : Outcome (x >>= f) s R E := by
  change (match (match x s with
    | (.ok a, s') => f a s'
    | (.error e, s') => (.error e, s')) with
    | (.ok b, s') => R b s'
    | (.error e, s') => E e s')
  rw [Outcome] at hx
  match hrun : x s with
  | (.ok a, s') =>
    rw [hrun] at hx
    exact hf a s' hx
  | (.error e, s') =>
    rw [hrun] at hx
    exact hx

theorem mono {Q' : α → σ → Prop} {E' : ε → σ → Prop} (h : Outcome x s Q E)
    (hQ : ∀ a s', Q a s' → Q' a s') (hE : ∀ e s', E e s' → E' e s') : Outcome x s Q' E' := by
  rw [Outcome] at h ⊢
  split
  · rename_i a s' hrun
    rw [hrun] at h
    exact hQ a s' h
  · rename_i e s' hrun
    rw [hrun] at h
    exact hE e s' h

/-- A loop keeps what each round keeps. -/
theorem forM {γ : Type} {g : γ → Fallible σ ε PUnit} {xs : List γ} {I : σ → Prop} (hI : I s)
    (h : ∀ x ∈ xs, ∀ s, I s → Outcome (g x) s (fun _ => I) E) :
    Outcome (xs.forM g) s (fun _ => I) E := by
  induction xs generalizing s with
  | nil => exact pure hI
  | cons x xs ih =>
    exact bind (h x List.mem_cons_self s hI) fun _ s' hI' =>
      ih hI' fun y hy => h y (List.mem_cons_of_mem _ hy)

/-- A loop does for each element what its round does, if the later rounds keep that. -/
theorem forM_done {γ : Type} {g : γ → Fallible σ ε PUnit} {xs : List γ} {I : σ → Prop}
    {D : γ → σ → Prop} (hI : I s) (h : ∀ x ∈ xs, ∀ s, I s →
      Outcome (g x) s (fun _ s' => I s' ∧ D x s' ∧ ∀ y, D y s → D y s') E) :
    Outcome (xs.forM g) s (fun _ s' => I s' ∧ (∀ x ∈ xs, D x s') ∧ ∀ y, D y s → D y s') E := by
  induction xs generalizing s with
  | nil => exact pure ⟨hI, by simp, fun _ hD => hD⟩
  | cons x xs ih =>
    refine bind (h x List.mem_cons_self s hI) fun _ s₁ ⟨hI₁, hDx, hkeep⟩ => ?_
    refine mono (ih hI₁ fun y hy => h y (List.mem_cons_of_mem _ hy)) ?_ fun _ _ he => he
    rintro _ s₂ ⟨hI₂, hall, hkeep'⟩
    exact ⟨hI₂, List.forall_mem_cons.mpr ⟨hkeep' x hDx, hall⟩, fun y hD => hkeep' y (hkeep y hD)⟩

/-- A loop with a running value; the invariant speaks of the rounds that are done. -/
theorem foldlM {γ : Type} {g : α → γ → Fallible σ ε α} {xs : List γ} {J : List γ → α → σ → Prop}
    {a : α} (hJ : J [] a s) (h : ∀ done x rest, xs = done ++ x :: rest → ∀ a s, J done a s →
      Outcome (g a x) s (fun a' s' => J (done ++ [x]) a' s') E) :
    Outcome (xs.foldlM g a) s (J xs) E := by
  have hloop : ∀ rest done, xs = done ++ rest → ∀ a s, J done a s →
      Outcome (rest.foldlM g a) s (J xs) E := by
    intro rest
    induction rest with
    | nil =>
      intro done hxs a s hJ
      rw [hxs, List.append_nil]
      exact pure hJ
    | cons x rest ih =>
      intro done hxs a s hJ
      exact bind (h done x rest hxs a s hJ) fun a' s' hJ' =>
        ih (done ++ [x]) (by rw [hxs, List.append_assoc]; rfl) a' s' hJ'
  exact hloop xs [] rfl a s hJ

/-- An operation whose outcome is known. -/
theorem of_ok {a : α} {s' : σ} (h : Outcome x s Q E) (hrun : x s = (.ok a, s')) : Q a s' := by
  rwa [Outcome, hrun] at h

theorem of_error {e : ε} {s' : σ} (h : Outcome x s Q E) (hrun : x s = (.error e, s')) : E e s' := by
  rwa [Outcome, hrun] at h

end Outcome

end Fallible

end Voleeo
