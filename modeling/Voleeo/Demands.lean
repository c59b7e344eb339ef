import Voleeo.Fallible

/-!
# What an operation asks for

An operation on a state with a clock asks for one thing after another: a check
that passes or not, a call that may be refused at its time, a draw that only
takes time. A mark stands where something has been left behind that stays. The
demands are a list that is known before the operation runs; what becomes of the
operation is read off from them.
-/
namespace Voleeo

inductive Demand
  | check (passes : Bool)
  | call
  | draw
  | mark
  deriving DecidableEq

namespace Demand

variable (r : ℕ → Bool)

/-- The time when everything has been granted, if nothing is refused. -/
def granted : ℕ → List Demand → Option ℕ
  | t, [] => some t
  | t, .check passes :: u => if passes then granted t u else none
  | t, .call :: u => if r t then none else granted (t + 1) u
  | t, .draw :: u => granted (t + 1) u
  | t, .mark :: u => granted t u

attribute [local simp] granted

/-- A mark is reached before anything is refused. -/
def marked : ℕ → List Demand → Bool
  | _, [] => false
  | t, .check passes :: u => if passes then marked t u else false
  | t, .call :: u => if r t then false else marked (t + 1) u
  | t, .draw :: u => marked (t + 1) u
  | _, .mark :: _ => true

attribute [local simp] marked

/-- The time that the demands take when they are granted. -/
def ticks : List Demand → ℕ
  | [] => 0
  | .check _ :: u => ticks u
  | .call :: u => ticks u + 1
  | .draw :: u => ticks u + 1
  | .mark :: u => ticks u

attribute [local simp] ticks

/-- The same demands with nothing left behind. -/
def unmarked (u : List Demand) : List Demand := u.filter (· ≠ .mark)

/-- The demands of an operation that leaves nothing behind when it fails. -/
def asWhole (u : List Demand) : List Demand := unmarked u ++ [.mark]

/-- Nothing is refused after the first mark. -/
def Spared (t : ℕ) (u : List Demand) : Prop :=
  marked r t u = true → (granted r t u).isSome = true

instance (t : ℕ) (u : List Demand) : Decidable (Spared r t u) :=
  inferInstanceAs (Decidable (_ → _))

/-- The demands of a loop, each of which may depend on the elements before it. -/
def along {γ : Type} (demands : List γ → γ → List Demand) : List γ → List γ → List Demand
  | _, [] => []
  | done, x :: xs => demands done x ++ along demands (done ++ [x]) xs

attribute [local simp] along

variable {r} {t : ℕ} {u v : List Demand}

theorem ticks_append : ticks (u ++ v) = ticks u + ticks v := by
  fun_induction ticks u with
  | case1 => simp
  | case2 _ u ih => simpa [ticks] using ih
  | case3 u ih =>
    rw [List.cons_append, ticks, ih]
    omega
  | case4 u ih =>
    rw [List.cons_append, ticks, ih]
    omega
  | case5 u ih => simpa [ticks] using ih

theorem ticks_unmarked : ticks (unmarked u) = ticks u := by
  fun_induction ticks u with
  | case1 => rfl
  | case2 _ u ih => simpa [unmarked, ticks] using ih
  | case3 u ih => simpa [unmarked, ticks] using ih
  | case4 u ih => simpa [unmarked, ticks] using ih
  | case5 u ih => simpa [unmarked] using ih

theorem ticks_asWhole : ticks (asWhole u) = ticks u := by
  rw [asWhole, ticks_append, ticks_unmarked]
  rfl

theorem eq_of_granted {t' : ℕ} (h : granted r t u = some t') : t' = t + ticks u := by
  fun_induction granted r t u with
  | case1 t => exact (Option.some.inj h).symm
  | case2 t u ih => exact ih h
  | case3 => exact absurd h nofun
  | case4 => exact absurd h nofun
  | case5 t u _ ih =>
    rw [ih h, ticks]
    omega
  | case6 t u ih =>
    rw [ih h, ticks]
    omega
  | case7 t u ih => exact ih h

/-- Without refusals and failing checks everything is granted. -/
theorem granted_of_quiet (hr : ∀ t, r t = false) (hu : .check false ∉ u) :
    (granted r t u).isSome = true := by
  fun_induction granted r t u with
  | case1 => rfl
  | case2 t u ih => exact ih fun h => hu (List.mem_cons_of_mem _ h)
  | case3 t passes u h =>
    rw [Bool.not_eq_true] at h
    subst h
    exact absurd List.mem_cons_self hu
  | case4 t u h => simp [hr] at h
  | case5 t u h ih => exact ih fun h => hu (List.mem_cons_of_mem _ h)
  | case6 t u ih => exact ih fun h => hu (List.mem_cons_of_mem _ h)
  | case7 t u ih => exact ih fun h => hu (List.mem_cons_of_mem _ h)

theorem granted_append :
    granted r t (u ++ v) = (granted r t u).bind fun t' => granted r t' v := by
  fun_induction granted r t u with
  | case1 t => rfl
  | case2 t u ih => simpa [granted] using ih
  | case3 t passes u h => simp [granted, h]
  | case4 t u h => simp [granted, h]
  | case5 t u h ih => simpa [granted, h] using ih
  | case6 t u ih => simpa [granted] using ih
  | case7 t u ih => simpa [granted] using ih

theorem marked_append :
    marked r t (u ++ v) =
      (marked r t u || ((granted r t u).map fun t' =>
        marked r t' v).getD false) := by
  fun_induction granted r t u with
  | case1 t => simp [marked]
  | case2 t u ih => simpa [marked, granted] using ih
  | case3 t passes u h => simp [marked, h]
  | case4 t u h => simp [marked, h]
  | case5 t u h ih => simpa [marked, granted, h] using ih
  | case6 t u ih => simpa [marked, granted] using ih
  | case7 t u ih => simp [marked]

theorem granted_unmarked : granted r t (unmarked u) = granted r t u := by
  fun_induction granted r t u with
  | case1 t => rfl
  | case2 t u ih => simpa [unmarked, granted] using ih
  | case3 t passes u h => simp [unmarked, granted, h]
  | case4 t u h => simp [unmarked, granted, h]
  | case5 t u h ih => simpa [unmarked, granted, h] using ih
  | case6 t u ih => simpa [unmarked, granted] using ih
  | case7 t u ih => simpa [unmarked, granted] using ih

theorem marked_unmarked : marked r t (unmarked u) = false := by
  fun_induction granted r t u with
  | case1 t => rfl
  | case2 t u ih => simpa [unmarked, marked] using ih
  | case3 t passes u h => simp [unmarked, marked, h]
  | case4 t u h => simp [unmarked, marked, h]
  | case5 t u h ih => simpa [unmarked, marked, h] using ih
  | case6 t u ih => simpa [unmarked, marked] using ih
  | case7 t u ih => simpa [unmarked] using ih

theorem granted_asWhole : granted r t (asWhole u) = granted r t u := by
  rw [asWhole, granted_append, granted_unmarked]
  cases granted r t u <;> rfl

theorem marked_asWhole : marked r t (asWhole u) = (granted r t u).isSome := by
  rw [asWhole, marked_append, marked_unmarked, granted_unmarked]
  cases granted r t u <;> rfl

end Demand

namespace Fallible
open Demand (granted marked along ticks)

variable {σ ε α β : Type} {refused : ℕ → Bool} {good : ℕ → Prop} {tick : σ → ℕ}
  {T : Bool → σ → Prop} {x : Fallible σ ε α} {f : α → Fallible σ ε β} {s : σ}
  {u v : List Demand} {Q : α → σ → Prop} {R : β → σ → Prop}

/-- At all times that the demands take, things are good. -/
def Sound (good : ℕ → Prop) (t : ℕ) (u : List Demand) : Prop :=
  ∀ k, t ≤ k → k < t + ticks u → good k

theorem Sound.left {t : ℕ} (h : Sound good t (u ++ v)) : Sound good t u :=
  fun k hk hlt => h k hk (by rw [Demand.ticks_append]; omega)

theorem Sound.right {t : ℕ} (h : Sound good t (u ++ v)) : Sound good (t + ticks u) v :=
  fun k hk hlt => h k (by omega) (by rw [Demand.ticks_append]; omega)

/-- The operation succeeds just when its demands are granted. What is tracked of the state goes
on to hold, with the marks that were reached. -/
def Asks (refused : ℕ → Bool) (good : ℕ → Prop) (tick : σ → ℕ) (T : Bool → σ → Prop)
    (x : Fallible σ ε α) (u : List Demand) (s : σ) (Q : α → σ → Prop) : Prop :=
  Sound good (tick s) u → ∀ m, T m s → Outcome x s
    (fun a s' => granted refused (tick s) u = some (tick s') ∧
      T (m || marked refused (tick s) u) s' ∧ Q a s')
    (fun _ s' => granted refused (tick s) u = none ∧
      T (m || marked refused (tick s) u) s')

namespace Asks

theorem pure {a : α} (h : Q a s) :
    Asks refused good tick T (Pure.pure a : Fallible σ ε α) [] s Q := by
  intro _ m hT
  refine Outcome.pure ⟨rfl, ?_, h⟩
  simpa [marked] using hT

theorem bind (hx : Asks refused good tick T x u s Q)
    (hf : ∀ a s', Q a s' → Asks refused good tick T (f a) v s' R) :
    Asks refused good tick T (x >>= f) (u ++ v) s R := by
  intro hsound m hT
  have h := hx hsound.left m hT
  rw [Outcome] at h ⊢
  rw [bind_apply]
  rcases hrun : x s with ⟨e | a, s'⟩
  · rw [hrun] at h
    obtain ⟨hnone, hT'⟩ := h
    refine ⟨by rw [Demand.granted_append, hnone]; rfl, ?_⟩
    simpa only [Demand.marked_append, hnone, Option.map_none, Option.getD_none,
      Bool.or_false] using hT'
  · rw [hrun] at h
    obtain ⟨hsome, hT', hQ⟩ := h
    have hright : Sound good (tick s') v := by
      rw [Demand.eq_of_granted hsome]
      exact hsound.right
    have hnext := hf a s' hQ hright _ hT'
    simp only [Outcome] at hnext ⊢
    simp only [Demand.granted_append, Demand.marked_append, hsome, Option.bind_some,
      Option.map_some, Option.getD_some, ← Bool.or_assoc]
    exact hnext

theorem mono {Q' : α → σ → Prop} (hx : Asks refused good tick T x u s Q)
    (h : ∀ a s', Q a s' → Q' a s') : Asks refused good tick T x u s Q' := fun hsound m hT =>
  (hx hsound m hT).mono (fun a s' ⟨hg, hT', hQ⟩ => ⟨hg, hT', h a s' hQ⟩) fun _ _ he => he

/-- The first thing that is drawn is drawn at a good time. -/
theorem of_draw (h : good (tick s) → Asks refused good tick T x (.draw :: u) s Q) :
    Asks refused good tick T x (.draw :: u) s Q := fun hsound =>
  h (hsound _ (Nat.le_refl _) (by rw [ticks]; omega)) hsound

/-- A loop, with an invariant on the elements that are done. -/
theorem forM {γ : Type} {g : γ → Fallible σ ε PUnit} {demands : List γ → γ → List Demand}
    {xs l : List γ} {J : List γ → σ → Prop} (hJ : J l s)
    (h : ∀ l x s, x ∈ xs → J l s →
      Asks refused good tick T (g x) (demands l x) s fun _ s' => J (l ++ [x]) s') :
    Asks refused good tick T (xs.forM g) (along demands l xs) s fun _ s' => J (l ++ xs) s' := by
  induction xs generalizing l s with
  | nil => exact pure (by rwa [List.append_nil])
  | cons x xs ih =>
    refine (h l x s List.mem_cons_self hJ).bind fun _ s' hJ' => ?_
    have hrest := ih hJ' fun l y s hy => h l y s (List.mem_cons_of_mem _ hy)
    rwa [List.append_assoc] at hrest

/-- A loop with a running value, with an invariant of the state. -/
theorem foldlM {γ : Type} {g : α → γ → Fallible σ ε α} {demands : γ → List Demand} {xs : List γ}
    {a : α} {J : σ → Prop} (hJ : J s)
    (h : ∀ a x s, x ∈ xs → J s → Asks refused good tick T (g a x) (demands x) s fun _ s' => J s') :
    Asks refused good tick T (xs.foldlM g a) (xs.flatMap demands) s fun _ s' => J s' := by
  induction xs generalizing a s with
  | nil => exact pure hJ
  | cons x xs ih =>
    rw [List.flatMap_cons, List.foldlM_cons]
    exact (h a x s List.mem_cons_self hJ).bind fun _ s' hJ' =>
      ih hJ' fun a y s hy => h a y s (List.mem_cons_of_mem _ hy)

/-- A success takes the time of the demands. -/
theorem and_tick (hx : Asks refused good tick T x u s Q) :
    Asks refused good tick T x u s fun a s' => Q a s' ∧ tick s' = tick s + ticks u :=
  fun hsound m hT => (hx hsound m hT).mono
    (fun _ _ ⟨hg, hT', hQ⟩ => ⟨hg, hT', hQ, Demand.eq_of_granted hg⟩) fun _ _ he => he

/-- With nothing refused the operation succeeds. -/
theorem eq_ok (hx : Asks refused good tick T x u s Q) (hsound : Sound good (tick s) u)
    (hT : T false s) (hrefused : ∀ t, refused t = false) (hu : .check false ∉ u) :
    ∃ a s', x s = (.ok a, s') ∧ Q a s' := by
  have h := hx hsound false hT
  rw [Outcome] at h
  rcases hrun : x s with ⟨e | a, s'⟩
  · rw [hrun] at h
    have hsome := Demand.granted_of_quiet (t := tick s) hrefused hu
    rw [h.1] at hsome
    exact absurd hsome Bool.false_ne_true
  · rw [hrun] at h
    exact ⟨a, s', rfl, h.2.2⟩

/-- A failure leaves something that was tracked. -/
theorem tracked_of_error (hx : Asks refused good tick T x u s Q) (hsound : Sound good (tick s) u)
    (hT : T false s) {e : ε} {s' : σ} (hrun : x s = (.error e, s')) : ∃ b, T b s' :=
  ⟨_, (Outcome.of_error (hx hsound false hT) hrun).2⟩

/-- A failure leaves things as they were just when it comes before every mark. -/
theorem unchanged_iff {same : σ → Prop} (hx : Asks refused good tick T x u s Q)
    (hgood : Sound good (tick s) u) (hT : T false s)
    (hsame : ∀ s', T false s' → same s') (hshows : ∀ s', T true s' → ¬ same s') :
    (∀ e s', x s = (.error e, s') → same s') ↔ Demand.Spared refused (tick s) u := by
  have h := hx hgood false hT
  rw [Outcome] at h
  rcases hrun : x s with ⟨e | a, s'⟩
  · rw [hrun] at h
    obtain ⟨hnone, hT'⟩ := h
    rw [Demand.Spared, hnone]
    rw [Bool.false_or] at hT'
    cases hmarked : marked refused (tick s) u with
    | false =>
      rw [hmarked] at hT'
      simp only [Prod.mk.injEq, Except.error.injEq, and_imp]
      refine ⟨fun _ hm => (Bool.false_ne_true hm).elim, ?_⟩
      rintro - e' s'' - rfl
      exact hsame _ hT'
    | true =>
      rw [hmarked] at hT'
      refine ⟨fun hall => absurd (hall e s' rfl) (hshows s' hT'), fun hspared => ?_⟩
      exact absurd (hspared rfl) (by simp)
  · rw [hrun] at h
    rw [Demand.Spared, h.1]
    refine ⟨fun _ _ => rfl, ?_⟩
    rintro - e' s'' heq
    exact absurd (congrArg Prod.fst heq) (by simp)

end Asks

end Fallible

end Voleeo
