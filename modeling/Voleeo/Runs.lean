import Mathlib.Data.List.Basic
import Mathlib.Data.List.Infix

/-!
# The most recent entries of a sequence

A log with a cap drops its oldest entries. Whatever drops them, after each entry
or in one go, keeps the same suffix.
-/
namespace Voleeo

variable {α β : Type}

/-- The last `n` entries. -/
def lastN (n : ℕ) (xs : List α) : List α := xs.drop (xs.length - n)

/-- Push an entry and drop the oldest ones beyond the cap. -/
def pushCapped (cap : ℕ) (xs : List α) (x : α) : List α :=
  let xs := xs ++ [x]
  if xs.length > cap then xs.drop (xs.length - cap) else xs

@[simp] theorem lastN_nil (n : ℕ) : lastN n ([] : List α) = [] := by
  simp [lastN]

theorem length_lastN_le (n : ℕ) (xs : List α) : (lastN n xs).length ≤ n := by
  rw [lastN, List.length_drop]
  omega

theorem pushCapped_eq (cap : ℕ) (xs : List α) (x : α) :
    pushCapped cap xs x = lastN cap (xs ++ [x]) := by
  rw [pushCapped, lastN]
  split_ifs with h
  · rfl
  · rw [show (xs ++ [x]).length - cap = 0 by omega, List.drop_zero]

theorem lastN_append_singleton (n : ℕ) (xs : List α) (x : α) :
    lastN n (lastN n xs ++ [x]) = lastN n (xs ++ [x]) := by
  simp only [lastN, List.length_append, List.length_drop, List.length_singleton]
  rw [← List.drop_append_of_le_length (by omega), List.drop_drop]
  congr 1
  omega

theorem pushCapped_lastN (cap : ℕ) (xs : List α) (x : α) :
    pushCapped cap (lastN cap xs) x = lastN cap (xs ++ [x]) := by
  rw [pushCapped_eq, lastN_append_singleton]

end Voleeo

/-!
## Runs of a step function

A run takes steps one after another. An invariant that each step keeps holds in
every state that a run reaches; where only some steps keep it, these steps tell
exactly which runs are good.
-/
namespace Voleeo.Runs

variable {α σ : Type}

/-- A run takes the steps in their order. -/
def run (step : σ → α → σ) (s : σ) (steps : List α) : σ := steps.foldl step s

theorem run_append (step : σ → α → σ) (s : σ) (front back : List α) :
    run step s (front ++ back) = run step (run step s front) back := List.foldl_append

/-- Where the steps that are taken under a condition keep an invariant, and any other step breaks
the property that the invariant is about, the property holds all along a run exactly if each step
meets the condition. -/
theorem holds_along_iff (step : σ → α → σ) (inv good : σ → Prop) (clean : σ → α → Prop)
    (hgood : ∀ s, inv s → good s)
    (hkeeps : ∀ s a, inv s → clean s a → inv (step s a))
    (hbreaks : ∀ s a, inv s → ¬ clean s a → ¬ good (step s a)) {s : σ} (hs : inv s)
    (steps : List α) :
    (∀ front, front <+: steps → good (run step s front)) ↔
      ∀ front a, front ++ [a] <+: steps → clean (run step s front) a := by
  induction steps generalizing s with
  | nil =>
    refine iff_of_true (fun front h => ?_) (fun front a h => ?_)
    · rw [List.prefix_nil.mp h]
      exact hgood s hs
    · exact absurd (List.prefix_nil.mp h) (by simp)
  | cons b steps ih =>
    constructor
    · intro h
      have hclean : clean s b := by
        by_contra hbad
        exact hbreaks s b hs hbad (h [b] (List.prefix_append [b] steps))
      have hrest := (ih (hkeeps s b hs hclean)).mp fun front hfront =>
        h (b :: front) (List.cons_prefix_cons.mpr ⟨rfl, hfront⟩)
      intro front a hfront
      cases front with
      | nil =>
        obtain rfl := (List.cons_prefix_cons.mp hfront).1
        exact hclean
      | cons c front =>
        obtain ⟨rfl, hbehind⟩ := List.cons_prefix_cons.mp hfront
        exact hrest front a hbehind
    · intro h
      have hclean := h [] b (List.prefix_append [b] steps)
      have hrest := (ih (hkeeps s b hs hclean)).mpr fun front a hfront =>
        h (b :: front) a (List.cons_prefix_cons.mpr ⟨rfl, hfront⟩)
      intro front hfront
      cases front with
      | nil => exact hgood s hs
      | cons c front =>
        obtain ⟨rfl, hbehind⟩ := List.cons_prefix_cons.mp hfront
        exact hrest front hbehind

end Voleeo.Runs
