import Mathlib.Data.List.Basic
import Mathlib.Data.Nat.Basic
import Mathlib.Order.Basic

/-!
# Scans that step over what they find

A scan looks at places from left to right. From a place that it accepts it goes on `width` places
further. Where a scan filters its places afterwards, what it rejects can hide what it would have
accepted; here is when it finds as many places as a scan that only stops at accepted ones.
-/
namespace Voleeo.Scan

/-- The accepted places among the `n` places from `i` on, of which the first `skip` are left
out. -/
def places (p : ℕ → Bool) (width : ℕ) : ℕ → ℕ → ℕ → List ℕ
  | 0, _, _ => []
  | n + 1, i, skip =>
    if skip = 0 ∧ p i = true then i :: places p width n (i + 1) (width - 1)
    else places p width n (i + 1) (skip - 1)

attribute [local simp] places

/-- The places from `i` on that lie in front of `stop`. -/
def found (p : ℕ → Bool) (width stop i : ℕ) : List ℕ := places p width (stop - i) i 0

def count (p : ℕ → Bool) (width stop i : ℕ) : ℕ := (found p width stop i).length

variable {p q : ℕ → Bool} {width stop : ℕ}

theorem places_skip (n i skip : ℕ) :
    places p width n i skip = places p width (n - skip) (i + skip) 0 := by
  induction n generalizing i skip with
  | zero => rw [Nat.zero_sub]; rfl
  | succ n ih =>
    obtain _ | skip := skip
    · rfl
    · have hne : ¬ (skip + 1 = 0 ∧ p i = true) := fun h => Nat.succ_ne_zero skip h.1
      rw [places, if_neg hne, Nat.add_sub_cancel, ih, Nat.add_sub_add_right]
      congr 1
      omega

theorem places_of_none (h : ∀ i, p i = false) (n i skip : ℕ) : places p width n i skip = [] := by
  induction n generalizing i skip with
  | zero => rfl
  | succ n ih => rw [places, if_neg (by simp [h]), ih]

theorem length_places_le (n i skip : ℕ) : (places p width n i skip).length ≤ n := by
  induction n generalizing i skip with
  | zero => exact Nat.le_refl 0
  | succ n ih =>
    rw [places]
    split
    · exact Nat.succ_le_succ (ih _ _)
    · exact Nat.le_succ_of_le (ih _ _)

theorem count_le (i : ℕ) : count p width stop i ≤ stop - i := length_places_le _ _ _

theorem found_of_none (h : ∀ i, p i = false) (i : ℕ) : found p width stop i = [] :=
  places_of_none h _ _ _

/-! ## One place -/

theorem found_of_le {i : ℕ} (h : stop ≤ i) : found p width stop i = [] := by
  rw [found, Nat.sub_eq_zero_of_le h]
  rfl

theorem found_accept {i : ℕ} (hwidth : 0 < width) (hi : i < stop) (hp : p i = true) :
    found p width stop i = i :: found p width stop (i + width) := by
  obtain ⟨n, hn⟩ := Nat.exists_eq_succ_of_ne_zero (Nat.sub_ne_zero_of_lt hi)
  have hrest : n - (width - 1) = stop - (i + width) := by omega
  have hnext : i + 1 + (width - 1) = i + width := by omega
  rw [found, hn, Nat.succ_eq_add_one, places, if_pos ⟨rfl, hp⟩, places_skip, hrest, hnext]
  rfl

theorem found_reject {i : ℕ} (hp : p i = false) :
    found p width stop i = found p width stop (i + 1) := by
  by_cases hi : i < stop
  · obtain ⟨n, hn⟩ := Nat.exists_eq_succ_of_ne_zero (Nat.sub_ne_zero_of_lt hi)
    have hrest : n = stop - (i + 1) := by omega
    rw [found, hn, Nat.succ_eq_add_one, places, if_neg (by simp [hp]), hrest]
    rfl
  · rw [found_of_le (by omega), found_of_le (by omega)]

theorem count_of_le {i : ℕ} (h : stop ≤ i) : count p width stop i = 0 := by
  rw [count, found_of_le h]
  rfl

theorem count_accept {i : ℕ} (hwidth : 0 < width) (hi : i < stop) (hp : p i = true) :
    count p width stop i = count p width stop (i + width) + 1 := by
  rw [count, found_accept hwidth hi hp]
  rfl

theorem count_reject {i : ℕ} (hp : p i = false) :
    count p width stop i = count p width stop (i + 1) := by
  rw [count, found_reject hp]
  rfl

/-- What holds at the stop, and at a place when it holds behind it, holds everywhere. -/
theorem scan_induction {motive : ℕ → Prop} (stop : ℕ) (past : ∀ i, stop ≤ i → motive i)
    (step : ∀ i < stop, (∀ j > i, motive j) → motive i) (i : ℕ) : motive i := by
  induction hn : stop - i using Nat.strong_induction_on generalizing i with
  | _ n ih =>
    by_cases hi : stop ≤ i
    · exact past i hi
    · refine step i (by omega) fun j hj => ?_
      by_cases hj' : stop ≤ j
      · exact past j hj'
      · exact ih (stop - j) (by omega) j rfl

/-! ## What is found -/

theorem mem_found (hwidth : 0 < width) (i : ℕ) :
    ∀ c ∈ found p width stop i, i ≤ c ∧ c < stop ∧ p c = true := by
  induction i using scan_induction stop with
  | past i hi => rw [found_of_le hi]; simp
  | step i hi ih =>
    intro c hc
    by_cases hp : p i = true
    · rw [found_accept hwidth hi hp, List.mem_cons] at hc
      obtain rfl | hc := hc
      · exact ⟨le_rfl, hi, hp⟩
      · have hbehind := ih (i + width) (by omega) c hc
        exact ⟨by omega, hbehind.2⟩
    · rw [found_reject (Bool.eq_false_iff.mpr hp)] at hc
      have hbehind := ih (i + 1) (by omega) c hc
      exact ⟨by omega, hbehind.2⟩

theorem count_eq_zero_iff (hwidth : 0 < width) (i : ℕ) :
    count p width stop i = 0 ↔ ∀ j, i ≤ j → j < stop → p j = false := by
  induction i using scan_induction stop with
  | past i hi =>
    rw [count_of_le hi]
    exact iff_of_true rfl fun j hij hj => by omega
  | step i hi ih =>
    by_cases hp : p i = true
    · rw [count_accept hwidth hi hp]
      refine iff_of_false (Nat.succ_ne_zero _) fun h => ?_
      rw [h i le_rfl hi] at hp
      cases hp
    · rw [Bool.not_eq_true] at hp
      rw [count_reject hp, ih (i + 1) (by omega)]
      refine ⟨fun h j hij hj => ?_, fun h j hij hj => h j (by omega) hj⟩
      obtain rfl | hlt := Nat.eq_or_lt_of_le hij
      · exact hp
      · exact h j hlt hj

/-- A scan that begins less than a width later finds at most one place less, and no more. -/
theorem count_near (hwidth : 0 < width) (i : ℕ) : ∀ j, i ≤ j → j ≤ i + width →
    count p width stop j ≤ count p width stop i ∧
      count p width stop i ≤ count p width stop j + 1 := by
  induction i using scan_induction stop with
  | past i hi =>
    intro j hij _
    rw [count_of_le hi, count_of_le (Nat.le_trans hi hij)]
    omega
  | step i hi ih =>
    intro j hij hj
    obtain rfl | hlt := Nat.eq_or_lt_of_le hij
    · omega
    by_cases hp : p i = true
    · have hnear := ih j hlt (i + width) hj (by omega)
      rw [count_accept hwidth hi hp]
      omega
    · rw [count_reject (Bool.eq_false_iff.mpr hp)]
      exact ih (i + 1) (by omega) j hlt (by omega)

theorem count_succ_le (hwidth : 0 < width) {i j : ℕ} (hij : i ≤ j) (hj : j ≤ i + width) :
    count p width stop j ≤ count p width stop i :=
  (count_near hwidth i j hij hj).1

theorem count_eq_of_none {i j : ℕ} (hij : i ≤ j) (h : ∀ k, i ≤ k → k < j → p k = false) :
    count p width stop i = count p width stop j := by
  induction j, hij using Nat.le_induction with
  | base => rfl
  | succ j hij ih =>
    rw [ih fun k hik hk => h k hik (by omega), count_reject (h j hij (by omega))]

/-! ## Filtering afterwards -/

/-- What a scan keeps when it filters its places afterwards. -/
def kept (p q : ℕ → Bool) (width stop i : ℕ) : List ℕ := (found p width stop i).filter q

/-- No rejected place hides a place that would make the scan find more. -/
def HidesNothing (p q : ℕ → Bool) (width stop i : ℕ) : Prop :=
  ∀ c ∈ found p width stop i, q c = false →
    count q width stop (c + 1) ≤ count q width stop (c + width)

theorem length_kept_le (hwidth : 0 < width) (hqp : ∀ i, q i = true → p i = true) (i : ℕ) :
    (kept p q width stop i).length ≤ count q width stop i := by
  induction i using scan_induction stop with
  | past i hi => rw [kept, found_of_le hi]; exact Nat.zero_le _
  | step i hi ih =>
    by_cases hp : p i = true
    · have hbehind := ih (i + width) (by omega)
      rw [kept, found_accept hwidth hi hp]
      by_cases hq : q i = true
      · rw [List.filter_cons_of_pos hq, List.length_cons, count_accept hwidth hi hq]
        exact Nat.succ_le_succ hbehind
      · rw [List.filter_cons_of_neg hq, count_reject (Bool.eq_false_iff.mpr hq)]
        exact Nat.le_trans hbehind (count_succ_le hwidth (by omega) (by omega))
    · have hq : ¬ q i = true := fun h => hp (hqp i h)
      rw [kept, found_reject (Bool.eq_false_iff.mpr hp), count_reject (Bool.eq_false_iff.mpr hq)]
      exact ih (i + 1) (by omega)

/-- Filtering afterwards keeps as many places as there are to be found exactly where no rejected
place hides one. -/
theorem length_kept_eq_iff (hwidth : 0 < width) (hqp : ∀ i, q i = true → p i = true) (i : ℕ) :
    (kept p q width stop i).length = count q width stop i ↔ HidesNothing p q width stop i := by
  induction i using scan_induction stop with
  | past i hi =>
    rw [kept, HidesNothing, found_of_le hi, count_of_le hi]
    exact iff_of_true rfl (by simp)
  | step i hi ih =>
    by_cases hp : p i = true
    · have hbehind := ih (i + width) (by omega)
      rw [kept, HidesNothing, found_accept hwidth hi hp, List.forall_mem_cons]
      by_cases hq : q i = true
      · rw [List.filter_cons_of_pos hq, List.length_cons, count_accept hwidth hi hq,
          Nat.add_right_cancel_iff]
        refine hbehind.trans ⟨fun h => ⟨fun hno => ?_, h⟩, fun h => h.2⟩
        rw [hq] at hno
        cases hno
      · -- The place is stepped over, so what is kept lies behind the whole of it.
        have hle : (kept p q width stop (i + width)).length ≤ count q width stop (i + width) :=
          length_kept_le hwidth hqp _
        have hmono : count q width stop (i + width) ≤ count q width stop (i + 1) :=
          count_succ_le hwidth (by omega) (by omega)
        have hfalse := Bool.eq_false_iff.mpr hq
        rw [List.filter_cons_of_neg hq, count_reject hfalse]
        change (kept p q width stop (i + width)).length = _ ↔ _
        constructor
        · intro h
          exact ⟨fun _ => by omega, hbehind.mp (by omega)⟩
        · rintro ⟨hhead, hrest⟩
          have heq := hbehind.mpr hrest
          have hnone := hhead hfalse
          omega
    · have hq : ¬ q i = true := fun h => hp (hqp i h)
      rw [kept, HidesNothing, found_reject (Bool.eq_false_iff.mpr hp),
        count_reject (Bool.eq_false_iff.mpr hq)]
      exact ih (i + 1) (by omega)

end Voleeo.Scan
