import Mathlib.Tactic
import Mathlib.Data.List.Perm.Subperm
import Mathlib.Logic.Relation

/-!
# Visited keys

The measure of a traversal that never enters a key twice: the rows whose keys
have not been visited become fewer with each visit.
-/
namespace Voleeo

variable {α κ : Type*} [DecidableEq κ]

def unvisited (keyOf : α → κ) (rows : List α) (visited : List κ) : List α :=
  rows.filter fun row => keyOf row ∉ visited

theorem unvisited_lt {keyOf : α → κ} {rows : List α} {visited : List κ} {row : α} {key : κ}
    (hmem : row ∈ rows) (hkey : keyOf row = key) (hv : key ∉ visited) :
    (unvisited keyOf rows (key :: visited)).length < (unvisited keyOf rows visited).length := by
  have hsub : unvisited keyOf rows (key :: visited) =
      (unvisited keyOf rows visited).filter fun row => keyOf row ≠ key := by
    unfold unvisited
    rw [List.filter_filter]
    apply List.filter_congr
    intro row _
    simp
  rw [hsub]
  apply List.length_filter_lt_length_iff_exists.mpr
  exact ⟨row, List.mem_filter.mpr ⟨hmem, by simpa [hkey] using hv⟩, by simp [hkey]⟩

theorem unvisited_length_le {keyOf : α → κ} {rows : List α} {visited visited' : List κ}
    (h : visited ⊆ visited') :
    (unvisited keyOf rows visited').length ≤ (unvisited keyOf rows visited).length := by
  refine (List.monotone_filter_right rows fun row hrow => ?_).length_le
  simp only [decide_eq_true_eq] at hrow ⊢
  exact fun hmem => hrow (h hmem)

end Voleeo

/-!
## Walks without loops

A walk follows the steps of a relation. When the steps lead to finitely many places, the walks from
a place are bounded exactly where none of them comes to a place that leads back to itself.
-/
namespace Voleeo

variable {α : Type} {R : α → α → Prop} {a b c : α}

/-- A walk of so many steps. -/
inductive Steps (R : α → α → Prop) : ℕ → α → α → Prop
  | refl (a : α) : Steps R 0 a a
  | head {a b c : α} {n : ℕ} : R a b → Steps R n b c → Steps R (n + 1) a c

theorem Steps.trans {m n : ℕ} (h : Steps R m a b) (h' : Steps R n b c) : Steps R (m + n) a c := by
  induction h with
  | refl => rwa [Nat.zero_add]
  | head hstep _ ih =>
    rw [Nat.add_right_comm]
    exact .head hstep (ih h')

theorem exists_steps (h : Relation.ReflTransGen R a b) : ∃ n, Steps R n a b := by
  induction h using Relation.ReflTransGen.head_induction_on with
  | refl => exact ⟨0, .refl b⟩
  | head hstep _ ih =>
    obtain ⟨n, hn⟩ := ih
    exact ⟨n + 1, .head hstep hn⟩

theorem exists_steps_pos (h : Relation.TransGen R a b) : ∃ n, Steps R (n + 1) a b := by
  obtain ⟨c, hstep, hrest⟩ := Relation.TransGen.head'_iff.mp h
  obtain ⟨n, hn⟩ := exists_steps hrest
  exact ⟨n, .head hstep hn⟩

/-- No walk from the place comes to one that leads back to itself. -/
def NoLoop (R : α → α → Prop) (a : α) : Prop :=
  ∀ b, Relation.ReflTransGen R a b → ¬ Relation.TransGen R b b

/-- A loop is walked as often as one likes. -/
theorem unbounded_of_loop (hreach : Relation.ReflTransGen R a b) (hloop : Relation.TransGen R b b)
    (n : ℕ) : ∃ k, n ≤ k ∧ Steps R k a b := by
  induction n with
  | zero =>
    obtain ⟨k, hk⟩ := exists_steps hreach
    exact ⟨k, Nat.zero_le k, hk⟩
  | succ n ih =>
    obtain ⟨k, hn, hk⟩ := ih
    obtain ⟨m, hm⟩ := exists_steps_pos hloop
    exact ⟨k + (m + 1), by omega, hk.trans hm⟩

/-- The places that a walk without loops comes to are different. -/
theorem Steps.exists_places {n : ℕ} (h : Steps R n a b) (hno : NoLoop R a) :
    ∃ places : List α, places.length = n ∧ places.Nodup ∧
      ∀ c ∈ places, Relation.TransGen R a c ∧ ∃ d, R d c := by
  induction h with
  | refl => exact ⟨[], rfl, List.nodup_nil, by simp⟩
  | @head a b c n hstep _ ih =>
    have hrest : NoLoop R b := fun d hd => hno d (.head hstep hd)
    obtain ⟨places, hlength, hnodup, hplaces⟩ := ih hrest
    refine ⟨b :: places, by rw [List.length_cons, hlength], ?_, ?_⟩
    · refine List.nodup_cons.mpr ⟨fun hmem => ?_, hnodup⟩
      exact hrest b .refl (hplaces b hmem).1
    · intro d hd
      rcases List.mem_cons.mp hd with rfl | hd
      · exact ⟨.single hstep, a, hstep⟩
      · exact ⟨.head hstep (hplaces d hd).1, (hplaces d hd).2⟩

/-- Without a loop a walk has no more steps than there are places to come to. -/
theorem Steps.le_of_noLoop {targets : List α} {n : ℕ} (h : Steps R n a b) (hno : NoLoop R a)
    (htargets : ∀ d c, R d c → c ∈ targets) : n ≤ targets.length := by
  obtain ⟨places, rfl, hnodup, hplaces⟩ := h.exists_places hno
  refine (List.subperm_of_subset hnodup fun c hc => ?_).length_le
  obtain ⟨-, d, hstep⟩ := hplaces c hc
  exact htargets d c hstep

theorem noLoop_of_bounded {n : ℕ} (h : ∀ k b, Steps R k a b → k < n) : NoLoop R a := by
  intro b hreach hloop
  obtain ⟨k, hk, hsteps⟩ := unbounded_of_loop hreach hloop n
  exact absurd (h k b hsteps) (Nat.not_lt.mpr hk)

/-- Where no place leads back to itself, the steps to finitely many places come to an end. -/
theorem wellFounded_of_no_loop {targets : List α}
    (htargets : ∀ a b, R a b → b ∈ targets) (hno : ∀ a, ¬ Relation.TransGen R a a) :
    WellFounded fun b a => R a b := by
  have hacc : ∀ n a, (∀ m b, Steps R m a b → m < n) → Acc (fun b a => R a b) a := by
    intro n
    induction n with
    | zero => exact fun a h => absurd (h 0 a (.refl a)) (Nat.lt_irrefl 0)
    | succ n ih =>
      refine fun a h => .intro a fun b hb => ih b fun m c hsteps => ?_
      have := h (m + 1) c (.head hb hsteps)
      omega
  refine ⟨fun a => hacc (targets.length + 1) a fun m b hsteps => ?_⟩
  have := hsteps.le_of_noLoop (fun c _ => hno c) htargets
  omega

/-- A weight that is the sum of the weights below and something more. -/
theorem exists_weight (hwf : WellFounded R) (below : α → List α)
    (hbelow : ∀ a, ∀ b ∈ below a, R b a) (extra : α → ℕ) :
    ∃ w : α → ℕ, ∀ a, w a = extra a + ((below a).map w).sum := by
  refine ⟨hwf.fix fun a w => extra a + ((below a).attach.map fun b => w b.1 (hbelow a b.1 b.2)).sum,
    fun a => ?_⟩
  rw [hwf.fix_eq]
  simp only [List.map_attach_eq_pmap, List.pmap_eq_map]

end Voleeo
