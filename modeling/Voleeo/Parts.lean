import Mathlib.Tactic

/-!
# Lists in parts

A list that consists of one part for each element of another list, where the
element and its part stand in a given relation.
-/
namespace Voleeo

variable {α β γ ε : Type}

theorem ok_of_bind {x : Except ε α} {f : α → Except ε β} {b : β} (h : (x >>= f) = .ok b) :
    ∃ a, x = .ok a ∧ f a = .ok b := by
  cases x with
  | error e => cases h
  | ok a => exact ⟨a, rfl, h⟩

theorem ok_bind (a : α) (f : α → Except ε β) : ((.ok a : Except ε α) >>= f) = f a := rfl

/-- A list splits in one way where a property holds up to the split and fails right behind it. -/
theorem append_inj_of_split {α : Type*} {P : α → Prop} {as bs cs ds : List α}
    (h : as ++ bs = cs ++ ds) (has : ∀ a ∈ as, P a) (hbs : ∀ a ∈ bs.head?, ¬ P a)
    (hcs : ∀ a ∈ cs, P a) (hds : ∀ a ∈ ds.head?, ¬ P a) : as = cs ∧ bs = ds := by
  induction as generalizing cs with
  | nil =>
    cases cs with
    | nil => exact ⟨rfl, h⟩
    | cons c cs =>
      rw [List.nil_append] at h
      exact absurd (hcs c List.mem_cons_self) (hbs c (by rw [h]; rfl))
  | cons a as ih =>
    cases cs with
    | nil =>
      rw [List.nil_append] at h
      exact absurd (has a List.mem_cons_self) (hds a (by rw [← h]; rfl))
    | cons c cs =>
      obtain ⟨rfl, htail⟩ := List.cons.inj h
      obtain ⟨rfl, rfl⟩ := ih htail (fun x hx => has x (List.mem_cons_of_mem _ hx))
        fun x hx => hcs x (List.mem_cons_of_mem _ hx)
      exact ⟨rfl, rfl⟩

/-- `out` consists of one part for each element. -/
def Parts (R : α → List β → Prop) : List α → List β → Prop
  | [], out => out = []
  | x :: xs, out => ∃ part rest, out = part ++ rest ∧ R x part ∧ Parts R xs rest

namespace Parts

theorem cons {R : α → List β → Prop} {x : α} {xs : List α} {part rest : List β}
    (hx : R x part) (h : Parts R xs rest) : Parts R (x :: xs) (part ++ rest) :=
  ⟨part, rest, rfl, hx, h⟩

theorem singleton_iff {R : α → List β → Prop} {x : α} {out : List β} :
    Parts R [x] out ↔ R x out := by
  constructor
  · rintro ⟨part, rest, rfl, hx, rfl⟩
    rwa [List.append_nil]
  · intro hx
    exact ⟨out, [], (List.append_nil out).symm, hx, rfl⟩

theorem of_forall {R : α → List β → Prop} {f : α → List β} {xs : List α}
    (h : ∀ x ∈ xs, R x (f x)) : Parts R xs (xs.flatMap f) := by
  induction xs with
  | nil => rfl
  | cons x xs ih =>
    exact cons (h x List.mem_cons_self) (ih fun y hy => h y (List.mem_cons_of_mem _ hy))

theorem mono {R S : α → List β → Prop} {xs : List α} (h : ∀ x ∈ xs, ∀ part, R x part → S x part)
    {out : List β} (hparts : Parts R xs out) : Parts S xs out := by
  induction xs generalizing out with
  | nil => exact hparts
  | cons x xs ih =>
    obtain ⟨part, rest, rfl, hx, hrest⟩ := hparts
    exact cons (h x List.mem_cons_self part hx)
      (ih (fun y hy => h y (List.mem_cons_of_mem _ hy)) hrest)

theorem append_iff {R : α → List β → Prop} {xs ys : List α} {out : List β} :
    Parts R (xs ++ ys) out ↔ ∃ a b, out = a ++ b ∧ Parts R xs a ∧ Parts R ys b := by
  induction xs generalizing out with
  | nil =>
    constructor
    · intro h
      exact ⟨[], out, rfl, rfl, h⟩
    · rintro ⟨a, b, rfl, rfl, h⟩
      exact h
  | cons x xs ih =>
    constructor
    · rintro ⟨part, rest, rfl, hx, hrest⟩
      obtain ⟨a, b, rfl, ha, hb⟩ := ih.mp hrest
      exact ⟨part ++ a, b, by rw [List.append_assoc], cons hx ha, hb⟩
    · rintro ⟨a, b, rfl, ⟨part, rest, rfl, hx, hrest⟩, hb⟩
      exact ⟨part, rest ++ b, by rw [List.append_assoc], hx, ih.mpr ⟨rest, b, rfl, hrest, hb⟩⟩

theorem map_iff {R : β → List γ → Prop} {f : α → β} {xs : List α} {out : List γ} :
    Parts R (xs.map f) out ↔ Parts (fun x => R (f x)) xs out := by
  induction xs generalizing out with
  | nil => rfl
  | cons x xs ih =>
    simp only [List.map_cons, Parts, ih]

/-- Parts of the lists that elements expand to are parts of the elements. -/
theorem flatMap_iff {R : β → List γ → Prop} {f : α → List β} {xs : List α} {out : List γ} :
    Parts R (xs.flatMap f) out ↔ Parts (fun x => Parts R (f x)) xs out := by
  induction xs generalizing out with
  | nil => rfl
  | cons x xs ih =>
    rw [List.flatMap_cons, append_iff]
    simp only [ih, Parts]

/-- The results of a traversal that succeeds, put together. -/
theorem of_mapM {f : α → Except ε (List β)} {xs : List α} {parts : List (List β)}
    (h : xs.mapM f = .ok parts) : Parts (fun x part => f x = .ok part) xs parts.flatten := by
  induction xs generalizing parts with
  | nil =>
    rw [List.mapM_nil] at h
    cases h
    rfl
  | cons x xs ih =>
    rw [List.mapM_cons] at h
    obtain ⟨part, hx, h⟩ := ok_of_bind h
    obtain ⟨rest, hxs, h⟩ := ok_of_bind h
    cases h
    exact cons hx (ih hxs)

theorem mapM_of {f : α → Except ε β} {g : α → β} {xs : List α}
    (h : ∀ x ∈ xs, f x = .ok (g x)) : xs.mapM f = .ok (xs.map g) := by
  induction xs with
  | nil => rfl
  | cons x xs ih =>
    rw [List.mapM_cons, h x List.mem_cons_self, ih fun y hy => h y (List.mem_cons_of_mem _ hy)]
    rfl

/-- A traversal whose steps all succeed with parts of their own. -/
theorem exists_mapM {R : α → List β → Prop} {f : α → Except ε (List β)} {xs : List α}
    (h : ∀ x ∈ xs, ∃ part, f x = .ok part ∧ R x part) :
    ∃ parts, xs.mapM f = .ok parts ∧ Parts R xs parts.flatten := by
  induction xs with
  | nil => exact ⟨[], rfl, rfl⟩
  | cons x xs ih =>
    obtain ⟨part, hx, hR⟩ := h x List.mem_cons_self
    obtain ⟨parts, hxs, hparts⟩ := ih fun y hy => h y (List.mem_cons_of_mem _ hy)
    refine ⟨part :: parts, ?_, cons hR hparts⟩
    rw [List.mapM_cons, hx, hxs]
    rfl

end Parts

theorem forall₂_of_mapM {f : α → Except ε β} {xs : List α} {ys : List β}
    (h : xs.mapM f = .ok ys) : List.Forall₂ (fun x y => f x = .ok y) xs ys := by
  induction xs generalizing ys with
  | nil =>
    rw [List.mapM_nil] at h
    cases h
    exact .nil
  | cons x xs ih =>
    rw [List.mapM_cons] at h
    obtain ⟨y, hx, h⟩ := ok_of_bind h
    obtain ⟨rest, hxs, h⟩ := ok_of_bind h
    cases h
    exact .cons hx (ih hxs)

/-- A traversal keeps what each of its steps keeps. -/
theorem map_eq_of_mapM {f : α → Except ε β} {g : α → γ} {k : β → γ} {xs : List α} {ys : List β}
    (hf : ∀ x y, f x = .ok y → k y = g x) (h : xs.mapM f = .ok ys) : ys.map k = xs.map g := by
  have hrel := forall₂_of_mapM h
  clear h
  induction hrel with
  | nil => rfl
  | cons hxy _ ih => rw [List.map_cons, List.map_cons, hf _ _ hxy, ih]

theorem exists_of_mem_forall₂ {R : α → β → Prop} {xs : List α} {ys : List β}
    (h : List.Forall₂ R xs ys) {y : β} (hy : y ∈ ys) : ∃ x ∈ xs, R x y := by
  induction h with
  | nil => cases hy
  | cons hstep _ ih =>
    rcases List.mem_cons.mp hy with rfl | hy
    · exact ⟨_, List.mem_cons_self, hstep⟩
    · obtain ⟨x, hx, hf⟩ := ih hy
      exact ⟨x, List.mem_cons_of_mem _ hx, hf⟩

/-- Each result of a traversal comes from one of the elements. -/
theorem exists_of_mem_mapM {f : α → Except ε β} {xs : List α} {ys : List β}
    (h : xs.mapM f = .ok ys) {y : β} (hy : y ∈ ys) : ∃ x ∈ xs, f x = .ok y :=
  exists_of_mem_forall₂ (forall₂_of_mapM h) hy

/-- A traversal succeeds with the values that its steps give one by one. -/
theorem mapM_eq_ok_iff {f : α → Except ε β} {xs : List α} {ys : List β} :
    xs.mapM f = .ok ys ↔ ys.length = xs.length ∧
      ∀ (i : ℕ) x, xs[i]? = some x → ∃ y, ys[i]? = some y ∧ f x = .ok y := by
  induction xs generalizing ys with
  | nil =>
    rw [List.mapM_nil]
    constructor
    · intro h
      cases h
      exact ⟨rfl, by simp⟩
    · rintro ⟨hlen, -⟩
      rw [List.eq_nil_of_length_eq_zero hlen]
      rfl
  | cons x xs ih =>
    rw [List.mapM_cons]
    constructor
    · intro h
      obtain ⟨y, hx, h⟩ := ok_of_bind h
      obtain ⟨rest, hxs, h⟩ := ok_of_bind h
      cases h
      obtain ⟨hlen, hrest⟩ := ih.mp hxs
      refine ⟨by simp [hlen], fun i z hz => ?_⟩
      cases i with
      | zero =>
        obtain rfl : x = z := by simpa using hz
        exact ⟨y, by simp, hx⟩
      | succ i =>
        obtain ⟨w, hw, hf⟩ := hrest i z (by simpa using hz)
        exact ⟨w, by simpa using hw, hf⟩
    · rintro ⟨hlen, hsteps⟩
      cases ys with
      | nil => cases hlen
      | cons y rest =>
        obtain ⟨y', hy', hx⟩ := hsteps 0 x (by simp)
        obtain rfl : y = y' := by simpa using hy'
        have hrest : xs.mapM f = .ok rest := by
          refine ih.mpr ⟨by simpa using hlen, fun i z hz => ?_⟩
          obtain ⟨w, hw, hf⟩ := hsteps (i + 1) z (by simpa using hz)
          exact ⟨w, by simpa using hw, hf⟩
        rw [hx, hrest]
        rfl

theorem foldlM_of {f : β → α → Except ε β} {g : β → α → β} {xs : List α}
    (h : ∀ x ∈ xs, ∀ b, f b x = .ok (g b x)) (b : β) : xs.foldlM f b = .ok (xs.foldl g b) := by
  induction xs generalizing b with
  | nil => rfl
  | cons x xs ih =>
    rw [List.foldlM_cons, h x List.mem_cons_self]
    exact ih (fun y hy => h y (List.mem_cons_of_mem _ hy)) _

/-! ## Traversals with options -/

theorem mapM_eq_some {f : α → Option β} {xs : List α} {ys : List β} :
    xs.mapM f = some ys ↔ List.Forall₂ (fun x y => f x = some y) xs ys := by
  induction xs generalizing ys with
  | nil => simp [eq_comm]
  | cons x xs ih =>
    rw [List.mapM_cons, List.forall₂_cons_left_iff]
    constructor
    · intro h
      obtain ⟨y, hy, h⟩ := Option.bind_eq_some_iff.mp h
      obtain ⟨rest, hrest, h⟩ := Option.bind_eq_some_iff.mp h
      cases h
      exact ⟨y, rest, hy, ih.mp hrest, rfl⟩
    · rintro ⟨y, rest, hy, hrest, rfl⟩
      rw [hy, ih.mpr hrest]
      rfl

theorem exists_mapM_eq_some {f : α → Option β} {xs : List α} (h : ∀ x ∈ xs, ∃ y, f x = some y) :
    ∃ ys, xs.mapM f = some ys := by
  induction xs with
  | nil => exact ⟨[], rfl⟩
  | cons x xs ih =>
    obtain ⟨y, hy⟩ := h x List.mem_cons_self
    obtain ⟨rest, hrest⟩ := ih fun z hz => h z (List.mem_cons_of_mem _ hz)
    exact ⟨y :: rest, by rw [List.mapM_cons, hy, hrest]; rfl⟩

end Voleeo
