import Mathlib.Data.List.Induction
import Mathlib.Data.List.Nodup

/-!
# Replace the first match, or append

An element is put into a list in the place of the first one that it matches, or
behind the last. Keys that were distinct stay distinct when the element takes no
key of another one.
-/
namespace Voleeo

variable {α κ : Type*}

def upsert (p : α → Bool) (replace : α → α) (fresh : α) : List α → List α
  | [] => [fresh]
  | x :: xs => if p x then replace x :: xs else x :: upsert p replace fresh xs

attribute [local simp] upsert

variable {p : α → Bool} {replace : α → α} {fresh y : α} {xs : List α}

theorem mem_upsert (h : y ∈ upsert p replace fresh xs) :
    y ∈ xs ∨ (y = fresh ∧ ∀ x ∈ xs, p x = false) ∨ ∃ x ∈ xs, p x = true ∧ y = replace x := by
  induction xs with
  | nil => exact Or.inr (Or.inl ⟨List.mem_singleton.mp h, by simp⟩)
  | cons x xs ih =>
    rw [upsert] at h
    split_ifs at h with hx
    · rcases List.mem_cons.mp h with rfl | h
      · exact Or.inr (Or.inr ⟨x, List.mem_cons_self, hx, rfl⟩)
      · exact Or.inl (List.mem_cons_of_mem _ h)
    · rcases List.mem_cons.mp h with rfl | h
      · exact Or.inl List.mem_cons_self
      · rcases ih h with hmem | ⟨rfl, hnone⟩ | ⟨z, hz, hpz, rfl⟩
        · exact Or.inl (List.mem_cons_of_mem _ hmem)
        · exact Or.inr (Or.inl ⟨rfl, List.forall_mem_cons.mpr ⟨by simpa using hx, hnone⟩⟩)
        · exact Or.inr (Or.inr ⟨z, List.mem_cons_of_mem _ hz, hpz, rfl⟩)

/-- The replacement may take the key of what it replaces, and the fresh element a new one. -/
theorem nodup_upsert (key : α → κ) (hxs : (xs.map key).Nodup)
    (hreplace : ∀ x ∈ xs, p x = true → ∀ y ∈ xs, key y = key (replace x) → key y = key x)
    (hfresh : (∀ x ∈ xs, p x = false) → ∀ x ∈ xs, key x ≠ key fresh) :
    ((upsert p replace fresh xs).map key).Nodup := by
  induction xs with
  | nil => simp [upsert]
  | cons x xs ih =>
    obtain ⟨hx, hrest⟩ := List.nodup_cons.mp hxs
    have hother : ∀ y ∈ xs, key y ≠ key x := fun y hy h =>
      hx (h ▸ List.mem_map_of_mem hy)
    rw [upsert]
    split_ifs with hp
    · refine List.nodup_cons.mpr ⟨fun hmem => ?_, hrest⟩
      obtain ⟨y, hy, hkey⟩ := List.mem_map.mp hmem
      exact hother y hy (hreplace x List.mem_cons_self hp y (List.mem_cons_of_mem _ hy) hkey)
    · refine List.nodup_cons.mpr ⟨fun hmem => ?_, ih hrest ?_ ?_⟩
      · obtain ⟨y, hy, hkey⟩ := List.mem_map.mp hmem
        rcases mem_upsert hy with hy | ⟨rfl, hnone⟩ | ⟨z, hz, hpz, rfl⟩
        · exact hother y hy hkey
        · have hall := List.forall_mem_cons.mpr ⟨by simpa using hp, hnone⟩
          exact hfresh hall x List.mem_cons_self hkey.symm
        · exact hother z hz (hreplace z (List.mem_cons_of_mem _ hz) hpz x List.mem_cons_self
            hkey.symm).symm
      · exact fun z hz hpz y hy => hreplace z (List.mem_cons_of_mem _ hz) hpz y
          (List.mem_cons_of_mem _ hy)
      · exact fun hnone z hz => hfresh (List.forall_mem_cons.mpr ⟨by simpa using hp, hnone⟩) z
          (List.mem_cons_of_mem _ hz)

/-- An upsert does not show among elements of which it is none. -/
theorem filter_upsert {q : α → Bool} (hp : ∀ x, p x = true → q x = false ∧ q (replace x) = false)
    (hfresh : q fresh = false) : (upsert p replace fresh xs).filter q = xs.filter q := by
  induction xs with
  | nil => simp [upsert, hfresh]
  | cons x xs ih =>
    rw [upsert]
    split_ifs with hx
    · rw [List.filter_cons_of_neg (by simp [(hp x hx).2]),
        List.filter_cons_of_neg (by simp [(hp x hx).1])]
    · rw [List.filter_cons, List.filter_cons, ih]

theorem map_upsert {β : Type*} (g : α → β) {q : β → Bool} {r : β → β}
    (hp : ∀ x, p x = q (g x)) (hreplace : ∀ x, p x = true → g (replace x) = r (g x)) :
    (upsert p replace fresh xs).map g = upsert q r (g fresh) (xs.map g) := by
  induction xs with
  | nil => rfl
  | cons x xs ih =>
    rw [upsert, List.map_cons, upsert, ← hp]
    split_ifs with hx
    · rw [List.map_cons, hreplace x hx]
    · rw [List.map_cons, ih]

/-- Where both lists match at the same places, they do so behind the upsert. -/
theorem forall₂_upsert {β : Type*} {R : α → β → Prop} {q : β → Bool} {replace' : β → β}
    {fresh' : β} {ys : List β} (h : List.Forall₂ R xs ys) (hp : ∀ x y, R x y → p x = q y)
    (hreplace : ∀ x ∈ xs, ∀ y, R x y → p x = true → R (replace x) (replace' y))
    (hfresh : (∀ x ∈ xs, p x = false) → R fresh fresh') :
    List.Forall₂ R (upsert p replace fresh xs) (upsert q replace' fresh' ys) := by
  induction h with
  | nil => exact List.Forall₂.cons (hfresh (by simp)) List.Forall₂.nil
  | @cons x y xs ys hxy hrest ih =>
    rw [upsert, upsert, ← hp x y hxy]
    split_ifs with hx
    · exact List.Forall₂.cons (hreplace x List.mem_cons_self y hxy hx) hrest
    · refine List.Forall₂.cons hxy (ih (fun z hz => hreplace z (List.mem_cons_of_mem x hz)) ?_)
      exact fun hnone => hfresh (List.forall_mem_cons.mpr ⟨by simpa using hx, hnone⟩)

/-! ## Logs of keyed elements -/

section
variable [DecidableEq κ] (key : α → κ) (merge : α → α → α)

/-- An element is merged with the first one of its key, in that one's place. -/
def upsertBy (x : α) (xs : List α) : List α :=
  upsert (fun y => decide (key y = key x)) (merge x) x xs

/-- The elements of a log enter a list one after another. -/
def replay (log xs : List α) : List α := log.foldl (fun xs x => upsertBy key merge x xs) xs

/-- Merging keeps the key, and it does not matter which two are merged first. -/
structure Merges : Prop where
  keeps : ∀ x y, key y = key x → key (merge x y) = key x
  assoc : ∀ x y z, key y = key x → key z = key y → merge x (merge y z) = merge (merge x y) z

end

section
variable [DecidableEq κ] {key : α → κ} {merge : α → α → α} {x y : α} {xs log : List α}

theorem upsertBy_cons_self (h : key y = key x) :
    upsertBy key merge x (y :: xs) = merge x y :: xs := by
  simp [upsertBy, upsert, h]

theorem upsertBy_cons_of_ne (h : key y ≠ key x) :
    upsertBy key merge x (y :: xs) = y :: upsertBy key merge x xs := by
  simp [upsertBy, upsert, h]

theorem keys_upsertBy_of_notMem (h : key x ∉ xs.map key) :
    (upsertBy key merge x xs).map key = xs.map key ++ [key x] := by
  induction xs with
  | nil => rfl
  | cons y ys ih =>
    rw [List.map_cons, List.mem_cons, not_or] at h
    rw [upsertBy_cons_of_ne (Ne.symm h.1), List.map_cons, List.map_cons, ih h.2, List.cons_append]

theorem keys_upsertBy_of_mem (hm : Merges key merge) (h : key x ∈ xs.map key) :
    (upsertBy key merge x xs).map key = xs.map key := by
  induction xs with
  | nil => cases h
  | cons y ys ih =>
    by_cases hy : key y = key x
    · rw [upsertBy_cons_self hy, List.map_cons, List.map_cons, hm.keeps x y hy, hy]
    · rw [upsertBy_cons_of_ne hy, List.map_cons, List.map_cons, ih]
      simpa [Ne.symm hy] using h

theorem nodup_upsertBy (hm : Merges key merge) (h : (xs.map key).Nodup) :
    ((upsertBy key merge x xs).map key).Nodup := by
  by_cases hmem : key x ∈ xs.map key
  · rwa [keys_upsertBy_of_mem hm hmem]
  · rw [keys_upsertBy_of_notMem hmem, ← List.concat_eq_append]
    exact List.Nodup.concat hmem h

theorem mem_keys_upsertBy (hm : Merges key merge) {k : κ} :
    k ∈ (upsertBy key merge x xs).map key ↔ k = key x ∨ k ∈ xs.map key := by
  by_cases hmem : key x ∈ xs.map key
  · rw [keys_upsertBy_of_mem hm hmem]
    exact (or_iff_right_of_imp fun h => h ▸ hmem).symm
  · rw [keys_upsertBy_of_notMem hmem, List.mem_append, List.mem_singleton, or_comm]

/-- Two elements of one key in a row are merged first. -/
theorem upsertBy_upsertBy_self (hm : Merges key merge) (h : key y = key x) :
    upsertBy key merge x (upsertBy key merge y xs) = upsertBy key merge (merge x y) xs := by
  have hmerged : key (merge x y) = key x := hm.keeps x y h
  induction xs with
  | nil => exact upsertBy_cons_self h
  | cons z zs ih =>
    by_cases hz : key z = key y
    · rw [upsertBy_cons_self hz, upsertBy_cons_self ((hm.keeps y z hz).trans h),
        upsertBy_cons_self (hz.trans (h.trans hmerged.symm)), hm.assoc x y z h hz]
    · rw [upsertBy_cons_of_ne hz, upsertBy_cons_of_ne (h ▸ hz),
        upsertBy_cons_of_ne (hmerged ▸ h ▸ hz), ih]

/-- An element that finds its key changes places with one of another key. -/
theorem upsertBy_comm (hm : Merges key merge) (hne : key y ≠ key x) (h : key x ∈ xs.map key) :
    upsertBy key merge y (upsertBy key merge x xs) =
      upsertBy key merge x (upsertBy key merge y xs) := by
  induction xs with
  | nil => cases h
  | cons z zs ih =>
    by_cases hzx : key z = key x
    · have hzy : key z ≠ key y := fun hzy => hne (hzy.symm.trans hzx)
      have hmerged : key (merge x z) ≠ key y := by rwa [hm.keeps x z hzx, ne_comm]
      rw [upsertBy_cons_self hzx, upsertBy_cons_of_ne hzy, upsertBy_cons_self hzx,
        upsertBy_cons_of_ne hmerged]
    · rw [upsertBy_cons_of_ne hzx]
      by_cases hzy : key z = key y
      · have hmerged : key (merge y z) ≠ key x := by rwa [hm.keeps y z hzy]
        rw [upsertBy_cons_self hzy, upsertBy_cons_self hzy, upsertBy_cons_of_ne hmerged]
      · have hrest : key x ∈ zs.map key := by simpa [Ne.symm hzx] using h
        rw [upsertBy_cons_of_ne hzy, upsertBy_cons_of_ne hzy, upsertBy_cons_of_ne hzx, ih hrest]

theorem replay_cons :
    replay key merge (x :: log) xs = replay key merge log (upsertBy key merge x xs) :=
  rfl

theorem replay_concat :
    replay key merge (log ++ [x]) xs = upsertBy key merge x (replay key merge log xs) := by
  rw [replay, List.foldl_append]
  rfl

theorem nodup_replay (hm : Merges key merge) (h : (xs.map key).Nodup) :
    ((replay key merge log xs).map key).Nodup := by
  induction log generalizing xs with
  | nil => exact h
  | cons x log ih => exact ih (nodup_upsertBy hm h)

/-- An element that finds its key may come before a log without that key. -/
theorem replay_upsertBy (hm : Merges key merge) (hlog : key x ∉ log.map key)
    (h : key x ∈ xs.map key) :
    replay key merge log (upsertBy key merge x xs) =
      upsertBy key merge x (replay key merge log xs) := by
  induction log generalizing xs with
  | nil => rfl
  | cons y log ih =>
    rw [List.map_cons, List.mem_cons, not_or] at hlog
    rw [replay_cons, replay_cons, upsertBy_comm hm (Ne.symm hlog.1) h]
    exact ih hlog.2 ((mem_keys_upsertBy hm).mpr (Or.inr h))

/-- An element enters the compacted log or the list that the log has entered. -/
theorem replay_upsertBy_log (hm : Merges key merge) (hlog : (log.map key).Nodup) :
    replay key merge (upsertBy key merge x log) xs =
      upsertBy key merge x (replay key merge log xs) := by
  induction log generalizing xs with
  | nil => rfl
  | cons y log ih =>
    obtain ⟨hy, hrest⟩ := List.nodup_cons.mp hlog
    by_cases hyx : key y = key x
    · rw [upsertBy_cons_self hyx, replay_cons, replay_cons, ← upsertBy_upsertBy_self hm hyx]
      exact replay_upsertBy hm (hyx ▸ hy) ((mem_keys_upsertBy hm).mpr (Or.inl hyx.symm))
    · rw [upsertBy_cons_of_ne hyx, replay_cons, replay_cons, ih hrest]

/-- A log may be compacted on its own before it enters a list. -/
theorem replay_replay_nil (hm : Merges key merge) :
    replay key merge (replay key merge log []) xs = replay key merge log xs := by
  induction log using List.reverseRecOn with
  | nil => rfl
  | append_singleton log x ih =>
    have hlog : ((replay key merge log []).map key).Nodup := nodup_replay hm List.nodup_nil
    rw [replay_concat, replay_concat, replay_upsertBy_log hm hlog, ih]

end

end Voleeo
