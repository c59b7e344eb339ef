import Mathlib.Data.List.Nodup
import Mathlib.Data.List.Perm.Lattice
import Mathlib.Tactic

/-!
# Insertion-ordered maps

A map that remembers the order in which its keys first arrived. Writing to a
key that is already present replaces the value in place; a new key goes to the
end. The no-duplicate-keys invariant is carried by the structure, so lookups
and traversals never have to re-prove it.
-/
namespace Voleeo

/-- Entries in first-arrival order of their keys. -/
structure OrderedMap (κ ν : Type*) where
  entries : List (κ × ν)
  nodup : (entries.map Prod.fst).Nodup

namespace OrderedMap

variable {κ ν α : Type*} [DecidableEq κ]

/-- Overwrite the value of a present key in place, or append a new entry. -/
def setEntry (k : κ) (v : ν) : List (κ × ν) → List (κ × ν)
  | [] => [(k, v)]
  | e :: rest => if e.1 = k then (k, v) :: rest else e :: setEntry k v rest

theorem keys_setEntry (k : κ) (v : ν) (es : List (κ × ν)) :
    (setEntry k v es).map Prod.fst =
      if k ∈ es.map Prod.fst then es.map Prod.fst else es.map Prod.fst ++ [k] := by
  induction es with
  | nil => simp [setEntry]
  | cons e rest ih =>
    by_cases h : e.1 = k
    · simp [setEntry, h]
    · have hk : k ≠ e.1 := fun hk => h hk.symm
      by_cases hm : k ∈ rest.map Prod.fst
      · rw [if_pos hm] at ih
        rw [if_pos (by simp only [List.map_cons, List.mem_cons]; exact Or.inr hm)]
        simp only [setEntry, if_neg h, List.map_cons, ih]
      · rw [if_neg hm] at ih
        rw [if_neg (by simp only [List.map_cons, List.mem_cons, not_or]; exact ⟨hk, hm⟩)]
        simp only [setEntry, if_neg h, List.map_cons, ih, List.cons_append]

theorem nodup_setEntry (k : κ) (v : ν) {es : List (κ × ν)}
    (h : (es.map Prod.fst).Nodup) : ((setEntry k v es).map Prod.fst).Nodup := by
  rw [keys_setEntry]
  split_ifs with hm
  · exact h
  · simpa [List.nodup_append] using ⟨h, fun a b hb ha => hm (by
      subst ha; exact List.mem_map.mpr ⟨(a, b), hb, rfl⟩)⟩

def empty : OrderedMap κ ν := ⟨[], by simp⟩

def set (m : OrderedMap κ ν) (k : κ) (v : ν) : OrderedMap κ ν :=
  ⟨setEntry k v m.entries, nodup_setEntry k v m.nodup⟩

@[simp] theorem entries_set (m : OrderedMap κ ν) (k : κ) (v : ν) :
    (m.set k v).entries = setEntry k v m.entries := rfl

/-- Write the rows one after another into an empty map. -/
def ofList (rows : List (κ × ν)) : OrderedMap κ ν :=
  rows.foldl (fun m row => m.set row.1 row.2) empty

def get? (m : OrderedMap κ ν) (k : κ) : Option ν := m.entries.lookup k

def keys (m : OrderedMap κ ν) : List κ := m.entries.map Prod.fst

def values (m : OrderedMap κ ν) : List ν := m.entries.map Prod.snd

omit [DecidableEq κ] in
theorem nodup_keys (m : OrderedMap κ ν) : m.keys.Nodup := m.nodup

@[simp] theorem get?_empty (k : κ) : (empty : OrderedMap κ ν).get? k = none := rfl

theorem lookup_cons_ite (k a : κ) (w : ν) (rest : List (κ × ν)) :
    ((a, w) :: rest).lookup k = if k = a then some w else rest.lookup k := by
  by_cases h : k = a
  · simp [h]
  · simp [List.lookup_cons, beq_false_of_ne h, h]

theorem lookup_setEntry (k k' : κ) (v : ν) (es : List (κ × ν)) :
    (setEntry k v es).lookup k' = if k' = k then some v else es.lookup k' := by
  induction es with
  | nil => simp [setEntry, lookup_cons_ite]
  | cons e rest ih =>
    obtain ⟨a, w⟩ := e
    by_cases ha : a = k
    · subst ha
      by_cases h : k' = a <;> simp [setEntry, lookup_cons_ite, h]
    · simp only [setEntry, if_neg ha, lookup_cons_ite, ih]
      by_cases h : k' = a
      · simp [h, ha]
      · simp [h]

@[simp] theorem get?_set (m : OrderedMap κ ν) (k k' : κ) (v : ν) :
    (m.set k v).get? k' = if k' = k then some v else m.get? k' :=
  lookup_setEntry k k' v m.entries

theorem get?_eq_some {m : OrderedMap κ ν} {k : κ} {v : ν} :
    m.get? k = some v ↔ (k, v) ∈ m.entries := by
  obtain ⟨es, hes⟩ := m
  simp only [get?]
  induction es with
  | nil => simp
  | cons e rest ih =>
    obtain ⟨a, w⟩ := e
    simp only [List.map_cons, List.nodup_cons] at hes
    by_cases h : k = a
    · subst h
      have hno : ∀ x, (k, x) ∉ rest := fun x hx => hes.1 (List.mem_map.mpr ⟨(k, x), hx, rfl⟩)
      simp only [lookup_cons_ite, if_true, Option.some.injEq, List.mem_cons, Prod.mk.injEq,
        true_and]
      exact ⟨fun h => Or.inl h.symm, fun h => h.elim Eq.symm fun hx => absurd hx (hno v)⟩
    · rw [lookup_cons_ite, if_neg h, ih hes.2]
      simp [h]

theorem get?_isSome {m : OrderedMap κ ν} {k : κ} : (m.get? k).isSome ↔ k ∈ m.keys := by
  rw [Option.isSome_iff_exists]
  simp [get?_eq_some, keys]

theorem get?_eq_none {m : OrderedMap κ ν} {k : κ} : m.get? k = none ↔ k ∉ m.keys := by
  rw [← get?_isSome, Option.not_isSome_iff_eq_none]

/-- Reading every key back in order gives the entries. -/
theorem filterMap_keys (m : OrderedMap κ ν) (f : κ → ν → α) :
    (m.keys.filterMap fun k => (m.get? k).map (f k)) = m.entries.map fun e => f e.1 e.2 := by
  rw [keys, List.filterMap_map, ← List.filterMap_eq_map]
  apply List.filterMap_congr
  intro e he
  simp [get?_eq_some.mpr he]

/-- Reading any duplicate-free list of keys that covers the map permutes the entries. -/
theorem filterMap_perm (m : OrderedMap κ ν) (f : κ → ν → α) {ks : List κ} (hks : ks.Nodup)
    (hsub : ∀ k ∈ m.keys, k ∈ ks) :
    (ks.filterMap fun k => (m.get? k).map (f k)).Perm (m.entries.map fun e => f e.1 e.2) := by
  have hp : ks.Perm (m.keys ++ ks.filter (· ∉ m.keys)) := by
    rw [List.perm_ext_iff_of_nodup hks]
    · intro k
      by_cases hk : k ∈ m.keys
      · simp [hk, hsub k hk]
      · simp [hk]
    · rw [List.nodup_append]
      refine ⟨nodup_keys m, hks.filter _, ?_⟩
      intro a ha b hb hab
      subst hab
      simp [ha] at hb
  have hrest : (ks.filter (· ∉ m.keys)).filterMap (fun k => (m.get? k).map (f k)) = [] := by
    rw [List.filterMap_eq_nil_iff]
    intro k hk
    have hno : k ∉ m.keys := by simpa using (List.mem_filter.mp hk).2
    simp [get?_eq_none.mpr hno]
  have := hp.filterMap fun k => (m.get? k).map (f k)
  rwa [List.filterMap_append, hrest, List.append_nil, filterMap_keys] at this

theorem ofList_concat (rows : List (κ × ν)) (row : κ × ν) :
    ofList (rows ++ [row]) = (ofList rows).set row.1 row.2 := by
  simp [ofList]

/-- The value stored at a key is the one of the last row written to it. -/
theorem get?_ofList (rows : List (κ × ν)) (k : κ) :
    (ofList rows).get? k = rows.reverse.lookup k := by
  induction rows using List.reverseRecOn with
  | nil => rfl
  | append_singleton rows row ih =>
    rw [ofList_concat, get?_set, List.reverse_append, List.reverse_singleton, List.singleton_append,
      lookup_cons_ite, ih]

/-- A first row with another key is not seen. -/
theorem get?_ofList_cons {row : κ × ν} {rows : List (κ × ν)} {k : κ} (h : k ≠ row.1) :
    (ofList (row :: rows)).get? k = (ofList rows).get? k := by
  rw [get?_ofList, get?_ofList, List.reverse_cons, List.lookup_append, lookup_cons_ite, if_neg h]
  exact Option.or_none

theorem mem_of_get?_ofList {rows : List (κ × ν)} {k : κ} {v : ν}
    (h : (ofList rows).get? k = some v) : (k, v) ∈ rows := by
  induction rows using List.reverseRecOn with
  | nil => cases h
  | append_singleton rows row ih =>
    rw [ofList_concat, get?_set] at h
    rw [List.mem_append, List.mem_singleton]
    split_ifs at h with hk
    · cases h
      exact Or.inr (by rw [hk])
    · exact Or.inl (ih h)

/-- Writing rows over a map: the last row of a key wins over what the map held. -/
theorem get?_foldl_set (rows : List (κ × ν)) (m : OrderedMap κ ν) (k : κ) :
    (rows.foldl (fun m row => m.set row.1 row.2) m).get? k =
      (rows.reverse.lookup k).or (m.get? k) := by
  induction rows using List.reverseRecOn with
  | nil => rfl
  | append_singleton rows row ih =>
    rw [List.foldl_append, List.foldl_cons, List.foldl_nil, get?_set, ih, List.reverse_append,
      List.reverse_singleton, List.singleton_append, lookup_cons_ite]
    split_ifs <;> rfl

theorem mem_keys_set {m : OrderedMap κ ν} {k k' : κ} {v : ν} :
    k' ∈ (m.set k v).keys ↔ k' = k ∨ k' ∈ m.keys := by
  rw [← get?_isSome, get?_set, ← get?_isSome]
  by_cases h : k' = k <;> simp [h]

theorem mem_keys_ofList {rows : List (κ × ν)} {k : κ} :
    k ∈ (ofList rows).keys ↔ k ∈ rows.map Prod.fst := by
  induction rows using List.reverseRecOn with
  | nil => rfl
  | append_singleton rows row ih =>
    rw [ofList_concat, mem_keys_set, ih]
    simp [or_comm]

theorem setEntry_of_not_mem (k : κ) (v : ν) {es : List (κ × ν)} (h : k ∉ es.map Prod.fst) :
    setEntry k v es = es ++ [(k, v)] := by
  induction es with
  | nil => rfl
  | cons e rest ih =>
    simp only [List.map_cons, List.mem_cons, not_or] at h
    simp only [setEntry, if_neg (fun he => h.1 he.symm : ¬ e.1 = k), ih h.2, List.cons_append]

/-- Rows with pairwise distinct keys are stored as they came. -/
theorem entries_ofList {rows : List (κ × ν)} (h : (rows.map Prod.fst).Nodup) :
    (ofList rows).entries = rows := by
  induction rows using List.reverseRecOn with
  | nil => rfl
  | append_singleton rows row ih =>
    rw [List.map_append, List.nodup_append] at h
    have hno : row.1 ∉ rows.map Prod.fst := fun hm => h.2.2 _ hm _ (by simp) rfl
    rw [ofList_concat, entries_set, ih h.1]
    exact setEntry_of_not_mem row.1 row.2 hno

/-! ## Rows stored under their own identity -/

/-- Index rows by an identity; of several rows with one identity the last one stays. -/
def byId (idOf : α → κ) (rows : List α) : OrderedMap κ α :=
  ofList (rows.map fun row => (idOf row, row))

theorem mem_keys_byId {idOf : α → κ} {rows : List α} {k : κ} :
    k ∈ (byId idOf rows).keys ↔ k ∈ rows.map idOf := by
  rw [byId, mem_keys_ofList, List.map_map]
  rfl

theorem lookup_map_id (idOf : α → κ) (rows : List α) (k : κ) :
    (rows.map fun row => (idOf row, row)).lookup k = rows.find? (fun row => idOf row = k) := by
  induction rows with
  | nil => rfl
  | cons row rest ih =>
    rw [List.map_cons, lookup_cons_ite, ih, List.find?_cons]
    by_cases h : idOf row = k
    · simp [h]
    · have hk : ¬ k = idOf row := fun hk => h hk.symm
      simp [h, hk]

/-- Looking an identity up finds the last row that carries it. -/
theorem get?_byId (idOf : α → κ) (rows : List α) (k : κ) :
    (byId idOf rows).get? k = rows.reverse.find? (fun row => idOf row = k) := by
  rw [byId, get?_ofList, ← List.map_reverse, lookup_map_id]

theorem id_of_get?_byId {idOf : α → κ} {rows : List α} {k : κ} {row : α}
    (h : (byId idOf rows).get? k = some row) : idOf row = k := by
  rw [get?_byId] at h
  simpa using List.find?_some h

theorem entries_byId {idOf : α → κ} {rows : List α} (h : (rows.map idOf).Nodup) :
    (byId idOf rows).entries = rows.map fun row => (idOf row, row) := by
  apply entries_ofList
  rw [List.map_map]
  exact h

/-- Indexing keeps one row for each identity that occurs. -/
theorem length_values_byId (idOf : α → κ) (rows : List α) :
    (byId idOf rows).values.length = (rows.map idOf).dedup.length := by
  have hp : (byId idOf rows).keys.Perm (rows.map idOf).dedup := by
    rw [List.perm_ext_iff_of_nodup (nodup_keys _) (List.nodup_dedup _)]
    intro k
    rw [mem_keys_byId, List.mem_dedup]
  have := hp.length_eq
  simpa [keys, values] using this

/-- No row is lost by indexing exactly when no identity repeats. -/
theorem values_byId_perm_iff (idOf : α → κ) (rows : List α) :
    (byId idOf rows).values.Perm rows ↔ (rows.map idOf).Nodup := by
  constructor
  · intro h
    have hlen := h.length_eq
    rw [length_values_byId] at hlen
    rw [← List.dedup_eq_self]
    exact (List.dedup_sublist _).eq_of_length (by simpa using hlen)
  · intro h
    rw [values, entries_byId h, List.map_map]
    simp [Function.comp_def]

/-! ## Ordered sets of keys -/

/-- The distinct elements of a list, in order of first arrival. -/
def distinct (ks : List κ) : List κ := (ofList (ks.map fun k => (k, ()))).keys

theorem mem_distinct {ks : List κ} {k : κ} : k ∈ distinct ks ↔ k ∈ ks := by
  rw [distinct, mem_keys_ofList, List.map_map]
  simp [Function.comp_def]

theorem nodup_distinct (ks : List κ) : (distinct ks).Nodup := nodup_keys _

theorem distinct_append_singleton (ks : List κ) (k : κ) :
    distinct (ks ++ [k]) = if k ∈ ks then distinct ks else distinct ks ++ [k] := by
  have hm : k ∈ (ofList (ks.map fun k => (k, ()))).entries.map Prod.fst ↔ k ∈ ks := mem_distinct
  simp only [distinct, keys, List.map_append, List.map_cons, List.map_nil, ofList_concat, set,
    keys_setEntry, hm]

/-- A duplicate-free prefix comes out unchanged, followed by what it does not contain. -/
theorem distinct_append {ks : List κ} (h : ks.Nodup) (ls : List κ) :
    ∃ rest, distinct (ks ++ ls) = ks ++ rest ∧ ∀ k ∈ rest, k ∉ ks := by
  induction ls using List.reverseRecOn with
  | nil =>
    refine ⟨[], ?_, by simp⟩
    have hk : ((ks.map fun k => (k, ())).map Prod.fst).Nodup := by
      simpa [Function.comp_def] using h
    simp [distinct, keys, entries_ofList hk, Function.comp_def]
  | append_singleton ls l ih =>
    obtain ⟨rest, heq, hno⟩ := ih
    rw [← List.append_assoc, distinct_append_singleton, heq]
    split_ifs with hl
    · exact ⟨rest, rfl, hno⟩
    · refine ⟨rest ++ [l], by rw [List.append_assoc], ?_⟩
      intro k hk hks
      rcases List.mem_append.mp hk with hr | hr
      · exact hno k hr hks
      · rw [List.mem_singleton] at hr
        exact hl (hr ▸ List.mem_append_left _ hks)

end OrderedMap
end Voleeo
