import Mathlib.Data.List.Nodup
import Mathlib.Logic.Function.Basic

/-!
# The first element of each key

Elements are collected in order while the keys that were seen are remembered, so
that an element counts only when its key is new.
-/
namespace Voleeo

variable {α κ : Type*} [DecidableEq κ]

/-- Each element whose key no earlier element has. -/
def firstPerKey (key : α → κ) : List α → List α
  | [] => []
  | a :: l => a :: (firstPerKey key l).filter fun b => key b ≠ key a

variable (key : α → κ)

theorem firstPerKey_sublist (l : List α) : (firstPerKey key l).Sublist l := by
  induction l with
  | nil => exact List.Sublist.slnil
  | cons a l ih => exact (List.filter_sublist.trans ih).cons_cons a

theorem nodup_firstPerKey (l : List α) : ((firstPerKey key l).map key).Nodup := by
  induction l with
  | nil => exact List.nodup_nil
  | cons a l ih =>
    rw [firstPerKey, List.map_cons, List.nodup_cons]
    constructor
    · intro hmem
      obtain ⟨b, hb, hkey⟩ := List.mem_map.mp hmem
      exact absurd hkey (of_decide_eq_true (List.mem_filter.mp hb).2)
    · exact ih.sublist (List.filter_sublist.map key)

/-- Under each key the collection has the first element of the list. -/
theorem find?_firstPerKey (l : List α) (k : κ) :
    (firstPerKey key l).find? (fun a => key a = k) = l.find? fun a => key a = k := by
  induction l with
  | nil => rfl
  | cons a l ih =>
    rw [firstPerKey, List.find?_cons, List.find?_cons]
    by_cases ha : key a = k
    · simp [ha]
    · have hsame : ((firstPerKey key l).filter fun b => key b ≠ key a).find?
          (fun b => key b = k) = (firstPerKey key l).find? fun b => key b = k := by
        rw [List.find?_filter]
        congr 1
        funext b
        by_cases hb : key b = k
        · simp [hb, Ne.symm ha]
        · simp [hb]
      simp only [ha, decide_false, hsame, ih]

theorem firstPerKey_congr {key key' : α → κ} {l : List α} (h : ∀ a ∈ l, key a = key' a) :
    firstPerKey key l = firstPerKey key' l := by
  induction l with
  | nil => rfl
  | cons a l ih =>
    obtain ⟨ha, hl⟩ := List.forall_mem_cons.mp h
    rw [firstPerKey, firstPerKey, ih hl]
    congr 1
    refine List.filter_congr fun b hb => ?_
    rw [ha, hl b ((firstPerKey_sublist key' l).subset hb)]

/-- For each key of the list one element, the first that has it, in the order of the list. -/
structure FirstOfEach (l out : List α) : Prop where
  sublist : out.Sublist l
  distinct : (out.map key).Nodup
  first : ∀ k, out.find? (fun a => key a = k) = l.find? fun a => key a = k

theorem firstOfEach_firstPerKey (l : List α) : FirstOfEach key l (firstPerKey key l) :=
  ⟨firstPerKey_sublist key l, nodup_firstPerKey key l, find?_firstPerKey key l⟩

/-! ## With a set of keys -/

/-- What a loop over rows keeps: the keys it saw and the rows it took. -/
structure Kept (α κ : Type*) where
  seen : List κ
  out : List α

/-- A row is taken when its key is new. -/
def Kept.add (kept : Kept α κ) (a : α) : Kept α κ :=
  if key a ∈ kept.seen then kept else { seen := key a :: kept.seen, out := kept.out ++ [a] }

theorem foldl_kept (l : List α) (kept : Kept α κ) :
    (l.foldl (Kept.add key) kept).out =
      kept.out ++ (firstPerKey key l).filter fun b => key b ∉ kept.seen := by
  induction l generalizing kept with
  | nil => simp [firstPerKey]
  | cons a l ih =>
    rw [List.foldl_cons, ih, Kept.add, firstPerKey]
    by_cases ha : key a ∈ kept.seen
    · rw [if_pos ha, List.filter_cons_of_neg (by simpa using ha), List.filter_filter]
      congr 1
      refine List.filter_congr fun b _ => ?_
      by_cases hb : key b = key a
      · simp [hb, ha]
      · simp [hb]
    · rw [if_neg ha, List.filter_cons_of_pos (by simpa using ha), List.filter_filter]
      simp only [List.append_assoc, List.singleton_append]
      congr 2
      refine List.filter_congr fun b _ => ?_
      simp [Bool.and_comm]

theorem foldl_kept_nil (l : List α) :
    (l.foldl (Kept.add key) { seen := [], out := [] }).out = firstPerKey key l := by
  simp [foldl_kept]

/-- The same loop when the rows taken so far tell the keys that were seen. -/
theorem foldl_firstPerKey (l : List α) (out : List α) :
    l.foldl (fun out a => if key a ∈ out.map key then out else out ++ [a]) out =
      out ++ (firstPerKey key l).filter fun b => key b ∉ out.map key := by
  have hkept (kept : Kept α κ) (hseen : ∀ k, k ∈ kept.seen ↔ k ∈ kept.out.map key) :
      (l.foldl (Kept.add key) kept).out =
        l.foldl (fun out a => if key a ∈ out.map key then out else out ++ [a]) kept.out := by
    induction l generalizing kept with
    | nil => rfl
    | cons a l ih =>
      rw [List.foldl_cons, List.foldl_cons, Kept.add]
      by_cases ha : key a ∈ kept.seen
      · rw [if_pos ha, if_pos ((hseen _).mp ha), ih kept hseen]
      · rw [if_neg ha, if_neg (fun h => ha ((hseen _).mpr h))]
        refine ih _ fun k => ?_
        simp [hseen, or_comm]
  rw [← hkept { seen := out.map key, out } fun _ => Iff.rfl, foldl_kept]

end Voleeo

/-!
## Records under a key

A store of records in which no two records have the same key, such as a
directory whose files are named after the records in them.
-/
namespace Voleeo

variable {κ α : Type} [DecidableEq κ] {key : α → κ}

structure Records (key : α → κ) where
  toList : List α
  nodup : (toList.map key).Nodup

namespace Records

variable (s : Records key)

def find? (k : κ) : Option α := s.toList.find? fun a => key a = k

def remove (k : κ) : Records key where
  toList := s.toList.filter fun a => key a ≠ k
  nodup := s.nodup.sublist (List.filter_sublist.map key)

/-- The record replaces the one under its key. -/
def put (a : α) : Records key where
  toList := a :: (s.remove (key a)).toList
  nodup := by
    rw [List.map_cons, List.nodup_cons]
    refine ⟨fun hmem => ?_, (s.remove (key a)).nodup⟩
    obtain ⟨b, hb, hkey⟩ := List.mem_map.mp hmem
    exact of_decide_eq_true (List.mem_filter.mp hb).2 hkey

def filter (p : α → Bool) : Records key where
  toList := s.toList.filter p
  nodup := s.nodup.sublist (List.filter_sublist.map key)

variable {s} {a b : α} {k : κ}

theorem mem_remove : b ∈ (s.remove k).toList ↔ b ∈ s.toList ∧ key b ≠ k := by
  simp [remove]

theorem mem_put : b ∈ (s.put a).toList ↔ b = a ∨ b ∈ s.toList ∧ key b ≠ key a := by
  rw [put, List.mem_cons, mem_remove]

omit [DecidableEq κ] in
theorem mem_filter {p : α → Bool} : b ∈ (s.filter p).toList ↔ b ∈ s.toList ∧ p b = true :=
  List.mem_filter

theorem find?_eq_some_iff : s.find? k = some a ↔ a ∈ s.toList ∧ key a = k := by
  constructor
  · intro h
    exact ⟨List.mem_of_find?_eq_some h, by simpa using List.find?_some h⟩
  · rintro ⟨hmem, rfl⟩
    cases hfind : s.find? (key a) with
    | none => simpa using List.find?_eq_none.mp hfind a hmem
    | some b =>
      have hb := List.mem_of_find?_eq_some hfind
      have hkey : key b = key a := by simpa using List.find?_some hfind
      rw [List.inj_on_of_nodup_map s.nodup hb hmem hkey]

theorem find?_eq_none_iff : s.find? k = none ↔ ∀ a ∈ s.toList, key a ≠ k := by
  simp [find?]

theorem find?_put : (s.put a).find? k = if key a = k then some a else s.find? k := by
  split_ifs with h
  · exact find?_eq_some_iff.mpr ⟨mem_put.mpr (.inl rfl), h⟩
  · ext b
    rw [find?_eq_some_iff, find?_eq_some_iff, mem_put]
    constructor
    · rintro ⟨rfl | ⟨hmem, -⟩, rfl⟩
      · exact absurd rfl h
      · exact ⟨hmem, rfl⟩
    · rintro ⟨hmem, rfl⟩
      exact ⟨.inr ⟨hmem, Ne.symm h⟩, rfl⟩

/-- Nothing changes only if the record was there. -/
theorem find?_put_eq_iff : (∀ k, (s.put a).find? k = s.find? k) ↔ s.find? (key a) = some a := by
  constructor
  · intro h
    rw [← h, find?_put, if_pos rfl]
  · intro h k
    rw [find?_put]
    split_ifs with hk
    · rw [← hk, h]
    · rfl

theorem find?_remove (k' : κ) : (s.remove k).find? k' = if k' = k then none else s.find? k' := by
  split_ifs with h
  · rw [find?_eq_none_iff]
    rintro a ha rfl
    exact (mem_remove.mp ha).2 h
  · ext b
    rw [find?_eq_some_iff, find?_eq_some_iff, mem_remove]
    constructor
    · rintro ⟨⟨hmem, -⟩, hkey⟩
      exact ⟨hmem, hkey⟩
    · rintro ⟨hmem, rfl⟩
      exact ⟨⟨hmem, h⟩, rfl⟩

theorem find?_filter {p : α → Bool} : (s.filter p).find? k = (s.find? k).filter p := by
  ext b
  rw [find?_eq_some_iff, mem_filter, Option.filter_eq_some_iff, find?_eq_some_iff]
  exact and_right_comm

end Records

end Voleeo
