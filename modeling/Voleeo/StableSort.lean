import Mathlib.Data.List.Basic
import Mathlib.Data.List.Nodup
import Mathlib.Order.Lattice
import Voleeo.Parts

/-!
# Stable sorting by a key

Sorting by a key keeps the order of elements with equal keys. So it commutes
with leaving elements out, and the place of an element is known from the pairs
it stands in.
-/
namespace Voleeo

variable {α β κ : Type*} [LinearOrder κ]

def sortBy (key : α → κ) (xs : List α) : List α :=
  xs.mergeSort fun a b => decide (key a ≤ key b)

variable {key : α → κ} {xs : List α}

theorem sortBy_perm (key : α → κ) (xs : List α) : (sortBy key xs).Perm xs :=
  List.mergeSort_perm _ _

@[simp] theorem mem_sortBy {a : α} : a ∈ sortBy key xs ↔ a ∈ xs := List.mem_mergeSort

theorem pairwise_sortBy (key : α → κ) (xs : List α) :
    (sortBy key xs).Pairwise fun a b => key a ≤ key b := by
  have h : (sortBy key xs).Pairwise fun a b => decide (key a ≤ key b) = true :=
    List.pairwise_mergeSort (fun a b c => by simpa using le_trans)
      (fun a b => by simpa using le_total _ _) xs
  simpa using h

/-- A list that is strictly in order is what sorting gives. -/
theorem sortBy_eq_of_strict {ys : List α} (hperm : ys.Perm xs)
    (hstrict : ys.Pairwise fun a b => key a < key b) : sortBy key xs = ys := by
  have hle : ys.Pairwise fun a b => key a ≤ key b := hstrict.imp fun h => h.le
  refine List.Perm.eq_of_pairwise ?_ (pairwise_sortBy key xs) hle
    ((sortBy_perm key xs).trans hperm.symm)
  intro a b ha hb hab hba
  have hnodup : (ys.map key).Nodup := List.pairwise_map.mpr (hstrict.imp fun h => h.ne)
  have hmem : a ∈ ys := hperm.mem_iff.mpr ((sortBy_perm key xs).mem_iff.mp ha)
  exact List.inj_on_of_nodup_map hnodup hmem hb (le_antisymm hab hba)

theorem map_sortBy (key : β → κ) (f : α → β) (xs : List α) :
    (sortBy (fun a => key (f a)) xs).map f = sortBy key (xs.map f) :=
  List.map_mergeSort fun _ _ _ _ => rfl

/-- The first element goes in front of all that do not come before it. -/
theorem sortBy_cons (key : α → κ) (a : α) (xs : List α) :
    ∃ front back, sortBy key (a :: xs) = front ++ a :: back ∧ sortBy key xs = front ++ back ∧
      (∀ b ∈ front, key b < key a) ∧ ∀ b ∈ back, key a ≤ key b := by
  have htrans : ∀ x y z : α, decide (key x ≤ key y) → decide (key y ≤ key z) →
      decide (key x ≤ key z) := fun x y z => by simpa using le_trans
  obtain ⟨front, back, hcons, hrest, hfront⟩ :=
    List.mergeSort_cons htrans (fun x y => by simpa using le_total _ _) a xs
  refine ⟨front, back, hcons, hrest, fun b hb => by simpa using hfront b hb, fun b hb => ?_⟩
  have hsorted := pairwise_sortBy key (a :: xs)
  rw [sortBy, hcons, List.pairwise_append] at hsorted
  exact List.rel_of_pairwise_cons hsorted.2.1 hb

theorem filter_sortBy (key : α → κ) (p : α → Bool) (xs : List α) :
    (sortBy key xs).filter p = sortBy key (xs.filter p) := by
  induction xs with
  | nil => simp [sortBy]
  | cons a xs ih =>
    obtain ⟨front, back, hcons, hrest, hfront, hback⟩ := sortBy_cons key a xs
    have hfilter : front.filter p ++ back.filter p = sortBy key (xs.filter p) := by
      rw [← ih, hrest, List.filter_append]
    rw [hcons, List.filter_append]
    by_cases ha : p a = true
    · obtain ⟨front', back', hcons', hrest', hfront', hback'⟩ := sortBy_cons key a (xs.filter p)
      obtain ⟨hleft, hright⟩ := @append_inj_of_split _ (fun b => key b < key a) _ _ _ _
        (hfilter.trans hrest') (fun b hb => hfront b (List.mem_of_mem_filter hb))
        (fun b hb => not_lt_of_ge (hback b (List.mem_of_mem_filter (List.mem_of_mem_head? hb))))
        hfront' fun b hb => not_lt_of_ge (hback' b (List.mem_of_mem_head? hb))
      rw [List.filter_cons_of_pos ha, List.filter_cons_of_pos ha, hcons', hleft, hright]
    · rw [List.filter_cons_of_neg ha, List.filter_cons_of_neg ha, hfilter]

/-- Equal keys keep their order. -/
theorem pair_sublist_sortBy {a b : α} (ha : a ∈ xs) (hb : b ∈ xs)
    (h : key a < key b ∨ key a = key b ∧ [a, b].Sublist xs) : [a, b].Sublist (sortBy key xs) := by
  rcases h with hlt | ⟨heq, hsub⟩
  · obtain ⟨front, back, hsplit⟩ := List.append_of_mem ((sortBy_perm key xs).mem_iff.mpr ha)
    have hsorted := pairwise_sortBy key xs
    rw [hsplit, List.pairwise_append] at hsorted
    have hbmem := (sortBy_perm key xs).mem_iff.mpr hb
    rw [hsplit, List.mem_append, List.mem_cons] at hbmem
    rcases hbmem with hbfront | rfl | hbback
    · exact absurd (hsorted.2.2 b hbfront a List.mem_cons_self) (not_le_of_gt hlt)
    · exact absurd hlt (lt_irrefl _)
    · rw [hsplit]
      exact ((List.singleton_sublist.mpr hbback).cons_cons a).trans (List.sublist_append_right _ _)
  · exact List.pair_sublist_mergeSort (fun a b c => by simpa using le_trans)
      (fun a b => by simpa using le_total _ _) (by simpa using heq.le) hsub

theorem mem_back_of_sublist {a b : α} {front back : List α} (ha : a ∉ front)
    (h : [a, b].Sublist (front ++ a :: back)) : b ∈ back := by
  induction front with
  | nil =>
    rw [List.nil_append, List.cons_sublist_cons, List.singleton_sublist] at h
    exact h
  | cons x front ih =>
    rw [List.mem_cons, not_or] at ha
    rcases List.sublist_cons_iff.mp h with h | ⟨rest, heq, -⟩
    · exact ih ha.2 h
    · exact absurd (List.cons.inj heq).1 ha.1

theorem mem_front_of_sublist {a b : α} {front back : List α} (hb : b ∉ back)
    (h : [a, b].Sublist (front ++ b :: back)) : a ∈ front := by
  have hreverse : [b, a].Sublist (back.reverse ++ b :: front.reverse) := by
    simpa using h.reverse
  simpa using mem_back_of_sublist (by simpa using hb) hreverse

/-- The place of an element: in front of it stand smaller keys, and equal ones that came before
it; behind it greater keys, and equal ones that came after it. -/
theorem sortBy_split {a : α} {before after front back : List α}
    (hnodup : (before ++ a :: after).Nodup)
    (h : sortBy key (before ++ a :: after) = front ++ a :: back) :
    (∀ b ∈ front, key b < key a ∨ key b = key a ∧ b ∈ before) ∧
      ∀ b ∈ back, key a < key b ∨ key a = key b ∧ b ∈ after := by
  have hperm := sortBy_perm key (before ++ a :: after)
  have hsorted := pairwise_sortBy key (before ++ a :: after)
  rw [h] at hperm hsorted
  have hnodup' := hperm.nodup_iff.mpr hnodup
  rw [List.nodup_append, List.nodup_cons] at hnodup'
  rw [List.pairwise_append, List.pairwise_cons] at hsorted
  have ha : a ∉ front := fun hmem => hnodup'.2.2 a hmem a List.mem_cons_self rfl
  have hmem : ∀ b, b ∈ front ∨ b ∈ back → b ∈ before ∨ b ∈ after := by
    intro b hb
    have hne : b ≠ a := by
      rintro rfl
      exact hb.elim ha hnodup'.2.1.1
    have hall : b ∈ before ++ a :: after := hperm.mem_iff.mp (by
      rw [List.mem_append, List.mem_cons]
      exact hb.imp_right Or.inr)
    rw [List.mem_append, List.mem_cons] at hall
    exact hall.imp_right fun hb => hb.resolve_left hne
  have hself : a ∈ before ++ a :: after := List.mem_append_right _ List.mem_cons_self
  constructor
  · intro b hb
    refine (hsorted.2.2 b hb a List.mem_cons_self).lt_or_eq.imp_right fun heq => ⟨heq, ?_⟩
    refine (hmem b (.inl hb)).resolve_right fun hafter => ?_
    have hpair : [a, b].Sublist (before ++ a :: after) :=
      ((List.singleton_sublist.mpr hafter).cons_cons a).trans (List.sublist_append_right _ _)
    have hsub := pair_sublist_sortBy hself (hpair.mem (by simp)) (.inr ⟨heq.symm, hpair⟩)
    rw [h] at hsub
    exact hnodup'.2.2 b hb b (List.mem_cons_of_mem _ (mem_back_of_sublist ha hsub)) rfl
  · intro b hb
    refine (hsorted.2.1.1 b hb).lt_or_eq.imp_right fun heq => ⟨heq, ?_⟩
    refine (hmem b (.inr hb)).resolve_left fun hbefore => ?_
    have hpair : [b, a].Sublist (before ++ a :: after) :=
      (List.singleton_sublist.mpr hbefore).append (List.singleton_sublist.mpr List.mem_cons_self)
    have hsub := pair_sublist_sortBy (hpair.mem (by simp)) hself (.inr ⟨heq.symm, hpair⟩)
    rw [h] at hsub
    exact hnodup'.2.2 b (mem_front_of_sublist hnodup'.2.1.1 hsub) b (List.mem_cons_of_mem _ hb) rfl

end Voleeo
