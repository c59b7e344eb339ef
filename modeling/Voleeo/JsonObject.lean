import Mathlib.Data.List.Forall2
import Mathlib.Data.List.Nodup
import Mathlib.Data.String.Basic
import Voleeo.Json
import Voleeo.Parts

/-!
# Members in the order of their keys

A map of members is written in the order of the keys, and a member replaces the one that has its
key. Where maps are merged, the later ones go before the earlier.
-/
namespace Voleeo.Json

/-! ## Insertion -/

/-- A member is put at its place in the order of the keys, or replaces the one there. -/
def insertMember (key : String) (value : Json) : List (String × Json) → List (String × Json)
  | [] => [(key, value)]
  | e :: rest =>
    if key < e.1 then (key, value) :: e :: rest
    else if key = e.1 then (key, value) :: rest
    else e :: insertMember key value rest

def insertAll (base members : List (String × Json)) : List (String × Json) :=
  members.foldl (fun base e => insertMember e.1 e.2 base) base

def Sorted (members : List (String × Json)) : Prop := members.Pairwise fun e e' => e.1 < e'.1

variable {key k : String} {v : Json} {base members : List (String × Json)}

theorem get_object_cons (e : String × Json) (rest : List (String × Json)) (key : String) :
    (object (e :: rest)).get key = if e.1 = key then some e.2 else (object rest).get key := by
  by_cases h : e.1 = key <;> simp [get, h]

theorem get_insertMember :
    (object (insertMember k v members)).get key
      = if k = key then some v else (object members).get key := by
  induction members with
  | nil => rw [insertMember, get_object_cons]
  | cons e rest ih =>
    rw [insertMember]
    by_cases hlt : k < e.1
    · rw [if_pos hlt, get_object_cons]
    rw [if_neg hlt]
    by_cases heq : k = e.1
    · rw [if_pos heq, get_object_cons, get_object_cons, ← heq]
      by_cases hkey : k = key
      · rw [if_pos hkey, if_pos hkey]
      · rw [if_neg hkey, if_neg hkey, if_neg hkey]
    · rw [if_neg heq, get_object_cons, get_object_cons, ih]
      by_cases hkey : e.1 = key
      · rw [if_pos hkey, if_pos hkey, if_neg fun h => heq (h.trans hkey.symm)]
      · rw [if_neg hkey, if_neg hkey]

theorem mem_insertMember {e : String × Json} (h : e ∈ insertMember k v members) :
    e = (k, v) ∨ e ∈ members := by
  induction members with
  | nil => exact .inl (List.mem_singleton.mp h)
  | cons e' rest ih =>
    rw [insertMember] at h
    split_ifs at h
    · exact List.mem_cons.mp h
    · exact (List.mem_cons.mp h).imp_right (List.mem_cons_of_mem e')
    · rcases List.mem_cons.mp h with rfl | h
      · exact .inr List.mem_cons_self
      · exact (ih h).imp_right (List.mem_cons_of_mem e')

theorem Sorted.insertMember (h : Sorted members) : Sorted (insertMember k v members) := by
  induction members with
  | nil => exact List.pairwise_singleton _ _
  | cons e rest ih =>
    obtain ⟨hfirst, hrest⟩ := List.pairwise_cons.mp h
    rw [Json.insertMember]
    by_cases hlt : k < e.1
    · rw [if_pos hlt]
      refine List.pairwise_cons.mpr ⟨fun e' he' => ?_, h⟩
      rcases List.mem_cons.mp he' with rfl | he'
      · exact hlt
      · exact lt_trans hlt (hfirst e' he')
    rw [if_neg hlt]
    by_cases heq : k = e.1
    · rw [if_pos heq]
      exact List.pairwise_cons.mpr ⟨fun e' he' => heq ▸ hfirst e' he', hrest⟩
    · rw [if_neg heq]
      refine List.pairwise_cons.mpr ⟨fun e' he' => ?_, ih hrest⟩
      rcases mem_insertMember he' with rfl | he'
      · exact lt_of_le_of_ne (not_lt.mp hlt) (Ne.symm heq)
      · exact hfirst e' he'

theorem Sorted.insertAll (h : Sorted base) : Sorted (insertAll base members) := by
  induction members generalizing base with
  | nil => exact h
  | cons e rest ih => exact ih h.insertMember

theorem sorted_nil : Sorted [] := List.Pairwise.nil

theorem Sorted.nodup (h : Sorted members) : (members.map (·.1)).Nodup :=
  List.pairwise_map.mpr (h.imp fun h => ne_of_lt h)

/-! ## What a value gives to a merge -/

/-- The last member with the key. -/
def given (v : Json) (key : String) : Option Json :=
  (object (v.asObject.getD []).reverse).get key

theorem given_object (members : List (String × Json)) (key : String) :
    (object members).given key = (object members.reverse).get key := rfl

theorem given_eq_none_of_asObject (h : v.asObject = none) (key : String) : v.given key = none := by
  rw [given, h]
  rfl

theorem exists_object_of_given (h : v.given key ≠ none) : ∃ members, v = .object members := by
  cases v with
  | object members => exact ⟨members, rfl⟩
  | _ => exact absurd rfl h

theorem get_object_append (members others : List (String × Json)) (key : String) :
    (object (members ++ others)).get key
      = ((object members).get key).or ((object others).get key) := by
  simp only [get, List.find?_append, Option.map_or]

theorem get_insertAll :
    (object (insertAll base members)).get key
      = ((object members).given key).or ((object base).get key) := by
  induction members generalizing base with
  | nil => rfl
  | cons e rest ih =>
    rw [given_object, List.reverse_cons, get_object_append, Option.or_assoc, ← given_object]
    refine (ih).trans ?_
    rw [get_insertMember, get_object_cons]
    by_cases h : e.1 = key
    · rw [if_pos h, if_pos h]
      rfl
    · rw [if_neg h, if_neg h]
      rfl

theorem given_of_nodup (h : (members.map (·.1)).Nodup) (key : String) :
    (object members).given key = (object members).get key := by
  induction members with
  | nil => rfl
  | cons e rest ih =>
    obtain ⟨hfirst, hrest⟩ := List.nodup_cons.mp h
    rw [given_object, List.reverse_cons, get_object_append, ← given_object, ih hrest,
      get_object_cons, get_object_cons]
    by_cases hkey : e.1 = key
    · have hnone : (object rest).get key = none := by
        refine Option.map_eq_none_iff.mpr (List.find?_eq_none.mpr fun e' he' => ?_)
        rw [decide_eq_true_eq, ← hkey]
        exact fun h => hfirst (List.mem_map.mpr ⟨e', he', h⟩)
      rw [hnone, if_pos hkey, if_pos hkey]
      rfl
    · rw [if_neg hkey, if_neg hkey]
      exact Option.or_none

theorem given_insertAll_nil (members : List (String × Json)) (key : String) :
    (object (insertAll [] members)).given key = (object members).given key := by
  rw [given_of_nodup sorted_nil.insertAll.nodup, get_insertAll]
  exact Option.or_none

/-! ## Merges -/

/-- The members of all the objects, the later ones before the earlier. -/
def mergeAll (values : List Json) : List (String × Json) :=
  values.foldl (fun merged v => insertAll merged (v.asObject.getD [])) []

theorem get_mergeInto (values : List Json) :
    (object (values.foldl (fun merged v => insertAll merged (v.asObject.getD [])) base)).get key
      = (values.reverse.findSome? (·.given key)).or ((object base).get key) := by
  induction values generalizing base with
  | nil => rfl
  | cons v rest ih =>
    rw [List.foldl_cons, ih, get_insertAll, List.reverse_cons, List.findSome?_append,
      Option.or_assoc]
    congr 2
    simp [given, asObject]

theorem sorted_mergeInto {values : List Json} (h : Sorted base) :
    Sorted (values.foldl (fun merged v => insertAll merged (v.asObject.getD [])) base) := by
  induction values generalizing base with
  | nil => exact h
  | cons v rest ih => exact ih h.insertAll

theorem given_mergeAll (values : List Json) (key : String) :
    (object (mergeAll values)).given key = values.reverse.findSome? (·.given key) := by
  unfold mergeAll
  rw [given_of_nodup (sorted_mergeInto sorted_nil).nodup, get_mergeInto]
  exact Option.or_none

/-- Two values are the same, or two objects that give the same to every merge. -/
def Agree (a b : Json) : Prop :=
  a = b ∨ (∃ ms, a = .object ms) ∧ (∃ ms, b = .object ms) ∧ ∀ key, a.given key = b.given key

theorem Agree.given_eq {a b : Json} (h : Agree a b) (key : String) : a.given key = b.given key := by
  rcases h with rfl | ⟨-, -, h⟩
  · rfl
  · exact h key

theorem Agree.eq_of_not_object {a b : Json} (h : Agree a b) (ha : a.asObject = none) : a = b := by
  rcases h with rfl | ⟨⟨ms, rfl⟩, -, -⟩
  · rfl
  · cases ha

/-- Every value gives something to a merge, and no key is given twice. -/
def Apart (values : List Json) : Prop :=
  (values.Pairwise fun a b => ∀ key, a.given key = none ∨ b.given key = none) ∧
    ∀ v ∈ values, ∃ key, v.given key ≠ none

/-- From a merge in which no key is given twice one reads back what each of the values gave. -/
theorem forall₂_agree_of_merged {rs es : List Json} (hapart : Apart es)
    (hsub : List.Forall₂ (fun r e => ∀ key, r.given key ≠ none → e.given key ≠ none) rs es)
    (h : ∀ key, rs.reverse.findSome? (·.given key) = es.reverse.findSome? (·.given key)) :
    List.Forall₂ Agree rs es := by
  induction hsub with
  | nil => exact .nil
  | @cons r e rs es hfirst hrest ih =>
    obtain ⟨hpairwise, hgives⟩ := hapart
    obtain ⟨hdisjoint, hpairwise⟩ := List.pairwise_cons.mp hpairwise
    -- A key of the first value is given by none of the others.
    have hothers : ∀ key, e.given key ≠ none →
        es.reverse.findSome? (·.given key) = none ∧ rs.reverse.findSome? (·.given key) = none := by
      intro key hkey
      have hes : ∀ e' ∈ es, e'.given key = none :=
        fun e' he' => (hdisjoint e' he' key).resolve_left hkey
      have hrs : ∀ r' ∈ rs, r'.given key = none := by
        intro r' hr'
        obtain ⟨e', he', hsub⟩ := exists_of_mem_forall₂ hrest.flip hr'
        by_contra hne
        exact hsub key hne (hes e' he')
      exact ⟨List.findSome?_eq_none_iff.mpr fun x hx => hes x (List.mem_reverse.mp hx),
        List.findSome?_eq_none_iff.mpr fun x hx => hrs x (List.mem_reverse.mp hx)⟩
    have hboth : ∀ key, r.given key = e.given key ∧
        rs.reverse.findSome? (·.given key) = es.reverse.findSome? (·.given key) := by
      intro key
      have hkey := h key
      simp only [List.reverse_cons, List.findSome?_append, List.findSome?_cons,
        List.findSome?_nil] at hkey
      by_cases he : e.given key = none
      · have hr : r.given key = none := by
          by_contra hne
          exact hfirst key hne he
        simp only [he, hr, Option.or_none] at hkey
        exact ⟨by rw [he, hr], hkey⟩
      · obtain ⟨hes, hrs⟩ := hothers key he
        simp only [hes, hrs, Option.none_or] at hkey
        refine ⟨?_, by rw [hes, hrs]⟩
        cases hr : r.given key <;> cases he' : e.given key <;> simp_all
    obtain ⟨key, hkey⟩ := hgives e List.mem_cons_self
    refine .cons (.inr ⟨?_, exists_object_of_given hkey, fun key => (hboth key).1⟩)
      (ih ⟨hpairwise, fun v hv => hgives v (List.mem_cons_of_mem e hv)⟩ fun key => (hboth key).2)
    exact exists_object_of_given (by rwa [(hboth key).1])

/-- The values under different keys are read back from the object. -/
theorem eq_of_get_zip {keys : List String} (hkeys : keys.Nodup) {rs es : List Json}
    (hrs : rs.length = keys.length) (hes : es.length = keys.length)
    (h : ∀ key, (object (keys.zip rs)).get key = (object (keys.zip es)).get key) : rs = es := by
  induction keys generalizing rs es with
  | nil => rw [List.eq_nil_of_length_eq_zero hrs, List.eq_nil_of_length_eq_zero hes]
  | cons k keys ih =>
    obtain ⟨hk, hkeys⟩ := List.nodup_cons.mp hkeys
    obtain ⟨r, rs, rfl⟩ := List.exists_cons_of_length_eq_add_one hrs
    obtain ⟨e, es, rfl⟩ := List.exists_cons_of_length_eq_add_one hes
    have hfirst := h k
    simp only [List.zip_cons_cons, get_object_cons, if_pos] at hfirst
    have hrest : rs = es := by
      refine ih hkeys (Nat.succ.inj hrs) (Nat.succ.inj hes) fun key => ?_
      by_cases hkey : k = key
      · subst hkey
        have hnone : ∀ vs : List Json, (object (keys.zip vs)).get k = none := by
          intro vs
          refine Option.map_eq_none_iff.mpr (List.find?_eq_none.mpr fun e' he' => ?_)
          rw [decide_eq_true_eq]
          rintro rfl
          exact hk (List.of_mem_zip he').1
        rw [hnone, hnone]
      · have hkey' := h key
        simpa only [List.zip_cons_cons, get_object_cons, if_neg hkey] using hkey'
    rw [Option.some.inj hfirst, hrest]

theorem given_zip_ne_none {keys : List String} {vs : List Json} (h : vs.length = keys.length) :
    (object (keys.zip vs)).given key ≠ none ↔ key ∈ keys := by
  have hmap : (keys.zip vs).map (·.1) = keys := List.map_fst_zip (by omega)
  rw [given_object, ne_eq, get, Option.map_eq_none_iff, List.find?_eq_none]
  conv_rhs => rw [← hmap]
  simp

end Voleeo.Json
