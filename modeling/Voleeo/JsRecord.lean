import Voleeo.JsString
import Voleeo.OrderedMap

/-!
# String records of JavaScript

A plain object with string values lists its array-index keys first, in numeric
order, and the other keys in the order of their first write. A write of a string
to `__proto__` changes nothing.
-/
namespace Voleeo
open OrderedMap

def protoKey : Text := "__proto__".toList

/-- A canonical decimal numeral below `2 ^ 32 - 1`. -/
def isArrayIndex (key : Text) : Bool :=
  !key.isEmpty && key.all Char.isDigit && (key == ['0'] || key.head? != some '0') &&
    digitsValue key < 2 ^ 32 - 1

/-- Write an array-index entry at its place in numeric order. -/
def insertIndex (key value : Text) : List (Text × Text) → List (Text × Text)
  | [] => [(key, value)]
  | e :: rest =>
    if digitsValue key < digitsValue e.1 then (key, value) :: e :: rest
    else if digitsValue e.1 < digitsValue key then e :: insertIndex key value rest
    else (key, value) :: rest

theorem mem_insertIndex {key value : Text} {es : List (Text × Text)} {e : Text × Text}
    (h : e ∈ insertIndex key value es) : e = (key, value) ∨ e ∈ es := by
  induction es with
  | nil => exact Or.inl (List.mem_singleton.mp h)
  | cons a rest ih =>
    unfold insertIndex at h
    split_ifs at h
    · exact List.mem_cons.mp h
    · rcases List.mem_cons.mp h with rfl | h
      · exact Or.inr List.mem_cons_self
      · exact (ih h).imp id (List.mem_cons_of_mem _)
    · rcases List.mem_cons.mp h with rfl | h
      · exact Or.inl rfl
      · exact Or.inr (List.mem_cons_of_mem _ h)

theorem insertIndex_sorted (key value : Text) {es : List (Text × Text)}
    (h : es.Pairwise fun a b => digitsValue a.1 < digitsValue b.1) :
    (insertIndex key value es).Pairwise fun a b => digitsValue a.1 < digitsValue b.1 := by
  induction es with
  | nil => simp [insertIndex]
  | cons a rest ih =>
    rw [List.pairwise_cons] at h
    unfold insertIndex
    split_ifs with hlt hgt
    · rw [List.pairwise_cons, List.pairwise_cons]
      refine ⟨?_, h⟩
      intro b hb
      rcases List.mem_cons.mp hb with rfl | hb
      · exact hlt
      · exact hlt.trans (h.1 b hb)
    · rw [List.pairwise_cons]
      refine ⟨?_, ih h.2⟩
      intro b hb
      rcases mem_insertIndex hb with rfl | hb
      · exact hgt
      · exact h.1 b hb
    · rw [List.pairwise_cons]
      refine ⟨?_, h.2⟩
      intro b hb
      have hab := h.1 b hb
      show digitsValue key < digitsValue b.1
      omega

theorem insertIndex_of_lt {key value : Text} {es : List (Text × Text)}
    (h : ∀ e ∈ es, digitsValue e.1 < digitsValue key) :
    insertIndex key value es = es ++ [(key, value)] := by
  induction es with
  | nil => rfl
  | cons a rest ih =>
    have ha := h a List.mem_cons_self
    have hno : ¬ digitsValue key < digitsValue a.1 := by omega
    rw [insertIndex, if_neg hno, if_pos ha, ih fun e he => h e (List.mem_cons_of_mem _ he)]
    rfl

/-- An object whose own keys are in the order that the language lists them. -/
structure JsRecord where
  indexed : List (Text × Text)
  named : OrderedMap Text Text
  indexed_index : ∀ e ∈ indexed, isArrayIndex e.1 = true
  indexed_sorted : indexed.Pairwise fun a b => digitsValue a.1 < digitsValue b.1
  named_not_index : ∀ key ∈ named.keys, isArrayIndex key = false

namespace JsRecord

def empty : JsRecord := ⟨[], OrderedMap.empty, by simp, by simp, by simp [keys, OrderedMap.empty]⟩

/-- `Object.entries`. -/
def entries (r : JsRecord) : List (Text × Text) := r.indexed ++ r.named.entries

def keys (r : JsRecord) : List Text := r.entries.map Prod.fst

/-- `record[key] = value` for a string value. -/
def set (r : JsRecord) (key value : Text) : JsRecord :=
  if key = protoKey then r
  else if h : isArrayIndex key = true then
    { indexed := insertIndex key value r.indexed
      named := r.named
      indexed_index := by
        intro e he
        rcases mem_insertIndex he with rfl | he
        · exact h
        · exact r.indexed_index e he
      indexed_sorted := insertIndex_sorted key value r.indexed_sorted
      named_not_index := r.named_not_index }
  else
    { indexed := r.indexed
      named := r.named.set key value
      indexed_index := r.indexed_index
      indexed_sorted := r.indexed_sorted
      named_not_index := by
        intro k hk
        rcases mem_keys_set.mp hk with rfl | hk
        · simpa using h
        · exact r.named_not_index k hk }

/-- Write the entries one after another into an empty object. -/
def ofEntries (es : List (Text × Text)) : JsRecord := es.foldl (fun r e => r.set e.1 e.2) empty

theorem ext {r r' : JsRecord} (hi : r.indexed = r'.indexed)
    (hn : r.named.entries = r'.named.entries) : r = r' := by
  obtain ⟨indexed, ⟨named, nodup⟩, _, _, _⟩ := r
  obtain ⟨indexed', ⟨named', nodup'⟩, _, _, _⟩ := r'
  cases hi
  cases hn
  rfl

theorem indexed_set (r : JsRecord) (key value : Text) :
    (r.set key value).indexed =
      if key ≠ protoKey ∧ isArrayIndex key = true then insertIndex key value r.indexed
      else r.indexed := by
  unfold set
  split_ifs <;> simp_all

theorem named_set (r : JsRecord) (key value : Text) :
    (r.set key value).named.entries =
      if key ≠ protoKey ∧ isArrayIndex key = false then setEntry key value r.named.entries
      else r.named.entries := by
  unfold set
  split_ifs <;> simp_all

theorem mem_keys_of_set {r : JsRecord} {key value k : Text} (h : k ∈ (r.set key value).keys) :
    (k = key ∧ key ≠ protoKey) ∨ k ∈ r.keys := by
  by_cases hp : key = protoKey
  · rw [set, if_pos hp] at h
    exact Or.inr h
  · obtain ⟨e, he, rfl⟩ := List.mem_map.mp h
    rcases List.mem_append.mp he with he | he
    · rw [indexed_set] at he
      split_ifs at he
      · rcases mem_insertIndex he with rfl | he
        · exact Or.inl ⟨rfl, hp⟩
        · exact Or.inr (List.mem_map.mpr ⟨e, List.mem_append_left _ he, rfl⟩)
      · exact Or.inr (List.mem_map.mpr ⟨e, List.mem_append_left _ he, rfl⟩)
    · rw [named_set] at he
      split_ifs at he
      · have hk : e.1 ∈ (setEntry key value r.named.entries).map Prod.fst :=
          List.mem_map.mpr ⟨e, he, rfl⟩
        have hmem : e.1 ∈ (r.named.set key value).keys := hk
        rcases mem_keys_set.mp hmem with hk | hk
        · exact Or.inl ⟨hk, hp⟩
        · obtain ⟨e', he', heq⟩ := List.mem_map.mp hk
          exact Or.inr (List.mem_map.mpr ⟨e', List.mem_append_right _ he', heq⟩)
      · exact Or.inr (List.mem_map.mpr ⟨e, List.mem_append_right _ he, rfl⟩)

/-- The keys of a built object come from its entries, and `__proto__` is not among them. -/
theorem mem_keys_ofEntries {es : List (Text × Text)} {k : Text} (h : k ∈ (ofEntries es).keys) :
    k ∈ es.map Prod.fst ∧ k ≠ protoKey := by
  induction es using List.reverseRecOn with
  | nil => simp [ofEntries, empty, keys, entries, OrderedMap.empty] at h
  | append_singleton es e ih =>
    rw [ofEntries, List.foldl_append] at h
    rcases mem_keys_of_set h with ⟨rfl, hp⟩ | h
    · exact ⟨by simp, hp⟩
    · obtain ⟨hk, hp⟩ := ih h
      exact ⟨by simp only [List.map_append, List.mem_append]; exact Or.inl hk, hp⟩

theorem foldl_set_indexed (pre : List (Text × Text)) {post : List (Text × Text)} {r : JsRecord}
    (hr : r.indexed = pre)
    (hindex : ∀ e ∈ post, isArrayIndex e.1 = true)
    (hsorted : (pre ++ post).Pairwise fun a b => digitsValue a.1 < digitsValue b.1) :
    (post.foldl (fun r e => r.set e.1 e.2) r).indexed = pre ++ post ∧
      (post.foldl (fun r e => r.set e.1 e.2) r).named.entries = r.named.entries := by
  induction post generalizing pre r with
  | nil => simpa using hr
  | cons e post ih =>
    have hidx := hindex e List.mem_cons_self
    have hp : e.1 ≠ protoKey := by
      intro hp
      rw [hp] at hidx
      exact absurd hidx (by decide)
    have hlt : ∀ a ∈ pre, digitsValue a.1 < digitsValue e.1 := by
      intro a ha
      exact (List.pairwise_append.mp hsorted).2.2 a ha e List.mem_cons_self
    have hstep : (r.set e.1 e.2).indexed = pre ++ [e] := by
      rw [indexed_set, if_pos ⟨hp, hidx⟩, hr]
      exact insertIndex_of_lt hlt
    have hnamed : (r.set e.1 e.2).named.entries = r.named.entries := by
      rw [named_set, if_neg]
      rw [hidx]
      simp
    rw [List.foldl_cons]
    obtain ⟨hi, hn⟩ := ih _ hstep (fun a ha => hindex a (List.mem_cons_of_mem _ ha))
      (by rwa [List.append_assoc, List.singleton_append])
    exact ⟨by rw [hi, List.append_assoc, List.singleton_append], hn.trans hnamed⟩

theorem foldl_set_named (pre : List (Text × Text)) {post : List (Text × Text)} {r : JsRecord}
    (hr : r.named.entries = pre)
    (hindex : ∀ e ∈ post, isArrayIndex e.1 = false ∧ e.1 ≠ protoKey)
    (hnodup : ((pre ++ post).map Prod.fst).Nodup) :
    (post.foldl (fun r e => r.set e.1 e.2) r).named.entries = pre ++ post ∧
      (post.foldl (fun r e => r.set e.1 e.2) r).indexed = r.indexed := by
  induction post generalizing pre r with
  | nil => simpa using hr
  | cons e post ih =>
    obtain ⟨hidx, hp⟩ := hindex e List.mem_cons_self
    have hno : e.1 ∉ pre.map Prod.fst := by
      rw [List.map_append, List.map_cons, List.nodup_append] at hnodup
      intro hm
      exact hnodup.2.2 _ hm _ List.mem_cons_self rfl
    have hstep : (r.set e.1 e.2).named.entries = pre ++ [e] := by
      rw [named_set, if_pos ⟨hp, hidx⟩, hr]
      exact setEntry_of_not_mem e.1 e.2 hno
    have hindexed : (r.set e.1 e.2).indexed = r.indexed := by
      rw [indexed_set, if_neg]
      rw [hidx]
      simp
    rw [List.foldl_cons]
    obtain ⟨hn, hi⟩ := ih _ hstep (fun a ha => hindex a (List.mem_cons_of_mem _ ha))
      (by rwa [List.append_assoc, List.singleton_append])
    exact ⟨by rw [hn, List.append_assoc, List.singleton_append], hi.trans hindexed⟩

/-- Writing the listed entries back rebuilds the object, when `__proto__` is not among them. -/
theorem ofEntries_entries {r : JsRecord} (h : protoKey ∉ r.keys) : ofEntries r.entries = r := by
  unfold ofEntries entries
  rw [List.foldl_append]
  obtain ⟨hi, hn⟩ := foldl_set_indexed (r := empty) [] rfl r.indexed_index
    (by simpa using r.indexed_sorted)
  have hnamed : ∀ e ∈ r.named.entries, isArrayIndex e.1 = false ∧ e.1 ≠ protoKey := by
    intro e he
    refine ⟨r.named_not_index e.1 (List.mem_map.mpr ⟨e, he, rfl⟩), ?_⟩
    intro hp
    exact h (List.mem_map.mpr ⟨e, List.mem_append_right _ he, hp⟩)
  obtain ⟨hn', hi'⟩ := foldl_set_named [] hn hnamed (by simpa using r.named.nodup)
  exact ext (by rw [hi', hi]; rfl) (by rw [hn']; rfl)

/-- Distinct keys that are no array indices are listed as they were written, without `__proto__`. -/
theorem entries_ofEntries {es : List (Text × Text)} (hindex : ∀ e ∈ es, isArrayIndex e.1 = false)
    (hnodup : (es.map Prod.fst).Nodup) :
    (ofEntries es).entries = es.filter fun e => e.1 ≠ protoKey := by
  have hskip : ofEntries es = ofEntries (es.filter fun e => e.1 ≠ protoKey) := by
    unfold ofEntries
    rw [List.foldl_filter]
    congr 1
    funext r e
    by_cases hp : e.1 = protoKey
    · simp [hp, set]
    · simp [hp]
  have hnamed : ∀ e ∈ es.filter (fun e => e.1 ≠ protoKey),
      isArrayIndex e.1 = false ∧ e.1 ≠ protoKey := by
    intro e he
    obtain ⟨hmem, hp⟩ := List.mem_filter.mp he
    exact ⟨hindex e hmem, by simpa using hp⟩
  obtain ⟨hn, hi⟩ := foldl_set_named (r := empty) [] rfl hnamed
    (hnodup.sublist (List.filter_sublist.map _))
  rw [hskip, entries, ofEntries, hi, hn]
  rfl

end JsRecord
end Voleeo
