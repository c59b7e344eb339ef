import Voleeo.Imports.InlinedSchema

/-!
# References that are met again

A walk gives the whole example where each reference that it meets again says, without its target,
what the target says. Where no key is given twice in a merge, it does so nowhere else.
-/
namespace Voleeo.Imports.SchemaExample
open Json (insertAll mergeAll Agree Apart)

mutual

/-- The references followed after a walk, in a schema that is not too deep. -/
def Schema.follow : Schema → List String → List String
  | .value _, seen => seen
  | .allOf members, seen => follows members seen
  | .variant first, seen => first.follow seen
  | .object _ props, seen => follows props seen
  | .array items, seen => items.follow seen
  | .ref ptr bare target, seen =>
    if ptr ∈ seen then bare.follow seen else target.follow (ptr :: seen)
  | .dead ptr bare, seen => bare.follow (if ptr ∈ seen then seen else ptr :: seen)

def follows : List Schema → List String → List String
  | [], seen => seen
  | s :: rest, seen => follows rest (s.follow seen)

end

mutual

/-- Wherever the walk meets a reference again, what its node says besides is the example of the
target. -/
def Schema.Spared : Schema → List String → Prop
  | .value _, _ => True
  | .allOf members, seen => AllSpared members seen
  | .variant first, seen => first.Spared seen
  | .object _ props, seen => AllSpared props seen
  | .array items, seen => items.Spared seen
  | .ref ptr bare target, seen =>
    (ptr ∈ seen → bare = .value target.wholeExample) ∧
      (ptr ∉ seen → target.Spared (ptr :: seen))
  | .dead ptr bare, seen => bare.Spared (if ptr ∈ seen then seen else ptr :: seen)

def AllSpared : List Schema → List String → Prop
  | [], _ => True
  | s :: rest, seen => s.Spared seen ∧ AllSpared rest (s.follow seen)

end

mutual

/-- Besides their targets the references say nothing that goes into an object, and the members of a
merge give different keys. -/
def Schema.Plain : Schema → Prop
  | .value _ => True
  | .allOf members => Apart (wholeExamples members) ∧ AllPlain members
  | .variant first => first.Plain
  | .object keys props => keys.Nodup ∧ props.length = keys.length ∧ AllPlain props
  | .array items => items.Plain
  | .ref _ bare target => (∃ v, bare = .value v ∧ v.asObject = none) ∧ target.Plain
  | .dead _ bare => bare.Plain

def AllPlain : List Schema → Prop
  | [] => True
  | s :: rest => s.Plain ∧ AllPlain rest

end

variable {depth : ℕ} {seen : List String}

theorem length_wholeExamples (ss : List Schema) : (wholeExamples ss).length = ss.length := by
  induction ss with
  | nil => rfl
  | cons s rest ih => rw [wholeExamples, List.length_cons, ih, List.length_cons]

theorem length_readings (ss : List Schema) (depth : ℕ) (seen : List String) :
    (readings ss depth seen).1.length = ss.length := by
  induction ss generalizing seen with
  | nil => rfl
  | cons s rest ih => rw [readings, List.length_cons, ih, List.length_cons]

/-- Only an object without properties is at the bound. -/
theorem eq_nil_of_nesting_zero {keys : List String} {props : List Schema}
    (h : (Schema.object keys props).nesting ≤ 0) : props = [] := by
  cases props with
  | nil => rfl
  | cons s rest =>
    rw [Schema.nesting] at h
    omega

theorem nestings_le_of_object {keys : List String} {props : List Schema}
    (h : (Schema.object keys props).nesting ≤ depth + 1) : nestings props ≤ depth := by
  cases props with
  | nil => exact Nat.zero_le depth
  | cons s rest =>
    rw [Schema.nesting] at h
    rw [nestings]
    omega

/-! ## Spared references -/

mutual

theorem Schema.reading_of_spared : ∀ (s : Schema) {depth : ℕ} {seen : List String},
    s.nesting ≤ depth → s.Spared seen → s.reading depth seen = (s.wholeExample, s.follow seen)
  | .value _, _, _, _, _ => rfl
  | .allOf members, _, _, hdepth, hspared => by
      rw [Schema.reading, readings_of_spared members hdepth hspared]
      rfl
  | .variant first, _, _, hdepth, hspared => Schema.reading_of_spared first hdepth hspared
  | .object keys props, 0, _, hdepth, _ => by
      cases eq_nil_of_nesting_zero hdepth
      rw [Schema.reading, Schema.wholeExample, wholeExamples, List.zip_nil_right]
      rfl
  | .object keys props, depth + 1, _, hdepth, hspared => by
      rw [Schema.reading, readings_of_spared props (nestings_le_of_object hdepth) hspared]
      rfl
  | .array items, 0, _, hdepth, _ => absurd hdepth (Nat.not_succ_le_zero _)
  | .array items, depth + 1, _, hdepth, hspared => by
      rw [Schema.reading, Schema.reading_of_spared items (Nat.le_of_succ_le_succ hdepth) hspared]
      rfl
  | .ref ptr bare target, depth, seen, hdepth, hspared => by
      rw [Schema.reading, Schema.follow]
      by_cases hseen : ptr ∈ seen
      · rw [if_pos hseen, if_pos hseen, hspared.1 hseen]
        rfl
      · rw [if_neg hseen, if_neg hseen]
        exact Schema.reading_of_spared target hdepth (hspared.2 hseen)
  | .dead ptr bare, _, _, hdepth, hspared => Schema.reading_of_spared bare hdepth hspared

theorem readings_of_spared : ∀ (ss : List Schema) {depth : ℕ} {seen : List String},
    nestings ss ≤ depth → AllSpared ss seen →
      readings ss depth seen = (wholeExamples ss, follows ss seen)
  | [], _, _, _, _ => rfl
  | s :: rest, depth, seen, hdepth, hspared => by
      rw [nestings] at hdepth
      have hs := Schema.reading_of_spared s (le_trans (le_max_left _ _) hdepth) hspared.1
      have hrest := readings_of_spared rest (le_trans (le_max_right _ _) hdepth) hspared.2
      rw [readings, hs, hrest]
      rfl

end

/-! ## Plain schemas -/

mutual

theorem Schema.follow_of_plain : ∀ (s : Schema) {depth : ℕ} {seen : List String},
    s.nesting ≤ depth → s.Plain → (s.reading depth seen).2 = s.follow seen
  | .value _, _, _, _, _ => rfl
  | .allOf members, _, _, hdepth, hplain => follows_of_plain members hdepth hplain.2
  | .variant first, _, _, hdepth, hplain => Schema.follow_of_plain first hdepth hplain
  | .object keys props, 0, _, hdepth, _ => by
      cases eq_nil_of_nesting_zero hdepth
      rfl
  | .object keys props, depth + 1, _, hdepth, hplain =>
    follows_of_plain props (nestings_le_of_object hdepth) hplain.2.2
  | .array items, 0, _, hdepth, _ => absurd hdepth (Nat.not_succ_le_zero _)
  | .array items, depth + 1, _, hdepth, hplain =>
    Schema.follow_of_plain items (Nat.le_of_succ_le_succ hdepth) hplain
  | .ref ptr bare target, depth, seen, hdepth, hplain => by
      obtain ⟨⟨v, rfl, -⟩, htarget⟩ := hplain
      rw [Schema.reading, Schema.follow]
      by_cases hseen : ptr ∈ seen
      · rw [if_pos hseen, if_pos hseen]
        rfl
      · rw [if_neg hseen, if_neg hseen]
        exact Schema.follow_of_plain target hdepth htarget
  | .dead ptr bare, _, _, hdepth, hplain => Schema.follow_of_plain bare hdepth hplain

theorem follows_of_plain : ∀ (ss : List Schema) {depth : ℕ} {seen : List String},
    nestings ss ≤ depth → AllPlain ss → (readings ss depth seen).2 = follows ss seen
  | [], _, _, _, _ => rfl
  | s :: rest, depth, seen, hdepth, hplain => by
      rw [nestings] at hdepth
      rw [readings, follows,
        ← Schema.follow_of_plain s (le_trans (le_max_left _ _) hdepth) hplain.1]
      exact follows_of_plain rest (le_trans (le_max_right _ _) hdepth) hplain.2

end

/-- What the one value gives to a merge the other gives too, if not with the same value. -/
def GivesIn (r e : Json) : Prop := ∀ key, r.given key ≠ none → e.given key ≠ none

theorem givesIn_merged {rs es : List Json} (h : List.Forall₂ GivesIn rs es) :
    GivesIn (.object (mergeAll rs)) (.object (mergeAll es)) := by
  intro key hkey
  rw [Json.given_mergeAll] at hkey ⊢
  intro hnone
  refine hkey (List.findSome?_eq_none_iff.mpr fun r hr => ?_)
  obtain ⟨e, he, hgives⟩ := exists_of_mem_forall₂ h.flip (List.mem_reverse.mp hr)
  by_contra hne
  exact hgives key hne (List.findSome?_eq_none_iff.mp hnone e (List.mem_reverse.mpr he))

theorem givesIn_object {keys : List String} {rs es : List Json} (hrs : rs.length = keys.length)
    (hes : es.length = keys.length) :
    GivesIn (.object (insertAll [] (keys.zip rs))) (.object (insertAll [] (keys.zip es))) := by
  intro key hkey
  rw [Json.given_insertAll_nil, Json.given_zip_ne_none hrs] at hkey
  rwa [Json.given_insertAll_nil, Json.given_zip_ne_none hes]

mutual

theorem Schema.givesIn_of_plain : ∀ (s : Schema) {depth : ℕ} {seen : List String},
    s.nesting ≤ depth → s.Plain → GivesIn (s.reading depth seen).1 s.wholeExample
  | .value _, _, _, _, _ => fun _ h => h
  | .allOf members, _, _, hdepth, hplain => by
      rw [Schema.reading, Schema.wholeExample]
      exact givesIn_merged (allGiveIn_of_plain members hdepth hplain.2)
  | .variant first, _, _, hdepth, hplain => Schema.givesIn_of_plain first hdepth hplain
  | .object keys props, 0, _, hdepth, _ => by
      cases eq_nil_of_nesting_zero hdepth
      rw [Schema.reading, Schema.wholeExample, wholeExamples, List.zip_nil_right]
      exact fun _ h => h
  | .object keys props, depth + 1, seen, _, hplain => by
      rw [Schema.reading, Schema.wholeExample]
      exact givesIn_object ((length_readings props depth seen).trans hplain.2.1)
        ((length_wholeExamples props).trans hplain.2.1)
  | .array items, 0, _, hdepth, _ => absurd hdepth (Nat.not_succ_le_zero _)
  | .array items, depth + 1, _, _, _ => fun _ h => absurd rfl h
  | .ref ptr bare target, depth, seen, hdepth, hplain => by
      obtain ⟨⟨v, rfl, hv⟩, htarget⟩ := hplain
      rw [Schema.reading]
      by_cases hseen : ptr ∈ seen
      · rw [if_pos hseen]
        exact fun key h => absurd (Json.given_eq_none_of_asObject hv key) h
      · rw [if_neg hseen]
        exact Schema.givesIn_of_plain target hdepth htarget
  | .dead ptr bare, _, _, hdepth, hplain => Schema.givesIn_of_plain bare hdepth hplain

theorem allGiveIn_of_plain : ∀ (ss : List Schema) {depth : ℕ} {seen : List String},
    nestings ss ≤ depth → AllPlain ss →
      List.Forall₂ GivesIn (readings ss depth seen).1 (wholeExamples ss)
  | [], _, _, _, _ => .nil
  | s :: rest, depth, seen, hdepth, hplain => by
      rw [nestings] at hdepth
      exact .cons (Schema.givesIn_of_plain s (le_trans (le_max_left _ _) hdepth) hplain.1)
        (allGiveIn_of_plain rest (le_trans (le_max_right _ _) hdepth) hplain.2)

end

/-- The properties of two objects with the same keys are read back. -/
theorem eq_of_agree_object {keys : List String} (hkeys : keys.Nodup) {rs es : List Json}
    (hrs : rs.length = keys.length) (hes : es.length = keys.length)
    (h : Agree (.object (insertAll [] (keys.zip rs))) (.object (insertAll [] (keys.zip es)))) :
    rs = es := by
  have hnodup : ∀ vs : List Json, vs.length = keys.length → ((keys.zip vs).map (·.1)).Nodup := by
    intro vs hlength
    rwa [List.map_fst_zip (Nat.le_of_eq hlength.symm)]
  refine Json.eq_of_get_zip hkeys hrs hes fun key => ?_
  have hkey := h.given_eq key
  rwa [Json.given_insertAll_nil, Json.given_insertAll_nil, Json.given_of_nodup (hnodup rs hrs),
    Json.given_of_nodup (hnodup es hes)] at hkey

theorem forall₂_agree_refl (vs : List Json) : List.Forall₂ Agree vs vs :=
  List.forall₂_same.mpr fun _ _ => .inl rfl

mutual

theorem Schema.spared_of_agree : ∀ (s : Schema) {depth : ℕ} {seen : List String},
    s.nesting ≤ depth → s.Plain → Agree (s.reading depth seen).1 s.wholeExample → s.Spared seen
  | .value _, _, _, _, _, _ => trivial
  | .allOf members, depth, seen, hdepth, hplain, hagree => by
      have hgives := @allGiveIn_of_plain members depth seen hdepth hplain.2
      refine allSpared_of_agree members hdepth hplain.2
        (Json.forall₂_agree_of_merged hplain.1 hgives fun key => ?_)
      have hkey := hagree.given_eq key
      rwa [Schema.reading, Schema.wholeExample, Json.given_mergeAll, Json.given_mergeAll] at hkey
  | .variant first, _, _, hdepth, hplain, hagree =>
    Schema.spared_of_agree first hdepth hplain hagree
  | .object keys props, 0, _, hdepth, _, _ => by
      cases eq_nil_of_nesting_zero hdepth
      trivial
  | .object keys props, depth + 1, seen, hdepth, hplain, hagree => by
      rw [Schema.reading, Schema.wholeExample] at hagree
      have heq := eq_of_agree_object hplain.1 ((length_readings props depth seen).trans hplain.2.1)
        ((length_wholeExamples props).trans hplain.2.1) hagree
      refine allSpared_of_agree props (nestings_le_of_object hdepth) hplain.2.2 ?_
      rw [heq]
      exact forall₂_agree_refl (wholeExamples props)
  | .array items, 0, _, hdepth, _, _ => absurd hdepth (Nat.not_succ_le_zero _)
  | .array items, depth + 1, seen, hdepth, hplain, hagree => by
      have heq := hagree.eq_of_not_object rfl
      rw [Schema.wholeExample] at heq
      have hitem : (items.reading depth seen).1 = items.wholeExample :=
        List.head_eq_of_cons_eq (Json.array.inj heq)
      exact Schema.spared_of_agree items (Nat.le_of_succ_le_succ hdepth) hplain (.inl hitem)
  | .ref ptr bare target, depth, seen, hdepth, hplain, hagree => by
      obtain ⟨⟨v, rfl, hv⟩, htarget⟩ := hplain
      rw [Schema.reading, Schema.wholeExample] at hagree
      refine ⟨fun hseen => ?_, fun hseen => ?_⟩
      · rw [if_pos hseen] at hagree
        exact congrArg Schema.value (hagree.eq_of_not_object hv)
      · rw [if_neg hseen] at hagree
        exact Schema.spared_of_agree target hdepth htarget hagree
  | .dead ptr bare, _, _, hdepth, hplain, hagree => Schema.spared_of_agree bare hdepth hplain hagree

theorem allSpared_of_agree : ∀ (ss : List Schema) {depth : ℕ} {seen : List String},
    nestings ss ≤ depth → AllPlain ss →
      List.Forall₂ Agree (readings ss depth seen).1 (wholeExamples ss) → AllSpared ss seen
  | [], _, _, _, _, _ => trivial
  | s :: rest, depth, seen, hdepth, hplain, hagree => by
      rw [nestings] at hdepth
      rw [readings, wholeExamples] at hagree
      have hs : s.nesting ≤ depth := le_trans (le_max_left _ _) hdepth
      obtain ⟨hfirst, hrest⟩ := List.forall₂_cons.mp hagree
      rw [Schema.follow_of_plain s hs hplain.1] at hrest
      exact ⟨Schema.spared_of_agree s hs hplain.1 hfirst,
        allSpared_of_agree rest (le_trans (le_max_right _ _) hdepth) hplain.2 hrest⟩

end

/-! ## The example of a schema of a document -/

/-- The example is written, with whatever fuel is enough. -/
def Writes (root v : Json) (depth : ℕ) (r : Json) : Prop :=
  ∃ fuel, ∀ fuel' ≥ fuel, schemaExample root fuel' v depth = some r

theorem Reads.writes {root v : Json} {depth : ℕ} {r : Json × List String}
    (h : Reads root depth v [] r) : Writes root v depth r.1 := by
  obtain ⟨fuel, hfuel⟩ := h
  refine ⟨fuel, fun fuel' hle => ?_⟩
  rw [schemaExample, exampleInner_le hle hfuel, Option.map_some]

theorem Writes.unique {root v : Json} {depth : ℕ} {r r' : Json} (h : Writes root v depth r)
    (h' : Writes root v depth r') : r = r' := by
  obtain ⟨m, hm⟩ := h
  obtain ⟨n, hn⟩ := h'
  have hm' := hm (max m n) (le_max_left m n)
  rw [hn (max m n) (le_max_right m n)] at hm'
  exact (Option.some.inj hm').symm

/-- For every document the example is written. A schema whose references do not loop is a tree. The
example of a schema within the bound is the one of the tree if all references that are met
again are spared, and in a plain schema only then. -/
theorem schemaExample_whole_iff (root v : Json) (depth : ℕ) :
    (∃ r, Writes root v depth r) ∧
      (NoLoop (Next root) v ↔ ∃ fuel s, inline root fuel v = some s) ∧
      ∀ fuel s, inline root fuel v = some s → s.nesting ≤ depth →
        (s.Spared [] → Writes root v depth s.wholeExample) ∧
        (s.Plain → (Writes root v depth s.wholeExample ↔ s.Spared [])) := by
  refine ⟨?_, exists_inline_iff.symm, fun fuel s hs hdepth => ?_⟩
  · obtain ⟨r, hr⟩ := exists_reads root v depth []
    exact ⟨r.1, hr.writes⟩
  have hwrites := (reads_inline hs depth []).writes
  have hspared : s.Spared [] → Writes root v depth s.wholeExample := by
    intro hspared
    rwa [s.reading_of_spared hdepth hspared] at hwrites
  refine ⟨hspared, fun hplain => ⟨fun h => ?_, hspared⟩⟩
  exact s.spared_of_agree hdepth hplain (.inl (hwrites.unique h))

/-- Two properties share a component. -/
def pairSchema : Json :=
  .object [("properties", .object [
    ("a", .object [("$ref", .string "#/definitions/Id")]),
    ("b", .object [("$ref", .string "#/definitions/Id")])])]

def sharedDocument : Json :=
  .object [("definitions", .object [
    ("Id", .object [("type", .string "integer")]), ("Pair", pairSchema)])]

theorem second_reference_not_filled :
    lookup sharedDocument "#/definitions/Pair" = some pairSchema ∧
      NoLoop (Next sharedDocument) pairSchema ∧
      ∃ s, inline sharedDocument 3 pairSchema = some s ∧ s.nesting ≤ 6 ∧
        s.wholeExample = .object [("a", .number "0"), ("b", .number "0")] ∧
        Writes sharedDocument pairSchema 6 (.object [("a", .number "0"), ("b", .null)]) ∧
        ¬ Writes sharedDocument pairSchema 6 s.wholeExample := by
  have hwrites : Writes sharedDocument pairSchema 6
      (.object [("a", .number "0"), ("b", .null)]) :=
    Reads.writes (r := (_, ["#/definitions/Id"])) ⟨4, rfl⟩
  refine ⟨rfl, exists_inline_iff.mp ⟨3, _, rfl⟩, _, rfl, by decide, rfl, hwrites, fun h => ?_⟩
  have heq : Json.object [("a", .number "0"), ("b", .null)]
      = .object [("a", .number "0"), ("b", .number "0")] := hwrites.unique h
  simp at heq

end Voleeo.Imports.SchemaExample
