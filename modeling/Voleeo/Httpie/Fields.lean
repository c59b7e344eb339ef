import Voleeo.Httpie.Items

/-!
# How the members of a body are read

A member is read back as itself under conditions on its own argument. No other way
of reading the arguments gives the members of the object back: what is read in
place of a member is no longer than its argument, and a permutation that never
makes anything longer changes no length.
-/
namespace Voleeo.Httpie
open Curl
open Resolve (splitOnce splitOnce_eq_some splitOnce_eq_none not_infix_of_splitOnce)

/-! ## Measures -/

/-- A permutation that raises no measure keeps it. -/
theorem measure_eq_of_perm {α : Type} {l : List α} {f : α → α} (hperm : (l.map f).Perm l)
    (measure : α → ℕ) (hle : ∀ a ∈ l, measure (f a) ≤ measure a) :
    ∀ a ∈ l, measure (f a) = measure a := by
  by_contra hno
  push Not at hno
  obtain ⟨a, ha, hne⟩ := hno
  have hlt := List.sum_lt_sum (fun b => measure (f b)) measure hle
    ⟨a, ha, lt_of_le_of_ne (hle a ha) hne⟩
  have hsum := (hperm.map measure).sum_eq
  rw [List.map_map] at hsum
  exact absurd hsum (Nat.ne_of_lt hlt)

/-! ## Continued lines -/

theorem collapse_sublist (s : Text) : (collapse s).Sublist s := by
  induction s using collapse.induct with
  | case1 => exact List.Sublist.slnil
  | case2 rest ih => exact (ih.cons _).cons _
  | case3 rest ih => exact ((ih.cons _).cons _).cons _
  | case4 c rest hlf hcrlf ih =>
    rw [collapse.eq_4 c rest hlf hcrlf]
    exact ih.cons_cons c

/-- Only backslashes and line breaks are taken out. -/
theorem mem_collapse {c : Char} {s : Text} (h : c ∈ s) (hc : c ∉ ['\\', '\n', '\r']) :
    c ∈ collapse s := by
  simp only [List.mem_cons, List.not_mem_nil, or_false, not_or] at hc
  obtain ⟨hback, hlf, hcr⟩ := hc
  induction s using collapse.induct with
  | case1 => cases h
  | case2 rest ih =>
    simp only [List.mem_cons, hback, hlf, false_or] at h
    exact ih h
  | case3 rest ih =>
    simp only [List.mem_cons, hback, hlf, hcr, false_or] at h
    exact ih h
  | case4 d rest hno hno' ih =>
    rw [collapse.eq_4 d rest hno hno']
    rcases List.mem_cons.mp h with rfl | h
    · exact List.mem_cons_self
    · exact List.mem_cons_of_mem d (ih h)

/-! ## Reading a member -/

def isTextValue : Json → Bool
  | .string _ => true
  | _ => false

/-- A member as the loop lists it. -/
def asField (e : String × Json) : Text × Json := (e.1.toList, e.2)

theorem asField_injective : Function.Injective asField := by
  rintro ⟨key, value⟩ ⟨key', value'⟩ h
  obtain ⟨hkey, hvalue⟩ := Prod.mk.inj h
  exact Prod.ext (String.toList_inj.mp hkey) hvalue

theorem fieldArg_text {e : String × Json} (h : isTextValue e.2 = true) :
    ∃ s, e.2 = .string s ∧ fieldArg e = e.1.toList ++ '=' :: s.toList := by
  obtain ⟨key, value⟩ := e
  cases value <;> first | exact ⟨_, rfl, rfl⟩ | cases h

theorem fieldArg_json {e : String × Json} (h : isTextValue e.2 = false) :
    fieldArg e = e.1.toList ++ ':' :: '=' :: e.2.stringify := by
  obtain ⟨key, value⟩ := e
  cases value <;> first | rfl | cases h

theorem isItem_fieldArg (e : String × Json) : IsItem (collapse (fieldArg e)) := by
  refine Or.inr (mem_collapse ?_ (by decide))
  cases htext : isTextValue e.2 with
  | true =>
    obtain ⟨s, -, harg⟩ := fieldArg_text htext
    simp [harg]
  | false => simp [fieldArg_json htext]

theorem fieldOf_eq_some_iff {t key : Text} {value : Json} :
    fieldOf t = some (key, value) ↔ isFlag t = false ∧ classify t = .field key value := by
  rw [fieldOf]
  cases isFlag t with
  | true => simp
  | false => cases classify t <;> simp

/-- A text has no more characters than the literal that it was read from, quotes included. -/
theorem length_quote (s : String) : s.toList.length + 2 ≤ (Json.quote s).length := by
  have hbody : ∀ t : Text, t.length ≤ (t.flatMap jsonEscape).length := by
    intro t
    induction t with
    | nil => exact Nat.le_refl 0
    | cons c t ih =>
      have hpos := Json.length_jsonEscape_pos c
      rw [List.flatMap_cons, List.length_append, List.length_cons]
      omega
  have := hbody s.toList
  simp only [Json.quote, List.cons_append, List.length_cons, List.length_append, List.length_nil]
  omega

/-- The ways to read a field. None gives a member with a longer argument. -/
theorem fieldOf_cases {t : Text} {f : String × Json} (h : fieldOf t = some (asField f)) :
    (∃ text, splitOnce [':', '='] t = none ∧ splitOnce ['='] t = some (f.1.toList, text) ∧
      f.2 = .string (String.ofList text) ∧ (fieldArg f).length = t.length) ∨
    (∃ rawJson, splitOnce [':', '='] t = some (f.1.toList, rawJson) ∧ isTextValue f.2 = false ∧
      (fieldArg f).length ≤ t.length) ∨
    ((∃ rawJson, splitOnce [':', '='] t = some (f.1.toList, rawJson)) ∧
      (fieldArg f).length < t.length) := by
  obtain ⟨-, hclass⟩ := fieldOf_eq_some_iff.mp h
  obtain ⟨-, -, ⟨rawJson, hsplit, hvalue⟩ | ⟨hnone, text, hsplit, hvalue⟩⟩ :=
    classify_field_iff.mp hclass
  · have hlen := congrArg List.length (splitOnce_eq_some hsplit)
    simp only [List.length_append, List.length_cons, List.length_nil] at hlen
    cases hparse : Json.parse rawJson with
    | none =>
      rw [hparse] at hvalue
      refine Or.inr (Or.inr ⟨⟨rawJson, hsplit⟩, ?_⟩)
      obtain ⟨s, hs, harg⟩ := fieldArg_text (e := f) (by rw [hvalue]; rfl)
      have hraw : s.toList = rawJson := by
        have : Json.string s = .string (String.ofList rawJson) := hs.symm.trans hvalue
        rw [Json.string.inj this, String.toList_ofList]
      rw [harg, hraw, List.length_append, List.length_cons, hlen]
      omega
    | some v =>
      rw [hparse] at hvalue
      obtain rfl : f.2 = v := hvalue
      have hshort := Json.length_stringify_le hparse
      rcases htext : isTextValue f.2 with _ | _
      · refine Or.inr (Or.inl ⟨rawJson, hsplit, rfl, ?_⟩)
        rw [fieldArg_json htext, List.length_append, List.length_cons, List.length_cons, hlen]
        omega
      · refine Or.inr (Or.inr ⟨⟨rawJson, hsplit⟩, ?_⟩)
        obtain ⟨s, hs, harg⟩ := fieldArg_text htext
        rw [hs, Json.stringify] at hshort
        have hquote := length_quote s
        rw [harg, List.length_append, List.length_cons, hlen]
        omega
  · refine Or.inl ⟨text, hnone, hsplit, hvalue, ?_⟩
    have hlen := congrArg List.length (splitOnce_eq_some hsplit)
    simp only [List.length_append, List.length_cons, List.length_nil] at hlen
    obtain ⟨s, hs, harg⟩ := fieldArg_text (e := f) (by rw [hvalue]; rfl)
    have hraw : s.toList = text := by
      have : Json.string s = .string (String.ofList text) := hs.symm.trans hvalue
      rw [Json.string.inj this, String.toList_ofList]
    rw [harg, hraw, List.length_append, List.length_cons, hlen]
    omega

/-! ## Members that survive -/

/-- Where a member is split: a text at its first `=`, any other value at its first `:=`. -/
def SplitsAtKey (e : String × Json) : Prop :=
  if isTextValue e.2 then '=' ∉ e.1.toList ∧ ¬ [':', '='] <:+: fieldArg e
  else ¬ [':', '='] <:+: e.1.toList

/-- The argument of the member is on one line, is no flag, no parameter and no header, and is
split behind the key. -/
structure FieldSurvives (e : String × Json) : Prop where
  oneLine : ¬ Continued (fieldArg e)
  noFlag : e.1.toList.head? ≠ some '-'
  noQuery : ¬ ['=', '='] <:+: fieldArg e
  noHeader : isHeaderToken (fieldArg e) = false
  splits : SplitsAtKey e

theorem isFlag_fieldArg (e : String × Json) :
    isFlag (fieldArg e) = (e.1.toList.head? == some '-') := by
  have hsplit : ∃ c rest, fieldArg e = e.1.toList ++ c :: rest ∧ c ≠ '-' := by
    cases htext : isTextValue e.2 with
    | true =>
      obtain ⟨s, -, harg⟩ := fieldArg_text htext
      exact ⟨_, _, harg, by decide⟩
    | false => exact ⟨_, _, fieldArg_json htext, by decide⟩
  obtain ⟨c, rest, harg, hc⟩ := hsplit
  rw [harg]
  cases hkey : e.1.toList with
  | nil => simp [isFlag, hc]
  | cons d key => rfl

/-- A member that survives comes back. -/
theorem FieldSurvives.read {e : String × Json} (h : FieldSurvives e) (hw : e.2.Written) :
    fieldOf (collapse (fieldArg e)) = some (asField e) := by
  rw [(collapse_eq_self_iff _).mpr h.oneLine]
  refine fieldOf_eq_some_iff.mpr ⟨?_, ?_⟩
  · rw [isFlag_fieldArg]
    simpa using h.noFlag
  refine classify_field_iff.mpr ⟨h.noQuery, h.noHeader, ?_⟩
  have hsplits := h.splits
  rw [SplitsAtKey] at hsplits
  cases htext : isTextValue e.2 with
  | true =>
    rw [htext, if_pos rfl] at hsplits
    obtain ⟨s, hs, harg⟩ := fieldArg_text htext
    refine Or.inr ⟨(splitOnce_eq_none (by simp)).mpr hsplits.2, s.toList, ?_, ?_⟩
    · rw [harg]
      exact splitOnce_of_not_mem hsplits.1
    · rw [hs, String.ofList_toList]
  | false =>
    rw [htext, if_neg Bool.false_ne_true] at hsplits
    refine Or.inl ⟨e.2.stringify, ?_, ?_⟩
    · rw [fieldArg_json htext]
      exact splitOnce_pair (by decide) hsplits
    · rw [hw.parse_stringify]
      rfl

/-- A member that comes back survives. -/
theorem survives_of_read {e : String × Json} (hline : ¬ Continued (fieldArg e))
    (h : fieldOf (fieldArg e) = some (asField e)) : FieldSurvives e := by
  obtain ⟨hflag, hclass⟩ := fieldOf_eq_some_iff.mp h
  obtain ⟨hquery, hheader, hsplit⟩ := classify_field_iff.mp hclass
  refine ⟨hline, ?_, hquery, hheader, ?_⟩
  · rw [isFlag_fieldArg] at hflag
    simpa using hflag
  rw [SplitsAtKey]
  cases htext : isTextValue e.2 with
  | true =>
    rw [if_pos rfl]
    rcases fieldOf_cases h with ⟨text, hnone, hfield, -, -⟩ | ⟨-, -, hno, -⟩ | ⟨-, hlt⟩
    · exact ⟨not_mem_of_splitOnce hfield, (splitOnce_eq_none (by simp)).mp hnone⟩
    · rw [htext] at hno
      cases hno
    · exact absurd hlt (lt_irrefl _)
  | false =>
    rw [if_neg Bool.false_ne_true]
    have harg := fieldArg_json htext
    rcases hsplit with ⟨rawJson, hraw, -⟩ | ⟨-, text, -, hvalue⟩
    · exact not_infix_of_splitOnce (by simp) hraw
    · rw [hvalue] at htext
      cases htext

/-! ## Reading all members -/

/-- What is read from the arguments of the members is the members again, in some order. -/
structure ReadsMembers (members : List (String × Json)) (read : String × Json → String × Json) :
    Prop where
  keys : (members.map Prod.fst).Nodup
  perm : (members.map read).Perm members
  reads : ∀ e ∈ members, fieldOf (collapse (fieldArg e)) = some (asField (read e))

namespace ReadsMembers
variable {members : List (String × Json)} {read : String × Json → String × Json}

theorem read_mem (h : ReadsMembers members read) {e : String × Json} (he : e ∈ members) :
    read e ∈ members := h.perm.subset (List.mem_map_of_mem he)

theorem eq_of_key (h : ReadsMembers members read) {e e' : String × Json} (he : e ∈ members)
    (he' : e' ∈ members) (hkey : e.1 = e'.1) : e = e' :=
  List.inj_on_of_nodup_map h.keys he he' hkey

theorem read_injOn (h : ReadsMembers members read) {e e' : String × Json} (he : e ∈ members)
    (he' : e' ∈ members) (hread : read e = read e') : e = e' :=
  List.inj_on_of_nodup_map (h.perm.nodup_iff.mpr h.keys.of_map) he he' hread

theorem length_read_le (h : ReadsMembers members read) {e : String × Json} (he : e ∈ members) :
    (fieldArg (read e)).length ≤ (collapse (fieldArg e)).length := by
  rcases fieldOf_cases (h.reads e he) with ⟨-, -, -, -, hlen⟩ | ⟨-, -, -, hlen⟩ | ⟨-, hlen⟩
  · exact hlen.le
  · exact hlen
  · exact hlen.le

/-- No length changes, so that no line is joined. -/
theorem length_read (h : ReadsMembers members read) {e : String × Json} (he : e ∈ members) :
    collapse (fieldArg e) = fieldArg e ∧ (fieldArg (read e)).length = (fieldArg e).length := by
  have hle : ∀ a ∈ members, (fieldArg (read a)).length ≤ (fieldArg a).length := fun a ha =>
    (h.length_read_le ha).trans (collapse_sublist _).length_le
  have hlen := measure_eq_of_perm h.perm (fun a => (fieldArg a).length) hle e he
  refine ⟨(collapse_sublist _).eq_of_length_le ?_, hlen⟩
  exact hlen.symm.le.trans (h.length_read_le he)

theorem reads_arg (h : ReadsMembers members read) {e : String × Json} (he : e ∈ members) :
    fieldOf (fieldArg e) = some (asField (read e)) := by
  rw [← (h.length_read he).1]
  exact h.reads e he

/-- A member that is split at `:=` is read as itself. -/
theorem read_json (h : ReadsMembers members read) {e : String × Json} (he : e ∈ members)
    (htext : isTextValue (read e).2 = false) : read e = e := by
  have hmem := h.read_mem he
  have hfirst : ∃ rawJson, splitOnce [':', '='] (fieldArg e) =
      some ((read e).1.toList, rawJson) := by
    rcases fieldOf_cases (h.reads_arg he) with ⟨_, -, -, hvalue, -⟩ | ⟨raw, hraw, -, -⟩ | ⟨hraw, -⟩
    · rw [hvalue] at htext
      cases htext
    · exact ⟨raw, hraw⟩
    · exact hraw
  obtain ⟨raw, hraw⟩ := hfirst
  have hkey : ¬ [':', '='] <:+: (read e).1.toList := not_infix_of_splitOnce (by simp) hraw
  -- The key of what was read has no separator, so reading it again keeps the key.
  have hsplit : splitOnce [':', '='] (fieldArg (read e)) =
      some ((read e).1.toList, (read e).2.stringify) := by
    rw [fieldArg_json htext]
    exact splitOnce_pair (by decide) hkey
  have hagain : (read (read e)).1 = (read e).1 := by
    rcases fieldOf_cases (h.reads_arg hmem) with ⟨-, hnone, -, -, -⟩ | ⟨raw', hraw', -, -⟩ |
      ⟨⟨raw', hraw'⟩, -⟩
    · rw [hnone] at hsplit
      cases hsplit
    · rw [hsplit] at hraw'
      exact (String.toList_inj.mp (congrArg Prod.fst (Option.some.inj hraw'))).symm
    · rw [hsplit] at hraw'
      exact (String.toList_inj.mp (congrArg Prod.fst (Option.some.inj hraw'))).symm
  have hfixed : read (read e) = read e := h.eq_of_key (h.read_mem hmem) hmem hagain
  exact h.read_injOn hmem he hfixed

/-- A text is split at its first `=`. -/
theorem read_text (h : ReadsMembers members read) {e : String × Json} (he : e ∈ members)
    (htext : isTextValue (read e).2 = true) : ∃ text, splitOnce [':', '='] (fieldArg e) = none ∧
      splitOnce ['='] (fieldArg e) = some ((read e).1.toList, text) ∧
      (read e).2 = .string (String.ofList text) := by
  rcases fieldOf_cases (h.reads_arg he) with ⟨text, hnone, hsplit, hvalue, -⟩ | ⟨-, -, hno, -⟩ |
    ⟨-, hlt⟩
  · exact ⟨text, hnone, hsplit, hvalue⟩
  · rw [htext] at hno
    cases hno
  · exact absurd (h.length_read he).2 hlt.ne

theorem key_read_le (h : ReadsMembers members read) {e : String × Json} (he : e ∈ members) :
    (read e).1.toList.length ≤ e.1.toList.length := by
  cases htext : isTextValue (read e).2 with
  | false => rw [h.read_json he htext]
  | true =>
    obtain ⟨text, hnone, hsplit, -⟩ := h.read_text he htext
    have hvalue : isTextValue e.2 = true := by
      by_contra hno
      rw [fieldArg_json (Bool.eq_false_iff.mpr hno), splitOnce_eq_none (by simp)] at hnone
      exact hnone ⟨e.1.toList, e.2.stringify, by simp⟩
    obtain ⟨s, -, harg⟩ := fieldArg_text hvalue
    have heq := splitOnce_eq_some hsplit
    rw [harg, List.append_assoc] at heq
    rcases List.append_eq_append_iff.mp heq with ⟨mid, hmid, hrest⟩ | ⟨mid, hmid, -⟩
    · cases mid with
      | nil => rw [hmid, List.append_nil]
      | cons d mid =>
        have : '=' ∈ (read e).1.toList := by
          rw [hmid, ← (List.cons.inj hrest).1]
          simp
        exact absurd this (not_mem_of_splitOnce hsplit)
    · rw [hmid, List.length_append]
      exact Nat.le_add_right _ _

/-- Every member is read as itself. -/
theorem read_eq (h : ReadsMembers members read) {e : String × Json} (he : e ∈ members) :
    read e = e := by
  cases htext : isTextValue (read e).2 with
  | false => exact h.read_json he htext
  | true =>
    obtain ⟨text, hnone, hsplit, hread⟩ := h.read_text he htext
    have hvalue : isTextValue e.2 = true := by
      by_contra hno
      rw [fieldArg_json (Bool.eq_false_iff.mpr hno), splitOnce_eq_none (by simp)] at hnone
      exact hnone ⟨e.1.toList, e.2.stringify, by simp⟩
    obtain ⟨s, hs, harg⟩ := fieldArg_text hvalue
    have hlen := measure_eq_of_perm h.perm (fun a => a.1.toList.length)
      (fun a ha => h.key_read_le ha) e he
    have heq := splitOnce_eq_some hsplit
    rw [harg, List.append_assoc] at heq
    obtain ⟨hkey, hrest⟩ := List.append_inj heq hlen.symm
    have htail : s.toList = text := (List.cons.inj hrest).2
    refine Prod.ext (String.toList_inj.mp hkey.symm) ?_
    rw [hread, hs, ← htail, String.ofList_toList]

theorem survives (h : ReadsMembers members read) {e : String × Json} (he : e ∈ members) :
    FieldSurvives e := by
  have hread := h.reads_arg he
  rw [h.read_eq he] at hread
  exact survives_of_read ((collapse_eq_self_iff _).mp (h.length_read he).1) hread

end ReadsMembers

/-! ## The object that is filled -/

theorem PlainObject.assign_of_ne {obj : PlainObject} {key : String} (h : key ≠ protoName)
    (value : Json) :
    obj.assign key value = { obj with members := Json.putMember key value obj.members } := by
  unfold assign
  rw [if_pos (Or.inl h)]

/-- A write defines a member or leaves the members alone. -/
theorem PlainObject.members_assign (obj : PlainObject) (key : String) (value : Json) :
    (obj.assign key value).members = Json.putMember key value obj.members ∨
      (obj.assign key value).members = obj.members := by
  unfold assign
  split_ifs
  · exact Or.inl rfl
  · cases value <;> exact Or.inr rfl

theorem PlainObject.members_assign_proto {obj : PlainObject} (h : obj.detached = false)
    (value : Json) : (obj.assign protoName value).members = obj.members := by
  unfold assign
  rw [if_neg (by simp [h])]
  cases value <;> rfl

def assignAll (obj : PlainObject) (fields : List (Text × Json)) : PlainObject :=
  fields.foldl (fun obj f => obj.assign (String.ofList f.1) f.2) obj

theorem asField_ofList (f : Text × Json) : asField (String.ofList f.1, f.2) = f := by
  rw [asField, String.toList_ofList]

theorem mem_assignAll {fields : List (Text × Json)} {obj : PlainObject} {e : String × Json}
    (h : e ∈ (assignAll obj fields).members) : asField e ∈ fields ∨ e ∈ obj.members := by
  induction fields generalizing obj with
  | nil => exact Or.inr h
  | cons f fields ih =>
    rcases ih h with h | h
    · exact Or.inl (List.mem_cons_of_mem f h)
    · rcases obj.members_assign (String.ofList f.1) f.2 with heq | heq
      · rw [heq] at h
        rcases Json.mem_of_putMember h with rfl | h
        · exact Or.inl (by rw [asField_ofList]; exact List.mem_cons_self)
        · exact Or.inr h
      · rw [heq] at h
        exact Or.inr h

theorem ordered_assignAll {fields : List (Text × Json)} {obj : PlainObject}
    (h : Json.Ordered obj.members) : Json.Ordered (assignAll obj fields).members := by
  induction fields generalizing obj with
  | nil => exact h
  | cons f fields ih =>
    refine ih ?_
    rcases obj.members_assign (String.ofList f.1) f.2 with heq | heq
    · rw [heq]
      exact h.putMember _ _
    · rw [heq]
      exact h

/-- One write to `__proto__` defines no member of that name. -/
theorem proto_not_mem_assignAll {fields : List (Text × Json)} {obj : PlainObject}
    (hkeys : (fields.map fun f => String.ofList f.1).Nodup)
    (hobj : ∀ e ∈ obj.members, e.1 ≠ protoName)
    (hdetached : obj.detached = true → ∀ f ∈ fields, String.ofList f.1 ≠ protoName) :
    ∀ e ∈ (assignAll obj fields).members, e.1 ≠ protoName := by
  induction fields generalizing obj with
  | nil => exact hobj
  | cons f fields ih =>
    obtain ⟨hf, hnodup⟩ := List.nodup_cons.mp hkeys
    by_cases hproto : String.ofList f.1 = protoName
    · have hno : obj.detached = false := by
        by_contra hyes
        exact hdetached (Bool.not_eq_false _ ▸ hyes) f List.mem_cons_self hproto
      refine @ih (obj.assign (String.ofList f.1) f.2) hnodup ?_ fun _ g hg hgproto => hf ?_
      · rw [hproto, PlainObject.members_assign_proto hno]
        exact hobj
      · exact List.mem_map.mpr ⟨g, hg, hgproto.trans hproto.symm⟩
    · refine @ih (obj.assign (String.ofList f.1) f.2) hnodup ?_ ?_
      · intro e he
        rw [PlainObject.assign_of_ne hproto] at he
        rcases Json.mem_of_putMember he with rfl | he
        · exact hproto
        · exact hobj e he
      · intro hyes g hg
        rw [PlainObject.assign_of_ne hproto] at hyes
        exact hdetached hyes g (List.mem_cons_of_mem f hg)

theorem assignAll_members {members : List (String × Json)} {obj : PlainObject}
    (h : ∀ e ∈ members, e.1 ≠ protoName) : (assignAll obj (members.map asField)).members =
      members.foldl (fun ms e => Json.putMember e.1 e.2 ms) obj.members := by
  induction members generalizing obj with
  | nil => rfl
  | cons e members ih =>
    have hassign : obj.assign (String.ofList (asField e).1) (asField e).2 =
        { obj with members := Json.putMember e.1 e.2 obj.members } := by
      rw [show String.ofList (asField e).1 = e.1 from String.ofList_toList]
      exact PlainObject.assign_of_ne (h e List.mem_cons_self) e.2
    have htail := @ih (obj.assign (String.ofList (asField e).1) (asField e).2) fun a ha =>
      h a (List.mem_cons_of_mem e ha)
    rw [hassign] at htail
    rw [List.map_cons, assignAll, List.foldl_cons, hassign]
    exact htail

/-- The members in the order of the language fill the same object again. -/
theorem fieldObject_members {members : List (String × Json)} (hordered : Json.Ordered members)
    (hproto : ∀ e ∈ members, e.1 ≠ protoName) :
    (fieldObject (members.map asField)).members = members :=
  (assignAll_members hproto).trans (Json.foldl_putMember hordered)

theorem written_of_fieldOf {t : Text} {f : Text × Json} (h : fieldOf t = some f) : f.2.Written := by
  obtain ⟨key, value⟩ := f
  obtain ⟨-, hclass⟩ := fieldOf_eq_some_iff.mp h
  obtain ⟨-, -, ⟨rawJson, -, hvalue⟩ | ⟨-, text, -, hvalue⟩⟩ := classify_field_iff.mp hclass
  · cases hparse : Json.parse rawJson with
    | none =>
      rw [hparse] at hvalue
      rw [hvalue]
      exact .string _
    | some v =>
      rw [hparse] at hvalue
      rw [hvalue]
      exact Json.written_of_parse hparse
  · rw [hvalue]
    exact .string _

/-- The text of the object is read as the object. -/
theorem parse_fieldObject {fields : List (Text × Json)} (h : ∀ f ∈ fields, f.2.Written) :
    Json.parse (Json.stringify (.object (fieldObject fields).members)) =
      some (.object (fieldObject fields).members) := by
  refine (Json.Written.object (@ordered_assignAll fields {} List.Pairwise.nil) fun e he => ?_).parse_stringify
  rcases mem_assignAll he with hmem | hmem
  · exact h _ hmem
  · cases hmem

/-- The object that the arguments fill has the members of the body only if each of them was read
as itself. -/
theorem survives_of_fields {members : List (String × Json)} {fields : List (Text × Json)}
    (hordered : Json.Ordered members)
    (hfields : fields = (members.map fun e => collapse (fieldArg e)).filterMap fieldOf)
    (hsame : ∀ e, e ∈ (fieldObject fields).members ↔ e ∈ members) :
    ∀ e ∈ members, FieldSurvives e ∧ e.1 ≠ protoName := by
  have hkeys : (members.map Prod.fst).Nodup := by
    rw [List.Nodup, List.pairwise_map]
    exact hordered.imp fun h => h.1
  have hnodup : members.Nodup := hkeys.of_map
  have hmem : ∀ e ∈ members, asField e ∈ fields := by
    intro e he
    rcases mem_assignAll ((hsame e).mpr he) with hmem | hmem
    · exact hmem
    · cases hmem
  have hlen : fields.length ≤ members.length := by
    rw [hfields]
    exact (List.length_filterMap_le _ _).trans (by simp)
  have hperm : (members.map asField).Perm fields := by
    refine (List.subperm_of_subset (hnodup.map asField_injective) ?_).perm_of_length_le (by simpa)
    intro f hf
    obtain ⟨e, he, rfl⟩ := List.mem_map.mp hf
    exact hmem e he
  have hall : ∀ e ∈ members, ∃ f, fieldOf (collapse (fieldArg e)) = some (asField f) := by
    have hcount : ((members.map fun e => collapse (fieldArg e)).filterMap fieldOf).length =
        (members.map fun e => collapse (fieldArg e)).length := by
      rw [← hfields, ← hperm.length_eq, List.length_map, List.length_map]
    intro e he
    have hsome := List.filterMap_length_eq_length.mp hcount _ (List.mem_map_of_mem he)
    obtain ⟨f, hf⟩ := Option.isSome_iff_exists.mp hsome
    exact ⟨(String.ofList f.1, f.2), by rw [asField_ofList]; exact hf⟩
  choose! read hread using hall
  have hfilter : fields = (members.map read).map asField := by
    rw [hfields, List.filterMap_map, List.map_map]
    refine List.filterMap_eq_map_iff_forall_eq_some.mpr ?_
    exact fun e he => hread e he
  have hreads : ReadsMembers members read := by
    refine ⟨hkeys, ?_, hread⟩
    rw [hfilter] at hperm
    exact (List.map_perm_map_iff asField_injective |>.mp hperm).symm
  refine fun e he => ⟨hreads.survives he, ?_⟩
  refine @proto_not_mem_assignAll fields {} ?_ (by simp) (by simp) e ((hsame e).mpr he)
  have : (fields.map fun f => String.ofList f.1).Perm (members.map Prod.fst) := by
    refine (hperm.symm.map _).trans ?_
    rw [List.map_map]
    refine List.Perm.of_eq (List.map_congr_left fun a _ => ?_)
    exact String.ofList_toList
  exact this.nodup_iff.mpr hkeys

end Voleeo.Httpie
