import Voleeo.GitDiff.Frames

/-!
# Discarding one field

A row of a review names its field, and its item when the field is a list. The
discard of a row parses that name back, and should clear the row and leave every
other row as it was.
-/
namespace Voleeo.GitDiff
open OrderedMap

variable {E α : Type}

/-! ## Row keys -/

theorem splitKey_id {id : String} (h : ':' ∉ id.toList) : splitKey id = (id, none) := by
  have hdrop : id.toList.dropWhile (· ≠ ':') = [] := by
    rw [List.dropWhile_eq_nil_iff]
    intro c hc
    simpa using fun he : c = ':' => h (he ▸ hc)
  unfold splitKey
  rw [hdrop]

theorem splitKey_itemKey {id : String} (h : ':' ∉ id.toList) (item : String) :
    splitKey (itemKey id item) = (id, some item) := by
  have hp : ∀ c ∈ id.toList, (decide (c ≠ ':')) = true := by
    intro c hc
    simpa using fun he : c = ':' => h (he ▸ hc)
  have hlist : (itemKey id item).toList = id.toList ++ ':' :: item.toList := by
    simp [itemKey]
  have hdrop : (itemKey id item).toList.dropWhile (· ≠ ':') = ':' :: item.toList := by
    rw [hlist, List.dropWhile_append_of_pos hp]
    rfl
  have htake : (itemKey id item).toList.takeWhile (· ≠ ':') = id.toList := by
    rw [hlist, List.takeWhile_append_of_pos hp]
    simp
  unfold splitKey
  rw [hdrop, htake]
  simp

theorem itemKey_injective {id item item' : String} (h : itemKey id item = itemKey id item') :
    item = item' := by
  simpa [itemKey] using h

/-- The key of a row leads back to the field it came from. -/
theorem find_id (type : EntityType) {f : Field (Inner type)} (hf : f ∈ specsByType type) :
    (specsByType type).find? (fun s => s.id = f.id) = some f := by
  have hsome : ((specsByType type).find? (fun s => s.id = f.id)).isSome = true := by
    rw [List.find?_isSome]
    exact ⟨f, hf, by simp⟩
  obtain ⟨g, hg⟩ := Option.isSome_iff_exists.mp hsome
  have hid : g.id = f.id := by simpa using List.find?_some hg
  rw [hg, List.inj_on_of_nodup_map (ids_nodup type) (List.mem_of_find?_eq_some hg) hf hid]

theorem revertField_id (type : EntityType) {f : Field (Inner type)} (hf : f ∈ specsByType type)
    (old : Option (Inner type)) (working : Inner type) :
    revertField (specsByType type) old working f.id = revertOne old working none f := by
  unfold revertField
  rw [splitKey_id (colon_not_mem_id type f hf), find_id type hf]

theorem revertField_itemKey (type : EntityType) {f : Field (Inner type)}
    (hf : f ∈ specsByType type) (old : Option (Inner type)) (working : Inner type)
    (item : String) :
    revertField (specsByType type) old working (itemKey f.id item) =
      revertOne old working (some item) f := by
  unfold revertField
  rw [splitKey_itemKey (colon_not_mem_id type f hf), find_id type hf]

/-! ## The rows of one field -/

/-- The row of one item of a list, from its committed and its working version. -/
def itemRow (f : ListField E) (key : String) : Option f.Item → Option f.Item → Option FieldChange
  | none, none => none
  | none, some cur => some ⟨f.group, some (f.labelOf cur), .added, none, some (f.valueOf cur),
      some (f.secretOf cur), some (itemKey f.id key)⟩
  | some prev, none => some ⟨f.group, some (f.labelOf prev), .removed, some (f.valueOf prev), none,
      some (f.secretOf prev), some (itemKey f.id key)⟩
  | some prev, some cur =>
    if f.equal prev cur then none
    else some ⟨f.group, some (f.labelOf cur), .changed, some (f.valueOf prev),
      some (f.valueOf cur), some (f.secretOf cur), some (itemKey f.id key)⟩

theorem key_itemRow {f : ListField E} {key : String} {prev cur : Option f.Item}
    {row : FieldChange} (h : itemRow f key prev cur = some row) :
    row.key = some (itemKey f.id key) := by
  cases prev <;> cases cur <;> simp only [itemRow, reduceCtorEq, Option.some.injEq] at h
  · rw [← h]
  · rw [← h]
  · split_ifs at h
    rw [← Option.some.inj h]

/-- A list contributes one row for each key whose two versions differ. -/
theorem mem_listToFields {f : ListField E} {olds news : List f.Item} {row : FieldChange} :
    row ∈ listToFields f (diffList olds news f.idOf f.equal) ↔
      ∃ key, itemRow f key ((byId f.idOf olds).get? key) ((byId f.idOf news).get? key) =
        some row := by
  simp only [listToFields, diffList, List.mem_append, List.mem_map, List.mem_filter,
    List.mem_filterMap, Option.isNone_iff_eq_none]
  constructor
  · rintro ((⟨⟨key, cur⟩, ⟨hcur, hold⟩, rfl⟩ | ⟨⟨key, prev⟩, ⟨hprev, hnew⟩, rfl⟩) |
      ⟨⟨key, prev, cur⟩, ⟨⟨key', cur'⟩, hcur, hmatch⟩, rfl⟩)
    · exact ⟨key, by rw [hold, get?_eq_some.mpr hcur]; rfl⟩
    · exact ⟨key, by rw [hnew, get?_eq_some.mpr hprev]; rfl⟩
    · cases hold : (byId f.idOf olds).get? key' with
      | none => simp [hold] at hmatch
      | some prev' =>
        simp only [hold] at hmatch
        split_ifs at hmatch with he
        cases hmatch
        exact ⟨key, by rw [hold, get?_eq_some.mpr hcur]; simp [itemRow, he]⟩
  · rintro ⟨key, hrow⟩
    cases hold : (byId f.idOf olds).get? key with
    | none =>
      cases hnew : (byId f.idOf news).get? key with
      | none => simp [hold, hnew, itemRow] at hrow
      | some cur =>
        simp only [hold, hnew, itemRow, Option.some.injEq] at hrow
        exact Or.inl (Or.inl ⟨(key, cur), ⟨get?_eq_some.mp hnew, hold⟩, hrow⟩)
    | some prev =>
      cases hnew : (byId f.idOf news).get? key with
      | none =>
        simp only [hold, hnew, itemRow, Option.some.injEq] at hrow
        exact Or.inl (Or.inr ⟨(key, prev), ⟨get?_eq_some.mp hold, hnew⟩, hrow⟩)
      | some cur =>
        simp only [hold, hnew, itemRow] at hrow
        split_ifs at hrow with he
        refine Or.inr ⟨(key, prev, cur), ⟨(key, cur), get?_eq_some.mp hnew, ?_⟩,
          Option.some.inj hrow⟩
        simp [hold, he]

theorem key_entryFields {group : FieldGroup} {key : String} {olds news : List BlobEntry}
    {row : FieldChange} (h : row ∈ entryFields group key olds news) : row.key = some key := by
  simp only [entryFields, List.mem_append, List.mem_filterMap, List.mem_map] at h
  rcases h with ⟨⟨label, e⟩, -, hrow⟩ | ⟨⟨label, e⟩, -, rfl⟩
  · cases ho : (byId BlobEntry.label olds).get? label with
    | none =>
      simp only [ho, Option.some.injEq] at hrow
      rw [← hrow]
    | some oe =>
      simp only [ho] at hrow
      split_ifs at hrow
      rw [← Option.some.inj hrow]
  · rfl

/-- The rows of a scalar or a blob carry the id of the field. -/
theorem key_of_text {f : Field E} {cmp : E → String} (hcmp : f.text = some cmp)
    {old new : Option E} {row : FieldChange} (h : row ∈ fieldRows old new f) :
    row.key = some f.id := by
  cases f with
  | list f => cases hcmp
  | scalar f =>
    simp only [fieldRows, Option.mem_toList, scalarField] at h
    split_ifs at h <;> rw [← Option.some.inj h] <;> rfl
  | blob f =>
    cases hent : f.entries with
    | some entries =>
      simp only [fieldRows, hent] at h
      exact key_entryFields h
    | none =>
      simp only [fieldRows, hent, blobRow] at h
      split_ifs at h
      · cases h
      all_goals
        rw [List.mem_singleton.mp h]
        rfl

theorem key_of_list {f : ListField E} {old new : Option E} {row : FieldChange}
    (h : row ∈ fieldRows old new (.list f)) : ∃ item, row.key = some (itemKey f.id item) := by
  obtain ⟨item, hrow⟩ := mem_listToFields.mp h
  exact ⟨item, key_itemRow hrow⟩

/-- A field that shows the committed value contributes no row. -/
theorem fieldRows_self {f : Field E} {cmp : E → String} (hcmp : f.text = some cmp) (e : E) :
    fieldRows (some e) (some e) f = [] := by
  cases f with
  | list f => cases hcmp
  | scalar f => simp [fieldRows, scalarField]
  | blob f =>
    cases hent : f.entries with
    | none => simp [fieldRows, hent, blobRow]
    | some entries =>
      simp only [fieldRows, hent, entryFields, Option.map_some, Option.getD_some,
        List.append_eq_nil_iff, List.map_eq_nil_iff, List.filterMap_eq_nil_iff,
        List.filter_eq_nil_iff]
      constructor
      · rintro ⟨label, e'⟩ he
        simp [get?_eq_some.mpr he]
      · rintro ⟨label, e'⟩ he
        simp [get?_eq_some.mpr he]

/-! ## Discarding an item -/

/-- The list that a discard of `item` writes. -/
def revertItems (idOf : α → String) (olds news : List α) (item : String) : List α :=
  (news.filter fun i => idOf i ≠ item) ++ (olds.find? fun i => idOf i = item).toList

theorem get?_revertItems_of_ne {idOf : α → String} (olds news : List α) {item key : String}
    (h : key ≠ item) :
    (byId idOf (revertItems idOf olds news item)).get? key = (byId idOf news).get? key := by
  have hfirst : (olds.find? fun i => idOf i = item).toList.reverse.find? (fun i => idOf i = key) =
      none := by
    cases ho : olds.find? fun i => idOf i = item with
    | none => rfl
    | some prev =>
      have hid : idOf prev = item := by simpa using List.find?_some ho
      simp [hid, Ne.symm h]
  rw [get?_byId, get?_byId, revertItems, List.reverse_append, List.find?_append, hfirst,
    Option.none_or, ← List.filter_reverse, List.find?_filter]
  congr 1
  funext i
  by_cases hi : idOf i = key
  · simp [hi, h]
  · simp [hi]

theorem get?_revertItems_self (idOf : α → String) (olds news : List α) (item : String) :
    (byId idOf (revertItems idOf olds news item)).get? item =
      olds.find? fun i => idOf i = item := by
  have hrest : (news.filter fun i => idOf i ≠ item).reverse.find? (fun i => idOf i = item) =
      none := by
    rw [List.find?_eq_none]
    intro i hi
    simpa using (List.mem_filter.mp (List.mem_reverse.mp hi)).2
  rw [get?_byId, revertItems, List.reverse_append, List.find?_append, hrest, Option.or_none]
  cases ho : olds.find? fun i => idOf i = item with
  | none => rfl
  | some prev =>
    have hid : idOf prev = item := by simpa using List.find?_some ho
    simp [hid]

/-- The first committed row of an identity counts as equal to the last one. -/
def FirstEqualsLast (idOf : α → String) (equal : α → α → Bool) (olds : List α) (item : String) :
    Prop :=
  ∀ first last, olds.find? (fun i => idOf i = item) = some first →
    olds.reverse.find? (fun i => idOf i = item) = some last → equal last first = true

/-- The row of a discarded item is gone exactly when the discard found the row the diff shows. -/
theorem itemRow_revertItems_iff (f : ListField E) (olds news : List f.Item) (item : String) :
    itemRow f item ((byId f.idOf olds).get? item)
        ((byId f.idOf (revertItems f.idOf olds news item)).get? item) = none ↔
      FirstEqualsLast f.idOf f.equal olds item := by
  rw [get?_revertItems_self, get?_byId]
  unfold FirstEqualsLast
  cases hfirst : olds.find? fun i => f.idOf i = item with
  | none =>
    have hlast : olds.reverse.find? (fun i => f.idOf i = item) = none := by
      rw [List.find?_eq_none] at hfirst ⊢
      intro i hi
      exact hfirst i (List.mem_reverse.mp hi)
    simp [hlast, itemRow]
  | some first =>
    cases hlast : olds.reverse.find? fun i => f.idOf i = item with
    | none =>
      rw [List.find?_eq_none] at hlast
      have hmem := List.mem_reverse.mpr (List.mem_of_find?_eq_some hfirst)
      exact absurd (List.find?_some hfirst) (hlast first hmem)
    | some last => simp [itemRow]

/-! ## The law for the field lists -/

theorem splitKey_of_row (type : EntityType) {g : Field (Inner type)} (hg : g ∈ specsByType type)
    {old new : Option (Inner type)} {row : FieldChange} (h : row ∈ fieldRows old new g)
    {key : String} (hkey : row.key = some key) : (splitKey key).1 = g.id := by
  have hcolon := colon_not_mem_id type g hg
  cases hcmp : g.text with
  | some cmp =>
    obtain rfl : key = g.id := Option.some.inj (hkey.symm.trans (key_of_text hcmp h))
    rw [splitKey_id hcolon]
  | none =>
    cases g with
    | scalar g => cases hcmp
    | blob g => cases hcmp
    | list g =>
      obtain ⟨item, hitem⟩ := key_of_list h
      obtain rfl : key = itemKey g.id item := Option.some.inj (hkey.symm.trans hitem)
      exact congrArg Prod.fst (splitKey_itemKey hcolon item)

/-- When every field but `f` shows `new` in `w`, the rows of `w` are those of `f`, and those of
`new` for the other fields. -/
theorem mem_buildFields (type : EntityType) {f : Field (Inner type)} (hf : f ∈ specsByType type)
    {w new : Inner type} (hw : ∀ g ∈ specsByType type, g.id ≠ f.id → g.SameView w new)
    (old : Option (Inner type)) (row : FieldChange) :
    row ∈ buildFields (specsByType type) old (some w) ↔
      row ∈ fieldRows old (some w) f ∨
        ∃ g ∈ specsByType type, g.id ≠ f.id ∧ row ∈ fieldRows old (some new) g := by
  unfold buildFields
  rw [List.mem_flatMap]
  constructor
  · rintro ⟨g, hg, hrow⟩
    by_cases hid : g.id = f.id
    · obtain rfl : g = f := List.inj_on_of_nodup_map (ids_nodup type) hg hf hid
      exact Or.inl hrow
    · rw [fieldRows_congr (hw g hg hid)] at hrow
      exact Or.inr ⟨g, hg, hid, hrow⟩
  · rintro (hrow | ⟨g, hg, hid, hrow⟩)
    · exact ⟨f, hf, hrow⟩
    · rw [← fieldRows_congr (hw g hg hid)] at hrow
      exact ⟨g, hg, hrow⟩

theorem revertOne_frame {f g : Field E} (h : Frames g f) (old : Option E) (working : E)
    (item : Option String) : g.SameView (revertOne old working item f) working := by
  cases f with
  | scalar f => exact h _ _
  | list f =>
    cases item with
    | none => exact Field.SameView.refl g working
    | some item => exact h _ _
  | blob f =>
    cases old with
    | none => exact Field.SameView.refl g working
    | some old => exact h _ _

theorem revertOne_restores {f : Field E} (h : Restores f) {cmp : E → String}
    (hcmp : f.text = some cmp) (old working : E) (item : Option String) :
    f.SameView (revertOne (some old) working item f) old := by
  cases f with
  | scalar f => exact h working old
  | list f => cases hcmp
  | blob f => exact h old working

/-- Discarding the row of a key clears it and leaves the rows of other keys as they were. -/
structure DiscardsExactly (type : EntityType) (old new : Inner type) (key : String) : Prop where
  cleared : ∀ row ∈ buildFields (specsByType type) (some old)
    (some (revertField (specsByType type) (some old) new key)), row.key ≠ some key
  kept : ∀ row : FieldChange, row.key ≠ some key →
    (row ∈ buildFields (specsByType type) (some old)
        (some (revertField (specsByType type) (some old) new key)) ↔
      row ∈ buildFields (specsByType type) (some old) (some new))

/-- The body fields of a request other than the one of the key are unchanged. -/
def OtherBodyFieldsUnchanged : (type : EntityType) → Inner type → Inner type → String → Prop
  | .request, old, new, key =>
    key ∈ bodyIds → ∀ f ∈ bodyFields, f.id ≠ key → f.compare old = f.compare new
  | _, _, _, _ => True

structure DiscardCondition (type : EntityType) (old new : Inner type) (key : String) : Prop where
  lists : ∀ (f : ListField (Inner type)) (item : String), .list f ∈ specsByType type →
    key = itemKey f.id item → FirstEqualsLast f.idOf f.equal (f.get old) item
  body : OtherBodyFieldsUnchanged type old new key

theorem discard_item_iff (type : EntityType) {f : ListField (Inner type)}
    (hf : .list f ∈ specsByType type) (old new : Inner type) (item : String) :
    DiscardsExactly type old new (itemKey f.id item) ↔
      FirstEqualsLast f.idOf f.equal (f.get old) item := by
  obtain ⟨hbody, hro⟩ := ListField.id_fresh type hf
  have hset : ∀ e items, f.get (f.set e items) = items := restores_of_mem type hf hro
  have hcolon : ':' ∉ f.id.toList := colon_not_mem_id type _ hf
  have hfr : ∀ g ∈ specsByType type, g.id ≠ (Field.list f).id → Frames g (.list f) := by
    intro g hg hid
    exact frames_of_ne type hg hf (Ne.symm hid) fun h => hbody ⟨h.1, h.2.2⟩
  have hrev : revertField (specsByType type) (some old) new (itemKey f.id item) =
      f.set new (revertItems f.idOf (f.get old) (f.get new) item) :=
    revertField_itemKey type hf (some old) new item
  have hw : ∀ g ∈ specsByType type, g.id ≠ (Field.list f).id →
      g.SameView (f.set new (revertItems f.idOf (f.get old) (f.get new) item)) new :=
    fun g hg hid => hfr g hg hid _ _
  have hother : ∀ g ∈ specsByType type, g.id ≠ (Field.list f).id → ∀ row ∈ fieldRows (some old)
      (some new) g, row.key ≠ some (itemKey f.id item) := by
    intro g hg hid row hrow hkey
    have hsplit := splitKey_of_row type hg hrow hkey
    rw [splitKey_itemKey hcolon] at hsplit
    exact hid hsplit.symm
  have hrows : ∀ row, row ∈ fieldRows (some old)
      (some (f.set new (revertItems f.idOf (f.get old) (f.get new) item))) (.list f) ↔
      ∃ key, itemRow f key ((byId f.idOf (f.get old)).get? key)
        ((byId f.idOf (revertItems f.idOf (f.get old) (f.get new) item)).get? key) = some row := by
    intro row
    rw [← mem_listToFields]
    simp only [fieldRows, Option.map_some, Option.getD_some, hset]
  rw [← itemRow_revertItems_iff f (f.get old) (f.get new) item]
  constructor
  · intro h
    rw [Option.eq_none_iff_forall_ne_some]
    intro row hrow
    have hmem := (mem_buildFields type hf hw (some old) row).mpr
      (Or.inl ((hrows row).mpr ⟨item, hrow⟩))
    rw [← hrev] at hmem
    exact h.cleared row hmem (key_itemRow hrow)
  · intro h
    refine ⟨?_, ?_⟩
    · intro row hrow
      rw [hrev, mem_buildFields type hf hw] at hrow
      rcases hrow with hrow | ⟨g, hg, hid, hrow⟩
      · obtain ⟨key, hkey⟩ := (hrows row).mp hrow
        rw [key_itemRow hkey]
        intro heq
        obtain rfl := itemKey_injective (Option.some.inj heq)
        rw [h] at hkey
        cases hkey
      · exact hother g hg hid row hrow
    · intro row hkey
      rw [hrev, mem_buildFields type hf hw, mem_buildFields type hf
        (fun g _ _ => Field.SameView.refl g new)]
      apply or_congr_left
      rw [hrows]
      -- the rows of the other items look up the same versions
      have hlook : ∀ k, itemRow f k ((byId f.idOf (f.get old)).get? k)
            ((byId f.idOf (revertItems f.idOf (f.get old) (f.get new) item)).get? k) = some row ↔
          itemRow f k ((byId f.idOf (f.get old)).get? k)
            ((byId f.idOf (f.get new)).get? k) = some row := by
        intro k
        by_cases hk : k = item
        · subst hk
          have hno : ∀ prev cur, itemRow f k prev cur ≠ some row :=
            fun _ _ hr => hkey (key_itemRow hr)
          simp [hno]
        · rw [get?_revertItems_of_ne _ _ hk]
      simp only [hlook]
      exact mem_listToFields.symm

theorem discard_value (type : EntityType) {f : Field (Inner type)} (hf : f ∈ specsByType type)
    {cmp : Inner type → String} (hcmp : f.text = some cmp)
    (hbody : ¬ (type = .request ∧ f.id ∈ bodyIds))
    (hro : ¬ (type = .snapshot ∧ f.id ∈ readOnlyIds)) (old new : Inner type) :
    DiscardsExactly type old new f.id := by
  have hw : ∀ g ∈ specsByType type, g.id ≠ f.id →
      g.SameView (revertOne (some old) new none f) new := by
    intro g hg hid
    exact revertOne_frame (frames_of_ne type hg hf (Ne.symm hid) fun h => hbody ⟨h.1, h.2.2⟩) _ _ _
  have hself : fieldRows (some old) (some (revertOne (some old) new none f)) f = [] := by
    rw [fieldRows_congr (revertOne_restores (restores_of_mem type hf hro) hcmp old new none)]
    exact fieldRows_self hcmp old
  refine ⟨?_, ?_⟩
  · intro row hrow hkey
    rw [revertField_id type hf, mem_buildFields type hf hw, hself] at hrow
    rcases hrow with hrow | ⟨g, hg, hid, hrow⟩
    · cases hrow
    · have hsplit := splitKey_of_row type hg hrow hkey
      rw [splitKey_id (colon_not_mem_id type f hf)] at hsplit
      exact hid hsplit.symm
  · intro row hkey
    rw [revertField_id type hf, mem_buildFields type hf hw, mem_buildFields type hf
      (fun g _ _ => Field.SameView.refl g new)]
    apply or_congr_left
    constructor
    · intro h
      rw [hself] at h
      cases h
    · intro h
      exact absurd (key_of_text hcmp h) hkey

/-! ## The shared body -/

theorem mem_bodyFields {f : Field HttpRequest} (hf : f ∈ requestSpecs) (hid : f.id ∈ bodyIds) :
    ∃ g ∈ bodyFields, f = .blob g := by
  simp only [requestSpecs, List.mem_cons, List.not_mem_nil, or_false] at hf
  rcases hf with rfl | rfl | rfl | rfl | rfl | rfl | rfl | rfl | rfl <;>
    first
    | exact absurd hid (by decide)
    | exact ⟨_, by simp [bodyFields], rfl⟩

theorem bodyFields_spec {g : BlobField HttpRequest} (hg : g ∈ bodyFields) :
    .blob g ∈ requestSpecs ∧ g.id ∈ bodyIds ∧ g.entries = none ∧
      ∀ e e' : HttpRequest, e.body = e'.body → (Field.blob g).SameView e e' := by
  simp only [bodyFields, List.mem_cons, List.not_mem_nil, or_false] at hg
  rcases hg with rfl | rfl | rfl
  · refine ⟨by simp [requestSpecs], by decide, rfl, fun e e' h => ⟨?_, ?_, rfl⟩⟩ <;>
      simp [bodyField, h]
  · refine ⟨by simp [requestSpecs], by decide, rfl, fun e e' h => ⟨?_, ?_, rfl⟩⟩ <;>
      simp [graphqlQueryField, h]
  · refine ⟨by simp [requestSpecs], by decide, rfl, fun e e' h => ⟨?_, ?_, rfl⟩⟩ <;>
      simp [graphqlVariablesField, h]

def withBodyOf (old new : HttpRequest) : HttpRequest := { new with body := old.body }

theorem copy_body {g : BlobField HttpRequest} (hg : g ∈ bodyFields) (old new : HttpRequest) :
    g.copy old new = withBodyOf old new := by
  simp only [bodyFields, List.mem_cons, List.not_mem_nil, or_false] at hg
  rcases hg with rfl | rfl | rfl <;> rfl

theorem bodyRows_eq_nil_iff {g : BlobField HttpRequest} (hg : g ∈ bodyFields)
    (old new : HttpRequest) :
    fieldRows (some old) (some new) (.blob g) = [] ↔ g.compare old = g.compare new := by
  obtain ⟨-, -, hentries, -⟩ := bodyFields_spec hg
  simp [fieldRows, hentries, blobRow]

/-- Discarding one row of the body discards the rows of all three body fields. -/
theorem discard_body_iff {f : BlobField HttpRequest} (hf : f ∈ bodyFields) (old new : HttpRequest) :
    DiscardsExactly .request old new f.id ↔
      ∀ g ∈ bodyFields, g.id ≠ f.id → g.compare old = g.compare new := by
  obtain ⟨hfs, hfid, -, -⟩ := bodyFields_spec hf
  have hcolon : ':' ∉ f.id.toList := colon_not_mem_id .request (.blob f) hfs
  have hrev : revertField (specsByType .request) (some old) new f.id = withBodyOf old new := by
    rw [← copy_body hf old new]
    exact revertField_id .request hfs (some old) new
  have hcleared : ∀ g ∈ bodyFields,
      fieldRows (some old) (some (withBodyOf old new)) (.blob g) = [] := by
    intro g hg
    obtain ⟨-, -, -, hview⟩ := bodyFields_spec hg
    rw [fieldRows_congr (hview (withBodyOf old new) old rfl)]
    exact fieldRows_self rfl old
  have hkept : ∀ g ∈ requestSpecs, g.id ∉ bodyIds → g.SameView (withBodyOf old new) new := by
    intro g hg hid
    rw [← copy_body hf old new]
    have hfr : Frames g (.blob f) :=
      frames_of_ne .request hg hfs (fun h => hid (h ▸ hfid)) fun h => hid h.2.1
    exact hfr old new
  constructor
  · intro h g hg hid
    obtain ⟨hgs, -, -, -⟩ := bodyFields_spec hg
    have hcolon : ':' ∉ g.id.toList := colon_not_mem_id .request (.blob g) hgs
    by_contra hne
    obtain ⟨row, hrow⟩ := List.exists_mem_of_ne_nil _ (mt (bodyRows_eq_nil_iff hg old new).mp hne)
    have hkey : row.key = some g.id := key_of_text (f := .blob g) rfl hrow
    have hmem := (h.kept row (by rw [hkey]; simpa using hid)).mpr
      (List.mem_flatMap.mpr ⟨.blob g, hgs, hrow⟩)
    rw [hrev] at hmem
    obtain ⟨g', hg', hrow'⟩ := List.mem_flatMap.mp hmem
    have hsplit := splitKey_of_row .request hg' hrow' hkey
    rw [splitKey_id hcolon] at hsplit
    obtain rfl : g' = .blob g :=
      List.inj_on_of_nodup_map (ids_nodup .request) hg' hgs hsplit.symm
    rw [hcleared g hg] at hrow'
    cases hrow'
  · intro h
    refine ⟨?_, ?_⟩
    · intro row hrow hkey
      rw [hrev] at hrow
      obtain ⟨g, hg, hrow⟩ := List.mem_flatMap.mp hrow
      have hsplit := splitKey_of_row .request hg hrow hkey
      rw [splitKey_id hcolon] at hsplit
      obtain rfl : g = .blob f := List.inj_on_of_nodup_map (ids_nodup .request) hg hfs hsplit.symm
      rw [hcleared f hf] at hrow
      cases hrow
    · intro row hkey
      rw [hrev]
      unfold buildFields
      rw [List.mem_flatMap, List.mem_flatMap]
      apply exists_congr
      intro g
      apply and_congr_right
      intro hg
      by_cases hid : g.id ∈ bodyIds
      · obtain ⟨b, hb, rfl⟩ := mem_bodyFields hg hid
        rw [hcleared b hb]
        by_cases hbf : b.id = f.id
        · have hno : row ∉ fieldRows (some old) (some new) (.blob b) := by
            intro hrow
            exact hkey (hbf ▸ key_of_text (f := .blob b) rfl hrow)
          simp [hno]
        · rw [(bodyRows_eq_nil_iff hb old new).mpr (h b hb hbf)]
      · rw [fieldRows_congr (hkept g hg hid)]

theorem eq_of_itemKey_eq (type : EntityType) {f g : ListField (Inner type)}
    (hf : .list f ∈ specsByType type) (hg : .list g ∈ specsByType type) {item item' : String}
    (h : itemKey f.id item = itemKey g.id item') : f = g ∧ item = item' := by
  have hcf : ':' ∉ f.id.toList := colon_not_mem_id type (.list f) hf
  have hcg : ':' ∉ g.id.toList := colon_not_mem_id type (.list g) hg
  have hsplit := congrArg splitKey h
  rw [splitKey_itemKey hcf, splitKey_itemKey hcg] at hsplit
  have hid : f.id = g.id := congrArg Prod.fst hsplit
  have hfg : Field.list f = Field.list g := List.inj_on_of_nodup_map (ids_nodup type) hf hg hid
  exact ⟨Field.list.inj hfg, Option.some.inj (congrArg Prod.snd hsplit)⟩

theorem discardCondition_item_iff (type : EntityType) {f : ListField (Inner type)}
    (hf : .list f ∈ specsByType type) (old new : Inner type) (item : String) :
    DiscardCondition type old new (itemKey f.id item) ↔
      FirstEqualsLast f.idOf f.equal (f.get old) item := by
  constructor
  · intro h
    exact h.lists f item hf rfl
  · intro h
    refine ⟨?_, ?_⟩
    · intro g item' hg heq
      obtain ⟨rfl, rfl⟩ := eq_of_itemKey_eq type hf hg heq
      exact h
    · cases type with
      | request =>
        intro hkey
        have hno : ∀ id ∈ bodyIds, ':' ∉ id.toList := by decide
        exact absurd (colon_mem_itemKey f.id item) (hno _ hkey)
      | _ => trivial

theorem discardCondition_id_iff (type : EntityType) {f : Field (Inner type)}
    (hf : f ∈ specsByType type) (old new : Inner type) :
    DiscardCondition type old new f.id ↔ OtherBodyFieldsUnchanged type old new f.id := by
  constructor
  · intro h
    exact h.body
  · intro h
    refine ⟨?_, h⟩
    intro g item hg heq
    have hcolon := colon_mem_itemKey g.id item
    rw [← heq] at hcolon
    exact absurd hcolon (colon_not_mem_id type f hf)

/-- A row is discarded exactly when the condition on its key holds. -/
theorem discardsExactly_iff (type : EntityType) (old new : Inner type) (row : FieldChange)
    (hrow : row ∈ buildFields (specsByType type) (some old) (some new)) (key : String)
    (hkey : row.key = some key) (hro : ¬ (type = .snapshot ∧ key ∈ readOnlyIds)) :
    DiscardsExactly type old new key ↔ DiscardCondition type old new key := by
  obtain ⟨f, hf, hrow⟩ := List.mem_flatMap.mp hrow
  cases hcmp : f.text with
  | none =>
      cases f with
      | scalar f => cases hcmp
      | blob f => cases hcmp
      | list f =>
          obtain ⟨item, hitem⟩ := key_of_list hrow
          obtain rfl : key = itemKey f.id item := Option.some.inj (hkey.symm.trans hitem)
          rw [discard_item_iff type hf, discardCondition_item_iff type hf]
  | some cmp =>
      obtain rfl : key = f.id := Option.some.inj (hkey.symm.trans (key_of_text hcmp hrow))
      rw [discardCondition_id_iff type hf]
      by_cases hbody : type = .request ∧ f.id ∈ bodyIds
      · obtain ⟨rfl, hid⟩ := hbody
        obtain ⟨b, hb, rfl⟩ := mem_bodyFields hf hid
        have hiff := discard_body_iff hb old new
        exact hiff.trans ⟨fun h _ => h, fun h => h hid⟩
      · refine iff_of_true (discard_value type hf hcmp hbody hro old new) ?_
        cases type with
        | request => exact fun hid => absurd ⟨rfl, hid⟩ hbody
        | _ => trivial

def environmentWith (name : String) (vars : List EnvironmentVariable) : Environment where
  id := "e1"
  workspaceId := "w1"
  kind := .personal
  name := name
  color := "red"
  shared := false
  «variables» := vars
  createdAt := ""
  updatedAt := ""

theorem discardsExactly_iff_name :
    DiscardsExactly .environment (environmentWith "Dev" []) (environmentWith "Prod" []) "name" ↔
      DiscardCondition .environment (environmentWith "Dev" []) (environmentWith "Prod" [])
        "name" :=
  discardsExactly_iff .environment (environmentWith "Dev" []) (environmentWith "Prod" [])
    ⟨.general, some "Name", .changed, some "Dev", some "Prod", none, some "name"⟩
    (by decide) "name" rfl (by decide)

/-- Two committed variables of one key, the second removed: its discard brings back the first
one, and the row stays. -/
theorem repeated_variable_is_not_discarded :
    ¬ ∀ (type : EntityType) (old new : Inner type),
      ∀ row ∈ buildFields (specsByType type) (some old) (some new), ∀ key, row.key = some key →
        ¬ (type = .snapshot ∧ key ∈ readOnlyIds) → DiscardsExactly type old new key := by
  intro h
  let old := environmentWith "Dev" [⟨"tag", "1", false, true⟩, ⟨"tag", "2", false, true⟩]
  let new := environmentWith "Dev" [⟨"tag", "1", false, true⟩]
  let row : FieldChange :=
    ⟨.variables, some "tag", .changed, some "2", some "1", some false, some "var:tag"⟩
  have hrow : row ∈ buildFields (specsByType .environment) (some old) (some new) := by decide
  have hdiscard := h .environment old new row hrow "var:tag" rfl (by decide)
  have hstays : row ∈ buildFields (specsByType .environment) (some old)
      (some (revertField (specsByType .environment) (some old) new "var:tag")) := by decide
  exact hdiscard.cleared row hstays rfl

end Voleeo.GitDiff
