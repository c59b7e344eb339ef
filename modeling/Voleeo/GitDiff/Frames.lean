import Voleeo.GitDiff.Specs

/-!
# Which part of an entity a field owns

A write to one field leaves what the other fields show unchanged, and a field
that is written from another entity shows that entity's value. Two exceptions
are part of the field lists: the three fields of an HTTP request that share the
`body` property, and the read-only fields of a snapshot.
-/
namespace Voleeo.GitDiff
open OrderedMap

variable {E : Type}

/-- Two entities look the same through a field. -/
def Field.SameView : Field E → E → E → Prop
  | .scalar f, e, e' => f.get e = f.get e'
  | .list f, e, e' => f.get e = f.get e'
  | .blob f, e, e' =>
    f.compare e = f.compare e' ∧ f.summary e = f.summary e' ∧
      f.entries.map (· e) = f.entries.map (· e')

theorem Field.SameView.refl (f : Field E) (e : E) : f.SameView e e := by
  cases f with
  | scalar f => rfl
  | list f => rfl
  | blob f => exact ⟨rfl, rfl, rfl⟩

theorem Field.SameView.trans {f : Field E} {a b c : E} (hab : f.SameView a b)
    (hbc : f.SameView b c) : f.SameView a c := by
  cases f with
  | scalar f => exact Eq.trans hab hbc
  | list f => exact Eq.trans hab hbc
  | blob f =>
    exact ⟨hab.1.trans hbc.1, hab.2.1.trans hbc.2.1, hab.2.2.trans hbc.2.2⟩

/-- Writing `g` never changes what `f` shows. -/
def Frames (f : Field E) : Field E → Prop
  | .scalar g => ∀ e v, f.SameView (g.set e v) e
  | .list g => ∀ e items, f.SameView (g.set e items) e
  | .blob g => ∀ source e, f.SameView (g.copy source e) e

/-- A field that is written shows what was written. -/
def Restores : Field E → Prop
  | .scalar f => ∀ e source, f.get (f.set e (f.get source)) = f.get source
  | .list f => ∀ e items, f.get (f.set e items) = items
  | .blob f => ∀ source e, (Field.blob f).SameView (f.copy source e) source

/-- The text a scalar or blob field is compared by. -/
def Field.text : Field E → Option (E → String)
  | .scalar f => some f.get
  | .list _ => none
  | .blob f => some f.compare

theorem text_eq_of_sameView {f : Field E} {cmp : E → String} (hcmp : f.text = some cmp)
    {e e' : E} (h : f.SameView e e') : cmp e = cmp e' := by
  cases f with
  | scalar f => cases hcmp; exact h
  | list f => cases hcmp
  | blob f => cases hcmp; exact h.1

theorem fieldRows_congr {f : Field E} {e e' : E} (h : f.SameView e e') (old : Option E) :
    fieldRows old (some e) f = fieldRows old (some e') f := by
  cases f with
  | scalar f =>
    have hget : f.get e = f.get e' := h
    simp only [fieldRows, Option.map_some, hget]
  | list f =>
    have hget : f.get e = f.get e' := h
    simp only [fieldRows, Option.map_some, hget]
  | blob f =>
    obtain ⟨hc, hs, he⟩ := h
    cases hent : f.entries with
    | none => simp only [fieldRows, hent, blobRow, Option.map_some, hc, hs]
    | some entries =>
      have heq : entries e = entries e' := by simpa [hent] using he
      simp only [fieldRows, hent, Option.map_some, heq]

/-! ## The merge loop -/

section MergeLoop

variable (base : Option E) (ours theirs : E) (choice : Choices)

theorem mergeField_frame {f g : Field E} (h : Frames f g) (out : E) :
    f.SameView (mergeField base ours theirs choice out g) out := by
  cases g with
  | scalar g => exact h _ _
  | list g => exact h _ _
  | blob g => exact h _ _

theorem foldl_mergeField_frame {f : Field E} {specs : List (Field E)}
    (h : ∀ g ∈ specs, Frames f g) (out : E) :
    f.SameView (specs.foldl (mergeField base ours theirs choice) out) out := by
  induction specs generalizing out with
  | nil => exact Field.SameView.refl f out
  | cons g gs ih =>
    rw [List.foldl_cons]
    exact (ih (fun g' hg' => h g' (List.mem_cons_of_mem _ hg')) _).trans
      (mergeField_frame base ours theirs choice (h g List.mem_cons_self) out)

/-- A field shows what its own turn wrote, when every other field frames it. -/
theorem mergeEntity_view {f : Field E} {specs : List (Field E)} (hf : f ∈ specs)
    (hids : (specs.map Field.id).Nodup) (hfr : ∀ g ∈ specs, g.id ≠ f.id → Frames f g) :
    ∃ out, f.SameView (mergeEntity specs base ours theirs choice)
      (mergeField base ours theirs choice out f) := by
  obtain ⟨pre, post, rfl⟩ := List.append_of_mem hf
  rw [List.map_append, List.map_cons, List.nodup_append, List.nodup_cons] at hids
  have hpost : ∀ g ∈ post, Frames f g := by
    intro g hg
    apply hfr g (by simp [hg])
    intro hid
    exact hids.2.1.1 (List.mem_map.mpr ⟨g, hg, hid⟩)
  refine ⟨pre.foldl (mergeField base ours theirs choice) ours, ?_⟩
  rw [mergeEntity, List.foldl_append, List.foldl_cons]
  exact foldl_mergeField_frame base ours theirs choice hpost _

/-- A restoring field is taken from the side the merge picked for it. -/
theorem text_mergeField {f : Field E} (hf : Restores f) {cmp : E → String}
    (hcmp : f.text = some cmp) (out : E) :
    cmp (mergeField base ours theirs choice out f) =
      cmp (mergeSource cmp f.id base ours theirs choice) := by
  cases f with
  | scalar f => cases hcmp; exact hf _ _
  | list f => cases hcmp
  | blob f => cases hcmp; exact (hf _ _).1

end MergeLoop

/-! ## The field lists -/

theorem ids_nodup (type : EntityType) : ((specsByType type).map Field.id).Nodup := by
  cases type <;> decide

theorem colon_not_mem_id (type : EntityType) : ∀ f ∈ specsByType type, ':' ∉ f.id.toList := by
  have h : ∀ id ∈ (specsByType type).map Field.id, ':' ∉ id.toList := by
    cases type <;> decide
  intro f hf
  exact h f.id (List.mem_map.mpr ⟨f, hf, rfl⟩)

theorem colon_mem_itemKey (keyPrefix id : String) : ':' ∈ (itemKey keyPrefix id).toList := by
  simp [itemKey]

/-- The fields that view the `body` property of an HTTP request. -/
def bodyFields : List (BlobField HttpRequest) := [bodyField, graphqlQueryField, graphqlVariablesField]

def bodyIds : List String := ["body", "graphqlQuery", "graphqlVariables"]

/-- The fields of a snapshot that cannot be written. -/
def readOnlyIds : List String := ["method", "url", "status", "responseSize", "responseBody"]

/-- Only the fields over `body` overlap. -/
theorem frames_of_ne (type : EntityType) {f g : Field (Inner type)} (hf : f ∈ specsByType type)
    (hg : g ∈ specsByType type) (hne : g.id ≠ f.id)
    (hbody : ¬ (type = .request ∧ f.id ∈ bodyIds ∧ g.id ∈ bodyIds)) : Frames f g := by
  cases type with
  | request =>
    simp only [specsByType, requestSpecs, List.mem_cons, List.not_mem_nil, or_false] at hf hg
    rcases hf with rfl | rfl | rfl | rfl | rfl | rfl | rfl | rfl | rfl <;>
      rcases hg with rfl | rfl | rfl | rfl | rfl | rfl | rfl | rfl | rfl <;>
        first
        | exact fun _ _ => rfl
        | exact fun _ _ => ⟨rfl, rfl, rfl⟩
        | exact absurd rfl hne
        | exact absurd ⟨rfl, by decide, by decide⟩ hbody
  | websocket =>
    simp only [specsByType, connectionSpecs, List.mem_cons, List.not_mem_nil, or_false] at hf hg
    rcases hf with rfl | rfl | rfl | rfl | rfl <;> rcases hg with rfl | rfl | rfl | rfl | rfl <;>
      first
      | exact fun _ _ => rfl
      | exact fun _ _ => ⟨rfl, rfl, rfl⟩
      | exact absurd rfl hne
  | grpc =>
    simp only [specsByType, grpcSpecs, List.mem_cons, List.not_mem_nil, or_false] at hf hg
    rcases hf with rfl | rfl | rfl | rfl | rfl | rfl | rfl | rfl <;>
      rcases hg with rfl | rfl | rfl | rfl | rfl | rfl | rfl | rfl <;>
        first
        | exact fun _ _ => rfl
        | exact fun _ _ => ⟨rfl, rfl, rfl⟩
        | exact absurd rfl hne
  | folder =>
    simp only [specsByType, folderSpecs, List.mem_cons, List.not_mem_nil, or_false] at hf hg
    rcases hf with rfl | rfl | rfl | rfl | rfl <;> rcases hg with rfl | rfl | rfl | rfl | rfl <;>
      first
      | exact fun _ _ => rfl
      | exact fun _ _ => ⟨rfl, rfl, rfl⟩
      | exact absurd rfl hne
  | environment =>
    simp only [specsByType, environmentSpecs, List.mem_cons, List.not_mem_nil, or_false] at hf hg
    rcases hf with rfl | rfl | rfl <;> rcases hg with rfl | rfl | rfl <;>
      first
      | exact fun _ _ => rfl
      | exact absurd rfl hne
  | cookie =>
    simp only [specsByType, jarSpecs, List.mem_cons, List.not_mem_nil, or_false] at hf hg
    rcases hf with rfl | rfl <;> rcases hg with rfl | rfl <;>
      first
      | exact fun _ _ => rfl
      | exact absurd rfl hne
  | workspace =>
    simp only [specsByType, workspaceSpecs, List.mem_cons, List.not_mem_nil, or_false] at hf hg
    rcases hf with rfl | rfl | rfl | rfl <;> rcases hg with rfl | rfl | rfl | rfl <;>
      first
      | exact fun _ _ => rfl
      | exact fun _ _ => ⟨rfl, rfl, rfl⟩
      | exact absurd rfl hne
  | snapshot =>
    simp only [specsByType, snapshotSpecs, List.mem_cons, List.not_mem_nil, or_false] at hf hg
    rcases hf with rfl | rfl | rfl | rfl | rfl | rfl | rfl <;>
      rcases hg with rfl | rfl | rfl | rfl | rfl | rfl | rfl <;>
        first
        | exact fun _ _ => rfl
        | exact fun _ _ => ⟨rfl, rfl, rfl⟩
        | exact absurd rfl hne

theorem getD_orNull (v : String) : (orNull v).getD "" = v := by
  unfold orNull
  split_ifs with h
  · exact h.symm
  · rfl

theorem restores_of_mem (type : EntityType) {f : Field (Inner type)} (hf : f ∈ specsByType type)
    (hro : ¬ (type = .snapshot ∧ f.id ∈ readOnlyIds)) : Restores f := by
  cases type with
  | request =>
    simp only [specsByType, requestSpecs, List.mem_cons, List.not_mem_nil, or_false] at hf
    rcases hf with rfl | rfl | rfl | rfl | rfl | rfl | rfl | rfl | rfl <;>
      first
      | exact fun _ _ => rfl
      | exact fun _ _ => ⟨rfl, rfl, rfl⟩
  | websocket =>
    simp only [specsByType, connectionSpecs, List.mem_cons, List.not_mem_nil, or_false] at hf
    rcases hf with rfl | rfl | rfl | rfl | rfl <;>
      first
      | exact fun _ _ => rfl
      | exact fun _ _ => ⟨rfl, rfl, rfl⟩
  | grpc =>
    simp only [specsByType, grpcSpecs, List.mem_cons, List.not_mem_nil, or_false] at hf
    rcases hf with rfl | rfl | rfl | rfl | rfl | rfl | rfl | rfl
    case inr.inr.inl =>
      intro e source
      cases h : source.tls <;> simp [h]
    case inr.inr.inr.inl => exact fun _ _ => getD_orNull _
    case inr.inr.inr.inr.inl => exact fun _ _ => getD_orNull _
    all_goals
      first
      | exact fun _ _ => rfl
      | exact fun _ _ => ⟨rfl, rfl, rfl⟩
  | folder =>
    simp only [specsByType, folderSpecs, List.mem_cons, List.not_mem_nil, or_false] at hf
    rcases hf with rfl | rfl | rfl | rfl | rfl <;>
      first
      | exact fun _ _ => getD_orNull _
      | exact fun _ _ => rfl
      | exact fun _ _ => ⟨rfl, rfl, rfl⟩
  | environment =>
    simp only [specsByType, environmentSpecs, List.mem_cons, List.not_mem_nil, or_false] at hf
    rcases hf with rfl | rfl | rfl <;> exact fun _ _ => rfl
  | cookie =>
    simp only [specsByType, jarSpecs, List.mem_cons, List.not_mem_nil, or_false] at hf
    rcases hf with rfl | rfl <;> exact fun _ _ => rfl
  | workspace =>
    simp only [specsByType, workspaceSpecs, List.mem_cons, List.not_mem_nil, or_false] at hf
    rcases hf with rfl | rfl | rfl | rfl <;>
      first
      | exact fun _ _ => rfl
      | exact fun _ _ => ⟨rfl, rfl, rfl⟩
  | snapshot =>
    simp only [specsByType, snapshotSpecs, List.mem_cons, List.not_mem_nil, or_false] at hf
    rcases hf with rfl | rfl | rfl | rfl | rfl | rfl | rfl
    case inl => exact fun _ _ => rfl
    case inr.inl =>
      intro e source
      cases h : source.pinned <;> simp [h]
    all_goals exact absurd ⟨rfl, by decide⟩ hro

/-- Nothing writes what a read-only field shows. -/
theorem frames_of_readOnly {f g : Field Snapshot} (hf : f ∈ snapshotSpecs)
    (hg : g ∈ snapshotSpecs) (hro : f.id ∈ readOnlyIds) : Frames f g := by
  by_cases hid : g.id = f.id
  · have hinj := List.inj_on_of_nodup_map (ids_nodup .snapshot)
    obtain rfl : g = f := hinj hg hf hid
    simp only [snapshotSpecs, List.mem_cons, List.not_mem_nil, or_false] at hf
    rcases hf with rfl | rfl | rfl | rfl | rfl | rfl | rfl <;>
      first
      | exact absurd hro (by decide)
      | exact fun _ _ => rfl
      | exact fun _ _ => ⟨rfl, rfl, rfl⟩
  · exact frames_of_ne .snapshot hf hg hid (by simp)

end Voleeo.GitDiff

/-!
## Lists that only one side edited

When one side of a merge is the base itself, the merge should return the rows
of the other side. The rows travel through an index keyed by identity, so rows
that repeat an identity are lost, and a row that counts as equal to the base's
row is replaced by it.
-/
namespace Voleeo.GitDiff
open OrderedMap

theorem ListField.equal_refl (type : EntityType) {f : ListField (Inner type)}
    (hf : .list f ∈ specsByType type) (row : f.Item) : f.equal row row = true := by
  cases type with
  | request =>
    simp only [specsByType, requestSpecs, List.mem_cons, List.not_mem_nil, or_false, reduceCtorEq,
      false_or, Field.list.injEq] at hf
    rcases hf with rfl | rfl <;> simp [requestParamField, headerList, paramList, paramEqual]
  | websocket =>
    simp only [specsByType, connectionSpecs, List.mem_cons, List.not_mem_nil, or_false,
      reduceCtorEq, false_or, Field.list.injEq] at hf
    rcases hf with rfl | rfl <;> simp [headerList, paramList, paramEqual]
  | grpc =>
    simp only [specsByType, grpcSpecs, List.mem_cons, List.not_mem_nil, or_false, reduceCtorEq,
      false_or, Field.list.injEq] at hf
    subst hf
    simp [paramList, paramEqual]
  | folder =>
    simp only [specsByType, folderSpecs, List.mem_cons, List.not_mem_nil, or_false, reduceCtorEq,
      false_or, Field.list.injEq] at hf
    rcases hf with rfl | rfl
    · simp [headerList, paramList, paramEqual]
    · simp [varList, varEqual]
  | environment =>
    simp only [specsByType, environmentSpecs, List.mem_cons, List.not_mem_nil, or_false,
      reduceCtorEq, false_or, Field.list.injEq] at hf
    subst hf
    simp [varList, varEqual]
  | cookie =>
    simp only [specsByType, jarSpecs, List.mem_cons, List.not_mem_nil, or_false, reduceCtorEq,
      false_or, Field.list.injEq] at hf
    subst hf
    simp [cookieEqual]
  | workspace =>
    simp only [specsByType, workspaceSpecs, List.mem_cons, List.not_mem_nil, or_false,
      reduceCtorEq, false_or, Field.list.injEq] at hf
    rcases hf with rfl | rfl
    · simp [headerList, paramList, paramEqual]
    · simp [dnsEqual]
  | snapshot => simp [specsByType, snapshotSpecs] at hf

/-- A list field overlaps no other field and is never read-only. -/
theorem ListField.id_fresh (type : EntityType) {f : ListField (Inner type)}
    (hf : .list f ∈ specsByType type) :
    ¬ (type = .request ∧ f.id ∈ bodyIds) ∧ ¬ (type = .snapshot ∧ f.id ∈ readOnlyIds) := by
  constructor
  · rintro ⟨rfl, hid⟩
    simp only [specsByType, requestSpecs, List.mem_cons, List.not_mem_nil, or_false, reduceCtorEq,
      false_or, Field.list.injEq] at hf
    rcases hf with rfl | rfl <;> exact absurd hid (by decide)
  · rintro ⟨rfl, -⟩
    simp [specsByType, snapshotSpecs] at hf

theorem get_mergeEntity_list (type : EntityType) {f : ListField (Inner type)}
    (hf : .list f ∈ specsByType type) (base : Option (Inner type)) (ours theirs : Inner type)
    (choice : Choices) :
    f.get (mergeEntity (specsByType type) base ours theirs choice) =
      mergeItems f base ours theirs choice := by
  obtain ⟨hbody, hro⟩ := ListField.id_fresh type hf
  have hfr : ∀ g ∈ specsByType type, g.id ≠ (Field.list f).id → Frames (.list f) g := by
    intro g hg hne
    exact frames_of_ne type hf hg hne fun h => hbody ⟨h.1, h.2.1⟩
  obtain ⟨out, hview⟩ := mergeEntity_view base ours theirs choice hf (ids_nodup type) hfr
  have hset : Restores (.list f) := restores_of_mem type hf hro
  exact Eq.trans hview (hset _ _)

/-! ## What it takes to keep every row -/

variable {α : Type}

/-- Every row that counts as equal to the base's row of its identity is that row. -/
def NoLookalike (idOf : α → String) (equal : α → α → Bool) (base rows : List α) : Prop :=
  ∀ row ∈ rows, ∀ b, base.reverse.find? (fun r => idOf r = idOf row) = some b →
    equal b row = true → b = row

theorem keptRow_id (idOf : α → String) (equal : α → α → Bool) (base : List α) (row : α) :
    idOf (keptRow (byId idOf base) equal (idOf row) row) = idOf row := by
  unfold keptRow
  cases hb : (byId idOf base).get? (idOf row) with
  | none => rfl
  | some b =>
    by_cases he : equal b row
    · simpa [he] using id_of_get?_byId hb
    · simp [he]

theorem noLookalike_iff (idOf : α → String) (equal : α → α → Bool) (base rows : List α) :
    NoLookalike idOf equal base rows ↔
      ∀ row ∈ rows, keptRow (byId idOf base) equal (idOf row) row = row := by
  apply forall₂_congr
  intro row _
  simp only [keptRow, get?_byId]
  cases base.reverse.find? (fun r => idOf r = idOf row) with
  | none => simp
  | some b => by_cases he : equal b row <;> simp [he]

/-- Theirs survives an edit of theirs alone exactly when no identity repeats in it and the base
has no lookalike of one of its rows. -/
theorem theirs_only_perm_iff {idOf : α → String} {equal : α → α → Bool}
    (hrefl : ∀ x, equal x x = true) (base theirs : List α) :
    (merge3List base base theirs idOf equal).resolved.Perm theirs ↔
      (theirs.map idOf).Nodup ∧ NoLookalike idOf equal base theirs := by
  have hperm := (merge3List_theirs_only hrefl base theirs idOf).2
  rw [noLookalike_iff]
  constructor
  · intro h
    have hnodup : (theirs.map idOf).Nodup := by
      have hlen := (hperm.symm.trans h).length_eq
      have hval := length_values_byId idOf theirs
      rw [← List.dedup_eq_self]
      apply (List.dedup_sublist _).eq_of_length
      simp only [List.length_map, values] at hlen hval ⊢
      omega
    refine ⟨hnodup, fun row hrow => ?_⟩
    -- the row kept in its place is a row of theirs, and carries the same identity
    have hkept : keptRow (byId idOf base) equal (idOf row) row ∈ theirs := by
      apply (hperm.symm.trans h).subset
      rw [entries_byId hnodup, List.map_map]
      exact List.mem_map.mpr ⟨row, hrow, rfl⟩
    exact List.inj_on_of_nodup_map hnodup hkept hrow (keptRow_id idOf equal base row)
  · rintro ⟨hnodup, hkept⟩
    have hid : (byId idOf theirs).entries.map (fun e => keptRow (byId idOf base) equal e.1 e.2) =
        theirs := by
      rw [entries_byId hnodup, List.map_map]
      exact (List.map_congr_left hkept).trans (List.map_id theirs)
    rwa [hid] at hperm

theorem ours_only_perm_iff {idOf : α → String} {equal : α → α → Bool}
    (hrefl : ∀ x, equal x x = true) (base ours : List α) :
    (merge3List base ours base idOf equal).resolved.Perm ours ↔ (ours.map idOf).Nodup := by
  rw [merge3List_ours_only hrefl]
  exact values_byId_perm_iff idOf ours

/-! ## The law for the field lists -/

/-- Merging a list that one side left alone asks nothing and returns the rows of the other side,
also when the lists are part of whole entities. -/
structure KeepsOneSidedRows (type : EntityType) (f : ListField (Inner type))
    (base ours theirs : List f.Item) : Prop where
  ours_conflicts : (merge3List base ours base f.idOf f.equal).conflicts = []
  ours_rows : (merge3List base ours base f.idOf f.equal).resolved.Perm ours
  theirs_conflicts : (merge3List base base theirs f.idOf f.equal).conflicts = []
  theirs_rows : (merge3List base base theirs f.idOf f.equal).resolved.Perm theirs
  ours_entity : ∀ (b o t : Inner type) (choice : Choices), f.get b = base → f.get o = ours →
    f.get t = base →
      (f.get (mergeEntity (specsByType type) (some b) o t choice)).Perm ours
  theirs_entity : ∀ (b o t : Inner type) (choice : Choices), f.get b = base → f.get o = base →
    f.get t = theirs →
      (f.get (mergeEntity (specsByType type) (some b) o t choice)).Perm theirs

theorem keepsOneSidedRows_iff (type : EntityType) (f : ListField (Inner type))
    (hf : .list f ∈ specsByType type) (base ours theirs : List f.Item) :
    KeepsOneSidedRows type f base ours theirs ↔
      (ours.map f.idOf).Nodup ∧ (theirs.map f.idOf).Nodup ∧
        NoLookalike f.idOf f.equal base theirs := by
  have hrefl := ListField.equal_refl type hf
  have hours : (merge3List base ours base f.idOf f.equal).conflicts = [] := by
    rw [merge3List_ours_only hrefl]
  have htheirs := (merge3List_theirs_only hrefl base theirs f.idOf).1
  constructor
  · intro h
    exact ⟨(ours_only_perm_iff hrefl base ours).mp h.ours_rows,
      (theirs_only_perm_iff hrefl base theirs).mp h.theirs_rows⟩
  · rintro ⟨hno, hnt⟩
    have hrows := (ours_only_perm_iff hrefl base ours).mpr hno
    have trows := (theirs_only_perm_iff hrefl base theirs).mpr hnt
    refine ⟨hours, hrows, htheirs, trows, ?_, ?_⟩
    · intro b o t choice hb ho ht
      simpa [get_mergeEntity_list type hf, mergeItems, hb, ho, ht, hours] using hrows
    · intro b o t choice hb ho ht
      simpa [get_mergeEntity_list type hf, mergeItems, hb, ho, ht, htheirs] using trows

def tagParam (value : String) : RequestParameter := ⟨"", "tag", value, true⟩

theorem keepsOneSidedRows_iff_tag :
    Field.list requestParamField ∈ specsByType .request ∧
      (KeepsOneSidedRows .request requestParamField [] [tagParam "1"] [] ↔
        ([tagParam "1"].map paramId).Nodup ∧ (([] : List RequestParameter).map paramId).Nodup ∧
          NoLookalike paramId paramEqual [] []) := by
  have hf : Field.list requestParamField ∈ specsByType .request := by
    simp [specsByType, requestSpecs]
  exact ⟨hf, keepsOneSidedRows_iff .request requestParamField hf [] [tagParam "1"] []⟩

/-- Two query parameters of one name: the merge keeps only the last. -/
theorem repeated_param_is_dropped :
    Field.list requestParamField ∈ specsByType .request ∧
      ¬ KeepsOneSidedRows .request requestParamField [] [tagParam "1", tagParam "2"] [] := by
  constructor
  · simp [specsByType, requestSpecs]
  · intro h
    have hlen := h.ours_rows.length_eq
    exact absurd hlen (by decide)

end Voleeo.GitDiff
